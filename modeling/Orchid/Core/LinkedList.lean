import Mathlib.Data.List.Nodup
import Mathlib.Logic.Function.Basic

/-! # Singly linked lists in a field

An intrusive list is a head pointer and a `next` field on the nodes. `Chain`
reads the nodes off as a `List`; the lemmas say what the usual pointer updates
(push, pop, append behind the last node) do to that list, and when the loop
that looks for the last node ends.
-/

namespace LinkedList

variable {α : Type*}

/-- `Chain next start l`: following `next` from `start` visits exactly the
nodes `l`, in that order, and then reaches the null link. -/
def Chain (next : α → Option α) : Option α → List α → Prop
  | start, [] => start = none
  | start, a :: l => start = some a ∧ Chain next (next a) l

/-- The loop `while (tail->next) tail = tail->next;`, cut off after `fuel`
tests of its condition. `none` means that it was still running. -/
def walkTail (next : α → Option α) : Nat → α → Option α
  | 0, _ => none
  | fuel + 1, a =>
    match next a with
    | none => some a
    | some b => walkTail next fuel b

@[simp] theorem chain_nil {next : α → Option α} {start : Option α} :
    Chain next start [] ↔ start = none := Iff.rfl

@[simp] theorem chain_cons {next : α → Option α} {start : Option α} {a : α} {l : List α} :
    Chain next start (a :: l) ↔ start = some a ∧ Chain next (next a) l := Iff.rfl

/-! ## The list a chain spells is determined, and has no repetition -/

/-- A head and a `next` field spell at most one list. -/
theorem Chain.unique {next : α → Option α} {start : Option α} {l l' : List α}
    (h : Chain next start l) (h' : Chain next start l') : l = l' := by
  induction l generalizing start l' with
  | nil =>
    cases l' with
    | nil => rfl
    | cons b l' =>
      have hnone : start = none := h
      rw [hnone] at h'
      simp at h'
  | cons a l ih =>
    cases l' with
    | nil =>
      have hnone : start = none := h'
      rw [hnone] at h
      simp at h
    | cons b l' =>
      have hab : a = b := Option.some.inj (h.1.symm.trans h'.1)
      subst hab
      rw [ih h.2 h'.2]

/-- A chain can be entered at any of its nodes. -/
theorem Chain.drop_to {next : α → Option α} {start : Option α} {l₁ l₂ : List α} {a : α}
    (h : Chain next start (l₁ ++ a :: l₂)) : Chain next (some a) (a :: l₂) := by
  induction l₁ generalizing start with
  | nil => exact ⟨rfl, h.2⟩
  | cons b l₁ ih => exact ih h.2

/-- A chain never meets a node twice: from a repeated node the rest of the
chain would be two lists of different lengths. -/
theorem Chain.nodup {next : α → Option α} {start : Option α} {l : List α}
    (h : Chain next start l) : l.Nodup := by
  induction l generalizing start with
  | nil => exact List.nodup_nil
  | cons a l ih =>
    refine List.nodup_cons.mpr ⟨fun ha => ?_, ih h.2⟩
    obtain ⟨l₁, l₂, rfl⟩ := List.append_of_mem ha
    have hfirst : Chain next (some a) (a :: (l₁ ++ a :: l₂)) := ⟨rfl, h.2⟩
    have hagain : Chain next (some a) (a :: l₂) := Chain.drop_to h.2
    have hlen := congrArg List.length (hfirst.unique hagain)
    simp only [List.length_cons, List.length_append] at hlen
    omega

/-- A node that points to itself is on no chain. -/
theorem not_chain_of_self_loop {next : α → Option α} {a : α} (ha : next a = some a)
    (l : List α) : ¬ Chain next (some a) l := by
  intro h
  cases l with
  | nil => simp at h
  | cons b l =>
    have hab : a = b := Option.some.inj h.1
    subst hab
    have hrest : Chain next (some a) l := by
      have := h.2
      rwa [ha] at this
    have hlen := congrArg List.length (h.unique hrest)
    simp at hlen

/-! ## Pointer updates -/

/-- Only the `next` fields of the nodes on the chain matter. -/
theorem Chain.congr {next next' : α → Option α} {start : Option α} {l : List α}
    (h : Chain next start l) (heq : ∀ a ∈ l, next' a = next a) : Chain next' start l := by
  induction l generalizing start with
  | nil => exact h
  | cons a l ih =>
    refine ⟨h.1, ?_⟩
    rw [heq a (by simp)]
    exact ih h.2 fun b hb => heq b (List.mem_cons_of_mem a hb)

/-- Linking a fresh node in front. -/
theorem Chain.push {next next' : α → Option α} {start : Option α} {l : List α} {a : α}
    (h : Chain next start l) (ha : next' a = start) (heq : ∀ b ∈ l, next' b = next b) :
    Chain next' (some a) (a :: l) := by
  refine ⟨rfl, ?_⟩
  rw [ha]
  exact h.congr heq

/-- Hanging a fresh node `x` behind the last node `z`. -/
theorem Chain.snoc {next next' : α → Option α} {start : Option α} {l : List α} {z x : α}
    (h : Chain next start (l ++ [z])) (hz : next' z = some x) (hx : next' x = none)
    (heq : ∀ a ∈ l, next' a = next a) : Chain next' start (l ++ [z, x]) := by
  induction l generalizing start with
  | nil => exact ⟨h.1, hz, hx⟩
  | cons a l ih =>
    refine ⟨h.1, ?_⟩
    rw [heq a (by simp)]
    exact ih h.2 fun b hb => heq b (List.mem_cons_of_mem a hb)

/-! ## The tail walk -/

/-- On a chain the tail walk ends at the last node, after as many tests as
the chain has nodes. -/
theorem walkTail_of_chain {next : α → Option α} {l : List α} {a z : α} {fuel : Nat}
    (h : Chain next (some a) (l ++ [z])) (hfuel : l.length < fuel) :
    walkTail next fuel a = some z := by
  induction l generalizing a fuel with
  | nil =>
    obtain ⟨hstart, hend⟩ := h
    have haz : a = z := Option.some.inj hstart
    have hnull : next z = none := hend
    cases fuel with
    | zero => simp at hfuel
    | succ fuel => simp [walkTail, haz, hnull]
  | cons b l ih =>
    obtain ⟨hstart, hrest⟩ := h
    have hab : a = b := Option.some.inj hstart
    subst hab
    cases fuel with
    | zero => simp at hfuel
    | succ fuel =>
      have hlen : l.length < fuel := by simpa using hfuel
      cases hn : next a with
      | none =>
        rw [hn] at hrest
        cases l <;> simp at hrest
      | some c =>
        rw [hn] at hrest
        simp only [walkTail, hn]
        exact ih hrest hlen

/-- On a self-linked node the tail walk never ends. -/
theorem walkTail_self_loop {next : α → Option α} {a : α} (ha : next a = some a) :
    ∀ fuel, walkTail next fuel a = none
  | 0 => rfl
  | fuel + 1 => by
    simp only [walkTail, ha]
    exact walkTail_self_loop ha fuel

/-- More fuel does not change where the walk ends. -/
theorem walkTail_mono {next : α → Option α} {fuel fuel' : Nat} {a z : α}
    (h : walkTail next fuel a = some z) (hle : fuel ≤ fuel') :
    walkTail next fuel' a = some z := by
  induction fuel generalizing a fuel' with
  | zero => simp [walkTail] at h
  | succ fuel ih =>
    cases fuel' with
    | zero => omega
    | succ fuel' =>
      cases hn : next a with
      | none => simpa [walkTail, hn] using h
      | some b =>
        simp only [walkTail, hn] at h ⊢
        exact ih h (by omega)

end LinkedList
