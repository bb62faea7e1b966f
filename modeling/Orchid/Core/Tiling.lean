import Mathlib.Data.List.Basic
import Mathlib.Data.List.Chain
import Mathlib.Data.List.Perm.Subperm

/-! # Blocks that tile a range

A range of addresses is cut into blocks, each a header of `hdr` bytes and
`size` bytes behind it. A list of blocks and a start address determine where
every block lies (`At`); blocks at different addresses do not overlap, and
rewriting a stretch of the list by one of the same extent moves no other block.
The list is coalesced when no two neighbours are both free.
-/

namespace Tiling

/-- A block: the size of its payload, and whether it is free. -/
structure Block where
  size : Nat
  free : Bool
deriving DecidableEq, Repr

/-- The bytes a list of blocks takes, headers included. -/
def extent (hdr : Nat) : List Block → Nat
  | [] => 0
  | b :: bs => hdr + b.size + extent hdr bs

/-- Block `b` lies at `x` when the blocks start at `a`. -/
def At (hdr : Nat) : Nat → List Block → Nat → Block → Prop
  | _, [], _, _ => False
  | a, c :: bs, x, b => (x = a ∧ b = c) ∨ At hdr (a + hdr + c.size) bs x b

variable {hdr a x y : Nat} {b c : Block} {bs l m m' r : List Block}

@[simp] theorem extent_nil : extent hdr [] = 0 := rfl

@[simp] theorem extent_cons : extent hdr (b :: bs) = hdr + b.size + extent hdr bs := rfl

@[simp] theorem extent_append (l r : List Block) :
    extent hdr (l ++ r) = extent hdr l + extent hdr r := by
  induction l with
  | nil => simp
  | cons b l ih => simp only [List.cons_append, extent_cons, ih]; omega

/-- Every block has a header. -/
theorem length_le_extent (bs : List Block) : hdr * bs.length ≤ extent hdr bs := by
  induction bs with
  | nil => simp
  | cons b bs ih =>
    rw [List.length_cons, extent_cons, Nat.mul_succ]
    omega

theorem at_append (l r : List Block) :
    At hdr a (l ++ r) x b ↔ At hdr a l x b ∨ At hdr (a + extent hdr l) r x b := by
  induction l generalizing a with
  | nil => simp [At]
  | cons c l ih =>
    have hshift : a + hdr + c.size + extent hdr l = a + (hdr + c.size + extent hdr l) := by omega
    rw [List.cons_append, At, At, ih, extent_cons, hshift, or_assoc]

theorem at_middle : At hdr a (l ++ b :: r) (a + extent hdr l) b :=
  (at_append l (b :: r)).mpr (Or.inr (Or.inl ⟨rfl, rfl⟩))

/-- A block lies inside the range. -/
theorem At.bounds (h : At hdr a bs x b) : a ≤ x ∧ x + hdr + b.size ≤ a + extent hdr bs := by
  induction bs generalizing a with
  | nil => exact h.elim
  | cons c bs ih =>
    rw [extent_cons]
    rcases h with ⟨rfl, rfl⟩ | h
    · omega
    · have := ih h
      omega

/-- A block can be pointed at in the list. -/
theorem At.split (h : At hdr a bs x b) : ∃ l r, bs = l ++ b :: r ∧ x = a + extent hdr l := by
  induction bs generalizing a with
  | nil => exact h.elim
  | cons c bs ih =>
    rcases h with ⟨rfl, rfl⟩ | h
    · exact ⟨[], bs, rfl, rfl⟩
    · obtain ⟨l, r, rfl, hx⟩ := ih h
      refine ⟨c :: l, r, rfl, ?_⟩
      rw [hx, extent_cons]
      omega

/-- Different blocks do not overlap, and there is one block at an address. -/
theorem At.apart (hb : At hdr a bs x b) (hc : At hdr a bs y c) :
    (x = y ∧ b = c) ∨ x + hdr + b.size ≤ y ∨ y + hdr + c.size ≤ x := by
  induction bs generalizing a with
  | nil => exact hb.elim
  | cons d bs ih =>
    rcases hb with ⟨rfl, rfl⟩ | hb
    · rcases hc with ⟨rfl, rfl⟩ | hc
      · exact Or.inl ⟨rfl, rfl⟩
      · exact Or.inr (Or.inl hc.bounds.1)
    · rcases hc with ⟨rfl, rfl⟩ | hc
      · exact Or.inr (Or.inr hb.bounds.1)
      · exact ih hb hc

theorem At.unique (hpos : 0 < hdr) (hb : At hdr a bs x b) (hc : At hdr a bs x c) : b = c := by
  rcases hb.apart hc with ⟨-, h⟩ | h | h
  · exact h
  · omega
  · omega

/-- Rewriting a stretch of the same extent: the blocks around it stay. -/
theorem At.replace (hext : extent hdr m' = extent hdr m) (h : At hdr a (l ++ m ++ r) x b) :
    At hdr (a + extent hdr l) m x b ∨ At hdr a (l ++ m' ++ r) x b := by
  rw [at_append, at_append] at h ⊢
  rw [extent_append] at h ⊢
  rw [hext]
  tauto

/-! ## Free neighbours -/

/-- No two neighbours are both free. -/
def Coalesced (bs : List Block) : Prop := bs.IsChain fun b c => b.free = false ∨ c.free = false

/-- How many blocks are not free. -/
def used (bs : List Block) : Nat := bs.countP fun b => !b.free

@[simp] theorem used_append (l r : List Block) : used (l ++ r) = used l + used r :=
  List.countP_append

@[simp] theorem used_singleton (b : Block) : used [b] = if b.free then 0 else 1 := by
  cases hb : b.free <;> simp [used, hb]

/-- `r'` is `r` without the free block in front, if there is one. -/
def Behind (r r' : List Block) : Prop :=
  (r' = r ∧ ∀ c ∈ r.head?, c.free = false) ∨ ∃ c, c.free = true ∧ r = c :: r'

/-- `l'` is `l` without the free block at its end, if there is one. -/
def Before (l l' : List Block) : Prop :=
  (l' = l ∧ ∀ c ∈ l.getLast?, c.free = false) ∨ ∃ c, c.free = true ∧ l = l' ++ [c]

/-- Around a free block the neighbours are used. -/
theorem Coalesced.around (h : Coalesced (l ++ [b] ++ r)) (hb : b.free = true) :
    Coalesced l ∧ Coalesced r ∧ (∀ c ∈ l.getLast?, c.free = false) ∧
      ∀ c ∈ r.head?, c.free = false := by
  rcases List.isChain_append.mp h with ⟨hlb, hr, hright⟩
  rcases List.isChain_append.mp hlb with ⟨hl, -, hleft⟩
  refine ⟨hl, hr, fun c hc => ?_, fun c hc => ?_⟩
  · have hor := hleft c hc b rfl
    simpa [hb] using hor
  · have hor := hright b (by simp) c hc
    simpa [hb] using hor

/-- Between used blocks any coalesced stretch will do. -/
theorem coalesced_between (hl : Coalesced l) (hr : Coalesced r) (hm : Coalesced m)
    (hleft : ∀ c ∈ l.getLast?, c.free = false) (hright : ∀ c ∈ r.head?, c.free = false) :
    Coalesced (l ++ m ++ r) := by
  apply List.IsChain.append
  · exact hl.append hm fun c hc _ _ => Or.inl (hleft c hc)
  · exact hr
  · exact fun _ _ c hc => Or.inr (hright c hc)

theorem coalesced_singleton (b : Block) : Coalesced [b] := List.isChain_singleton b

theorem Behind.coalesced (h : Behind l r) (hl : Coalesced l) :
    Coalesced r ∧ ∀ c ∈ r.head?, c.free = false := by
  rcases h with ⟨rfl, hhead⟩ | ⟨c, hc, rfl⟩
  · exact ⟨hl, hhead⟩
  · have haround := @Coalesced.around c [] r hl hc
    exact ⟨haround.2.1, haround.2.2.2⟩

theorem Before.coalesced (h : Before l r) (hl : Coalesced l) :
    Coalesced r ∧ ∀ c ∈ r.getLast?, c.free = false := by
  rcases h with ⟨rfl, hlast⟩ | ⟨c, hc, rfl⟩
  · exact ⟨hl, hlast⟩
  · have hlist : Coalesced (r ++ [c] ++ []) := by
      rw [List.append_nil]
      exact hl
    exact ⟨(hlist.around hc).1, (hlist.around hc).2.2.1⟩

theorem Behind.used (h : Behind l r) : used r = used l := by
  rcases h with ⟨rfl, -⟩ | ⟨c, hc, rfl⟩
  · rfl
  · simp [Tiling.used, hc]

theorem Before.used (h : Before l r) : used r = used l := by
  rcases h with ⟨rfl, -⟩ | ⟨c, hc, rfl⟩
  · rfl
  · simp [hc]

/-- With nothing in use, a coalesced list is one block at most. -/
theorem eq_singleton_of_unused (h : Coalesced bs) (hused : used bs = 0) (hne : bs ≠ []) :
    ∃ b, bs = [b] ∧ b.free = true := by
  have hfree : ∀ b ∈ bs, b.free = true := by
    intro b hb
    have hnot := List.countP_eq_zero.mp hused b hb
    simpa using hnot
  match bs, hne with
  | [b], _ => exact ⟨b, rfl, hfree b List.mem_cons_self⟩
  | b :: c :: rest, _ =>
    rcases (List.isChain_cons_cons.mp h).1 with hb | hc
    · rw [hfree b List.mem_cons_self] at hb
      cases hb
    · rw [hfree c (List.mem_cons_of_mem b List.mem_cons_self)] at hc
      cases hc

/-! ## The used blocks -/

/-- Where the blocks lie that are not free. -/
def usedAddrs (hdr : Nat) : Nat → List Block → List Nat
  | _, [] => []
  | a, b :: bs => (if b.free then [] else [a]) ++ usedAddrs hdr (a + hdr + b.size) bs

theorem length_usedAddrs (bs : List Block) : (usedAddrs hdr a bs).length = used bs := by
  induction bs generalizing a with
  | nil => rfl
  | cons c bs ih =>
    have hsplit : used (c :: bs) = used [c] + used bs := used_append [c] bs
    rw [usedAddrs, List.length_append, ih, hsplit, used_singleton]
    cases c.free <;> rfl

theorem mem_usedAddrs : x ∈ usedAddrs hdr a bs ↔ ∃ b, At hdr a bs x b ∧ b.free = false := by
  induction bs generalizing a with
  | nil => simp [usedAddrs, At]
  | cons c bs ih =>
    rw [usedAddrs, List.mem_append, ih]
    cases hc : c.free <;> simp [At, or_and_right, exists_or, hc]

/-- Pointers behind the headers of used blocks, as many as there are used blocks, are all
of these pointers. -/
theorem mem_of_length_used {ps : List Nat} (hnodup : ps.Nodup)
    (hps : ∀ p ∈ ps, ∃ y c, At hdr a bs y c ∧ c.free = false ∧ p = y + hdr)
    (hlen : ps.length = used bs) (hx : At hdr a bs x b) (hb : b.free = false) : x + hdr ∈ ps := by
  have hsub : ps ⊆ (usedAddrs hdr a bs).map (· + hdr) := by
    intro p hp
    rcases hps p hp with ⟨y, c, hy, hc, rfl⟩
    exact List.mem_map_of_mem (mem_usedAddrs.mpr ⟨c, hy, hc⟩)
  have hperm : ps.Perm ((usedAddrs hdr a bs).map (· + hdr)) := by
    apply (hnodup.subperm hsub).perm_of_length_le
    rw [List.length_map, length_usedAddrs, hlen]
  exact hperm.mem_iff.mpr (List.mem_map_of_mem (mem_usedAddrs.mpr ⟨b, hx, hb⟩))

end Tiling
