import Mathlib.Data.List.Nodup
import Mathlib.Data.List.Sublists

/-! # Turns

A queue whose members wait for their turn. The first of them has the next turn;
whoever joins does so at the end, or in front of all others. If nobody waits, the
turn may go to someone who is not in the queue.

A run of the queue is the list of its events. Two results are about every run: of
two that wait, the one that came first has its turn first, unless the other one
joined in front (`race_iff`), and between two turns of the same member everybody
who waits has a turn (`turn_between`).
-/

namespace Turns

open scoped List

/-- What happens to the queue. -/
inductive Event (α : Type*) where
  /-- `t` joins in front. -/
  | front (t : α)
  /-- `t` joins at the end. -/
  | back (t : α)
  /-- `n` has its turn, and `again` joins at the end. -/
  | turn (n : α) (again : Option α)
  deriving DecidableEq, Repr

variable {α : Type*} {q q' q'' : List α} {e f g : Event α} {es es' : List (Event α)} {t x y : α}

/-- Who joins the queue. -/
def Event.Joins : Event α → α → Prop
  | .front t, u => t = u
  | .back t, u => t = u
  | .turn _ again, u => again = some u

/-- Who has its turn. -/
def Event.Takes : Event α → α → Prop
  | .turn n _, u => n = u
  | _, _ => False

/-- The queue before and after an event. -/
inductive Step : List α → Event α → List α → Prop where
  | front {q : List α} {t : α} : t ∉ q → Step q (.front t) (t :: q)
  | back {q : List α} {t : α} : t ∉ q → Step q (.back t) (q ++ [t])
  | turn {q : List α} {n : α} {again : Option α} :
      (∀ u, again = some u → u ∉ n :: q) → Step (n :: q) (.turn n again) (q ++ again.toList)
  | outside {n : α} {again : Option α} :
      again ≠ some n → Step [] (.turn n again) again.toList

/-- The queue before and after a run. -/
inductive Runs : List α → List (Event α) → List α → Prop where
  | nil {q : List α} : Runs q [] q
  | cons {q q' q'' : List α} {e : Event α} {es : List (Event α)} :
      Step q e q' → Runs q' es q'' → Runs q (e :: es) q''

theorem Runs.append (h : Runs q es q') (h' : Runs q' es' q'') : Runs q (es ++ es') q'' := by
  induction h with
  | nil => exact h'
  | cons hstep _ ih => exact .cons hstep (ih h')

theorem Runs.split (h : Runs q (es ++ es') q'') : ∃ q', Runs q es q' ∧ Runs q' es' q'' := by
  induction es generalizing q with
  | nil => exact ⟨q, .nil, h⟩
  | cons e es ih =>
    rcases h with _ | ⟨hstep, hrest⟩
    rcases ih hrest with ⟨q', hes, hes'⟩
    exact ⟨q', .cons hstep hes, hes'⟩

/-! ## One event -/

theorem Step.nodup (h : Step q e q') (hq : q.Nodup) : q'.Nodup := by
  cases h with
  | front ht => exact List.nodup_cons.mpr ⟨ht, hq⟩
  | @back _ t ht =>
    apply hq.append (List.nodup_singleton t)
    rwa [List.disjoint_singleton]
  | @turn q n again hagain =>
    apply hq.of_cons.append
    · cases again <;> simp
    · intro u hu hmem
      rw [Option.mem_toList] at hmem
      exact hagain u hmem (List.mem_cons_of_mem n hu)
  | @outside n again _ => cases again <;> simp

theorem Step.mem_of_joins (h : Step q e q') (ht : e.Joins t) : t ∈ q' := by
  cases h with
  | front _ => exact ht ▸ List.mem_cons_self
  | back _ => exact ht ▸ List.mem_append_right _ (List.mem_singleton_self _)
  | turn _ => exact List.mem_append_right _ (Option.mem_toList.mpr ht)
  | outside _ => exact Option.mem_toList.mpr ht

theorem Step.mem (h : Step q e q') (ht : t ∈ q) (htakes : ¬ e.Takes t) : t ∈ q' := by
  cases h with
  | front _ => exact List.mem_cons_of_mem _ ht
  | back _ => exact List.mem_append_left _ ht
  | turn _ =>
    rcases List.mem_cons.mp ht with heq | ht
    · exact absurd heq.symm htakes
    · exact List.mem_append_left _ ht
  | outside _ => cases ht

/-- Who has its turn was the first, or nobody waited; it has left the queue. -/
theorem Step.takes (h : Step q e q') (hq : q.Nodup) (ht : e.Takes t) :
    (q = [] ∨ ∃ r, q = t :: r) ∧ t ∉ q' := by
  cases h with
  | front _ => cases ht
  | back _ => cases ht
  | @turn q n again hagain =>
    rcases ht with rfl
    refine ⟨Or.inr ⟨q, rfl⟩, ?_⟩
    intro hmem
    rcases List.mem_append.mp hmem with hmem | hmem
    · exact (List.nodup_cons.mp hq).1 hmem
    · exact hagain n (Option.mem_toList.mp hmem) List.mem_cons_self
  | outside hagain =>
    rcases ht with rfl
    exact ⟨Or.inl rfl, fun hmem => hagain (Option.mem_toList.mp hmem)⟩

/-- While `x` waits, whoever is behind it stays there and has no turn. -/
theorem Step.order (h : Step q e q') (hq : q.Nodup) (hxy : [x, y] <+ q) (hx : ¬ e.Takes x) :
    [x, y] <+ q' ∧ ¬ e.Takes y := by
  cases h with
  | front _ => exact ⟨hxy.cons _, id⟩
  | back _ => exact ⟨hxy.trans (List.sublist_append_left _ _), id⟩
  | @turn q n again _ =>
    -- the first one is not `x`, so both are among the others
    have hrest : [x, y] <+ q := by
      rcases hxy with _ | ⟨_, hrest⟩ | ⟨_, hrest⟩
      · exact hrest
      · exact absurd rfl hx
    refine ⟨hrest.trans (List.sublist_append_left _ _), ?_⟩
    rintro rfl
    exact (List.nodup_cons.mp hq).1 (hrest.subset (by simp))
  | outside _ => cases hxy

/-! ## Runs -/

theorem Runs.nodup (h : Runs q es q') (hq : q.Nodup) : q'.Nodup := by
  induction h with
  | nil => exact hq
  | cons hstep _ ih => exact ih (hstep.nodup hq)

theorem Runs.mem (h : Runs q es q') (ht : t ∈ q) (htakes : ∀ e ∈ es, ¬ e.Takes t) : t ∈ q' := by
  induction h with
  | nil => exact ht
  | cons hstep _ ih =>
    apply ih (hstep.mem ht (htakes _ List.mem_cons_self))
    intro e he
    exact htakes e (List.mem_cons_of_mem _ he)

theorem Runs.order (h : Runs q es q') (hq : q.Nodup) (hxy : [x, y] <+ q)
    (hx : ∀ e ∈ es, ¬ e.Takes x) : [x, y] <+ q' ∧ ∀ e ∈ es, ¬ e.Takes y := by
  induction h with
  | nil => exact ⟨hxy, by simp⟩
  | cons hstep _ ih =>
    rcases hstep.order hq hxy (hx _ List.mem_cons_self) with ⟨hxy', hy⟩
    rcases ih (hstep.nodup hq) hxy' fun e he => hx e (List.mem_cons_of_mem _ he) with ⟨hlast, hys⟩
    refine ⟨hlast, ?_⟩
    intro e he
    rcases List.mem_cons.mp he with rfl | he
    · exact hy
    · exact hys e he

/-- `t` has joined and not had its turn since. -/
def Waits (es : List (Event α)) (t : α) : Prop :=
  ∃ es₁ e es₂, es = es₁ ++ e :: es₂ ∧ e.Joins t ∧ ∀ d ∈ es₂, ¬ d.Takes t

theorem Runs.mem_of_waits (h : Runs q es q') (ht : Waits es t) : t ∈ q' := by
  rcases ht with ⟨es₁, e, es₂, rfl, hjoins, htakes⟩
  rcases h.split with ⟨q₁, -, hrest⟩
  rcases hrest with _ | ⟨hstep, hrest⟩
  exact hrest.mem (hstep.mem_of_joins hjoins) htakes

/-- `x` joins with `e`, and `y` with `f`, while `x` waits; then `y` has its turn, with
`g`. The events `es` are those between the first two, and `es'` those between the
last two. -/
structure Race (e f g : Event α) (es es' : List (Event α)) (x y : α) : Prop where
  ne : x ≠ y
  first : e.Joins x
  second : f.Joins y
  waits : ∀ d ∈ es ++ [f], ¬ d.Takes x
  turn : g.Takes y
  next : ∀ d ∈ es', ¬ d.Takes y

/-- When the second has joined, it is behind the first, unless it went to the front. -/
theorem Step.race (h : Step q f q') (hx : x ∈ q) (hxy : x ≠ y) (htakes : ¬ f.Takes x)
    (hy : f.Joins y) : (f ≠ .front y ∧ [x, y] <+ q') ∨ (f = .front y ∧ [y, x] <+ q') := by
  cases h with
  | front _ =>
    rcases hy with rfl
    exact Or.inr ⟨rfl, (List.singleton_sublist.mpr hx).cons_cons _⟩
  | back _ =>
    rcases hy with rfl
    refine Or.inl ⟨nofun, ?_⟩
    exact (List.singleton_sublist.mpr hx).append (List.Sublist.refl _)
  | @turn q n again _ =>
    refine Or.inl ⟨nofun, ?_⟩
    have hrest : x ∈ q := by
      rcases List.mem_cons.mp hx with heq | hx
      · exact absurd heq.symm htakes
      · exact hx
    rw [show again = some y from hy]
    exact (List.singleton_sublist.mpr hrest).append (List.Sublist.refl _)
  | outside _ => cases hx

theorem race_iff {es₁ es₄ es₂ es₃ : List (Event α)}
    (h : Runs [] (es₁ ++ e :: es₂ ++ f :: es₃ ++ g :: es₄) q) (hrace : Race e f g es₂ es₃ x y) :
    (∃ d ∈ es₃, d.Takes x) ↔ f ≠ .front y := by
  rcases h.split with ⟨q₃, h, hg⟩
  rcases hg with _ | ⟨hg, -⟩
  rcases h.split with ⟨q₁, h, hf⟩
  rcases hf with _ | ⟨hf, hes₃⟩
  have hq₁ : q₁.Nodup := h.nodup List.nodup_nil
  have hq₂ := hf.nodup hq₁
  have hx : x ∈ q₁ := h.mem_of_waits ⟨es₁, e, es₂, rfl, hrace.first,
    fun d hd => hrace.waits d (List.mem_append_left _ hd)⟩
  have htakes : ¬ f.Takes x := hrace.waits f (List.mem_append_right _ (List.mem_singleton_self f))
  rcases hf.race hx hrace.ne htakes hrace.second with ⟨hback, hxy⟩ | ⟨hfront, hyx⟩
  · -- `x` is in front, and `y` has no turn before it
    refine ⟨fun _ => hback, fun _ => ?_⟩
    by_contra hnone
    push Not at hnone
    have hlast := (hes₃.order hq₂ hxy hnone).1
    rcases (hg.takes (hes₃.nodup hq₂) hrace.turn).1 with hnil | ⟨r, hcons⟩
    · rw [hnil] at hlast
      cases hlast
    · -- the first of a queue is behind nobody
      have hq₃ := hes₃.nodup hq₂
      rw [hcons] at hlast hq₃
      rcases hlast with _ | ⟨_, hlast⟩ | ⟨_, hlast⟩
      · exact (List.nodup_cons.mp hq₃).1 (hlast.subset (by simp))
      · exact hrace.ne rfl
  · constructor
    · rintro ⟨d, hd, hdx⟩
      exact absurd hdx ((hes₃.order hq₂ hyx hrace.next).2 d hd)
    · intro hne
      exact absurd hfront hne

/-- Everybody has its turn before those who joined later, while it was waiting. -/
def InOrder (es : List (Event α)) : Prop :=
  ∀ es₁ es₂ es₃ es₄ e f g x y, es = es₁ ++ e :: es₂ ++ f :: es₃ ++ g :: es₄ →
    Race e f g es₂ es₃ x y → ∃ d ∈ es₃, d.Takes x

/-- Whoever has had its turn joined when nobody was waiting. -/
def Alone (es : List (Event α)) : Prop :=
  ∀ es₁ es₂ es₃ f g y, es = es₁ ++ f :: es₂ ++ g :: es₃ → f.Joins y → g.Takes y →
    (∀ d ∈ es₂, ¬ d.Takes y) → ∀ x, ¬ Waits es₁ x

/-- If all join in front, two that wait at the same time never have their turns in order. -/
theorem inOrder_iff_alone (h : Runs [] es q) (hfront : ∀ e ∈ es, ∀ t, e.Joins t → e = .front t) :
    InOrder es ↔ Alone es := by
  constructor
  · intro horder es₁ es₂ es₃ f g y hes hf hg hnext x hx
    have hfy : f = .front y := hfront f (by simp [hes]) y hf
    have hne : x ≠ y := by
      rw [hes, List.append_assoc] at h
      rcases h.split with ⟨q₁, h₁, h₂⟩
      have hx₁ := h₁.mem_of_waits hx
      rw [hfy] at h₂
      rcases h₂ with _ | ⟨hstep, -⟩
      cases hstep with
      | front hy => exact fun heq => hy (heq ▸ hx₁)
    rcases hx with ⟨es₀, e, es₄, hes₁, he, hwaits⟩
    have hrace : Race e f g es₄ es₂ x y := by
      refine ⟨hne, he, hf, ?_, hg, hnext⟩
      intro d hd
      rcases List.mem_append.mp hd with hd | hd
      · exact hwaits d hd
      · rw [List.mem_singleton.mp hd, hfy]
        exact id
    rw [hes₁] at hes
    rw [hes] at h
    exact (race_iff h hrace).mp (horder _ _ _ _ _ _ _ _ _ hes hrace) hfy
  · intro halone es₁ es₂ es₃ es₄ e f g x y hes hrace
    exact absurd ⟨es₁, e, es₂, rfl, hrace.first,
      fun d hd => hrace.waits d (List.mem_append_left _ hd)⟩
      (halone _ _ _ _ _ _ hes hrace.second hrace.turn hrace.next x)

/-- While `x` waits, `y` cannot get in front of it from outside. -/
theorem Step.behind (h : Step q e q') (hq : q.Nodup) (hx : x ∈ q) (hxy : y ∈ q → [x, y] <+ q)
    (hne : x ≠ y) (htakes : ¬ e.Takes x) (hfront : e ≠ .front y) :
    (y ∈ q' → [x, y] <+ q') ∧ ¬ e.Takes y := by
  by_cases hy : y ∈ q
  · rcases h.order hq (hxy hy) htakes with ⟨hxy', hturn⟩
    exact ⟨fun _ => hxy', hturn⟩
  · constructor
    · intro hy'
      have hjoins : e.Joins y := by
        cases h with
        | front _ =>
          rcases List.mem_cons.mp hy' with heq | hmem
          · exact heq.symm
          · exact absurd hmem hy
        | back _ =>
          rcases List.mem_append.mp hy' with hmem | hmem
          · exact absurd hmem hy
          · exact (List.mem_singleton.mp hmem).symm
        | turn _ =>
          rcases List.mem_append.mp hy' with hmem | hmem
          · exact absurd (List.mem_cons_of_mem _ hmem) hy
          · exact Option.mem_toList.mp hmem
        | outside _ => cases hx
      rcases h.race hx hne htakes hjoins with ⟨-, hxy'⟩ | ⟨heq, -⟩
      · exact hxy'
      · exact absurd heq hfront
    · intro hturn
      rcases (h.takes hq hturn).1 with hnil | ⟨r, hcons⟩
      · rw [hnil] at hx
        cases hx
      · exact hy (hcons ▸ List.mem_cons_self)

theorem Runs.behind (h : Runs q es q') (hq : q.Nodup) (hx : x ∈ q) (hxy : y ∈ q → [x, y] <+ q)
    (hne : x ≠ y) (htakes : ∀ e ∈ es, ¬ e.Takes x) (hfront : .front y ∉ es) :
    ∀ e ∈ es, ¬ e.Takes y := by
  induction h with
  | nil => simp
  | @cons q q₁ q' d es hstep _ ih =>
    rw [List.mem_cons, not_or] at hfront
    have hd := htakes d List.mem_cons_self
    rcases hstep.behind hq hx hxy hne hd (Ne.symm hfront.1) with ⟨hxy', hy⟩
    have hrest := ih (hstep.nodup hq) (hstep.mem hx hd) hxy'
      (fun e he => htakes e (List.mem_cons_of_mem _ he)) hfront.2
    intro e he
    rcases List.mem_cons.mp he with rfl | he
    · exact hy
    · exact hrest e he

/-- Between two turns of `y` everybody has a turn who was waiting after the first. -/
theorem turn_between {es₁ es₂ es₃ : List (Event α)}
    (h : Runs [] (es₁ ++ e :: es₂ ++ f :: es₃) q) (he : e.Takes y) (hf : f.Takes y)
    (hfront : .front y ∉ es₂) (hx : Waits (es₁ ++ [e]) x) : ∃ d ∈ es₂, d.Takes x := by
  have hsplit : es₁ ++ e :: es₂ ++ f :: es₃ = (es₁ ++ [e]) ++ ((es₂ ++ [f]) ++ es₃) := by simp
  rw [hsplit] at h
  rcases h.split with ⟨q₁, h₁, h⟩
  rcases h.split with ⟨q₂, h₂, -⟩
  have hq₁ : q₁.Nodup := h₁.nodup List.nodup_nil
  have hx₁ : x ∈ q₁ := h₁.mem_of_waits hx
  have hy₁ : y ∉ q₁ := by
    rcases h₁.split with ⟨q₀, h₀, hlast⟩
    rcases hlast with _ | ⟨hlast, hnil⟩
    cases hnil
    exact (hlast.takes (h₀.nodup List.nodup_nil) he).2
  have hne : x ≠ y := fun heq => hy₁ (heq ▸ hx₁)
  by_contra hnone
  push Not at hnone
  -- the event `f` itself is no turn of `x` either
  have hfx : ¬ f.Takes x := by
    cases f with
    | front t => exact id
    | back t => exact id
    | turn n again => exact fun heq => hne (heq.symm.trans hf)
  have hall : ∀ d ∈ es₂ ++ [f], ¬ d.Takes x := by
    intro d hd
    rcases List.mem_append.mp hd with hd | hd
    · exact hnone d hd
    · exact List.mem_singleton.mp hd ▸ hfx
  have hnofront : .front y ∉ es₂ ++ [f] := by
    intro hmem
    rcases List.mem_append.mp hmem with hmem | hmem
    · exact hfront hmem
    · rw [← List.mem_singleton.mp hmem] at hf
      exact hf
  have hno := h₂.behind hq₁ hx₁ (fun hy => absurd hy hy₁) hne hall hnofront
  exact hno f (List.mem_append_right _ (List.mem_singleton_self f)) hf

/-! ## Places -/

/-- Somebody has a turn. -/
def Event.isTurn : Event α → Bool
  | .turn _ _ => true
  | _ => false

/-- Somebody joins in front. -/
def Event.isFront : Event α → Bool
  | .front _ => true
  | _ => false

section Places

variable [DecidableEq α]

/-- A turn of another brings a member one place forward, and who joins in front puts it one
place back. -/
theorem Step.idxOf (h : Step q e q') (ht : t ∈ q) (hnot : ¬ e.Takes t) :
    t ∈ q' ∧ q'.idxOf t + [e].countP Event.isTurn = q.idxOf t + [e].countP Event.isFront := by
  refine ⟨h.mem ht hnot, ?_⟩
  cases h with
  | @front _ u hu =>
    have hne : u ≠ t := by
      rintro rfl
      exact hu ht
    rw [List.idxOf_cons_ne _ hne]
    rfl
  | back hu =>
    rw [List.idxOf_append_of_mem ht]
    rfl
  | @turn r n again hagain =>
    have hne : n ≠ t := hnot
    have hmem : t ∈ r := (List.mem_cons.mp ht).resolve_left hne.symm
    rw [List.idxOf_append_of_mem hmem, List.idxOf_cons_ne _ hne]
    rfl
  | outside => cases ht

theorem Runs.idxOf (h : Runs q es q') (ht : t ∈ q) (hnot : ∀ e ∈ es, ¬ e.Takes t) :
    t ∈ q' ∧ q'.idxOf t + es.countP Event.isTurn = q.idxOf t + es.countP Event.isFront := by
  induction h with
  | nil => exact ⟨ht, rfl⟩
  | @cons q q₁ q' d es hstep _ ih =>
    rcases hstep.idxOf ht (hnot d List.mem_cons_self) with ⟨ht₁, hone⟩
    rcases ih ht₁ fun e he => hnot e (List.mem_cons_of_mem _ he) with ⟨hmem, hrest⟩
    refine ⟨hmem, ?_⟩
    have hsplit : ∀ p : Event α → Bool, (d :: es).countP p = [d].countP p + es.countP p := by
      intro p
      rw [← List.countP_append]
      rfl
    rw [hsplit, hsplit]
    omega

end Places

end Turns
