import Mathlib.Data.List.Infix

/-! # Radix trees of tables

A multi-level table is given by its links: `child f i` is the table (or, at
the last level, the frame) that slot `i` of table `f` refers to. A path of
slot numbers is followed with `walk`.

Several trees can live in one set of tables: `root k` is the root of tree `k`.
What a store into one slot does to all other paths depends on whether the
table it hits is met on them, so everything is relative to a set `D k` of paths
of each tree, closed under prefixes, whose tables are pairwise distinct
(`Distinct`). Paths whose proper prefixes are in `D k` are `Below (D k)`: all
the tables they pass through are known to be distinct.
-/

namespace Radix

variable {K F I : Type*}

/-- Follow a path of slots from table `r`. -/
def walk (child : F → I → Option F) (r : F) : List I → Option F
  | [] => some r
  | i :: q => (child r i).bind fun c => walk child c q

/-- A set of paths with every prefix of its members. -/
def PrefixClosed (D : List I → Prop) : Prop := ∀ p q, D (p ++ q) → D p

/-- All proper prefixes of `q` are in `D`. -/
def Below (D : List I → Prop) (q : List I) : Prop := ∀ p j q', q = p ++ j :: q' → D p

/-- Different paths lead to different tables. -/
def Distinct (child : F → I → Option F) (root : K → F) (D : K → List I → Prop) : Prop :=
  ∀ k p k' p' f, D k p → D k' p' →
    walk child (root k) p = some f → walk child (root k') p' = some f → k = k' ∧ p = p'

/-- Table `c` is on none of the paths. -/
def Fresh (child : F → I → Option F) (root : K → F) (D : K → List I → Prop) (c : F) : Prop :=
  ∀ k p, D k p → walk child (root k) p ≠ some c

/-- How many tables are still missing on a path: the slots from the first
empty one on. -/
def missing (child : F → I → Option F) (r : F) : List I → Nat
  | [] => 0
  | i :: q =>
    match child r i with
    | none => q.length + 1
    | some c => missing child c q

variable {child child' : F → I → Option F} {root : K → F} {r f c : F} {i : I} {p q : List I}
  {k k₀ : K} {D : K → List I → Prop} {E : List I → Prop}

@[simp] theorem walk_nil : walk child r [] = some r := rfl

@[simp] theorem walk_cons : walk child r (i :: q) = (child r i).bind fun c => walk child c q := rfl

theorem walk_append (p q : List I) :
    walk child r (p ++ q) = (walk child r p).bind fun f => walk child f q := by
  induction p generalizing r with
  | nil => rfl
  | cons i p ih =>
    rw [List.cons_append, walk_cons, walk_cons]
    cases child r i with
    | none => rfl
    | some c => exact ih

theorem walk_concat (hf : walk child r p = some f) : walk child r (p ++ [i]) = child f i := by
  rw [walk_append, hf, Option.bind_some, walk_cons]
  cases child f i <;> rfl

theorem walk_singleton (r : F) (i : I) : walk child r [i] = child r i :=
  walk_concat (p := []) rfl

/-- A walk that leads nowhere ends at an empty slot. -/
theorem walk_eq_none (h : walk child r q = none) :
    ∃ p j q' g, q = p ++ j :: q' ∧ walk child r p = some g ∧ child g j = none := by
  induction q generalizing r with
  | nil => cases h
  | cons i q ih =>
    cases hc : child r i with
    | none => exact ⟨[], i, q, r, rfl, rfl, hc⟩
    | some c =>
      rw [walk_cons, hc] at h
      obtain ⟨p, j, q', g, rfl, hg, hslot⟩ := ih h
      refine ⟨i :: p, j, q', g, rfl, ?_, hslot⟩
      rw [walk_cons, hc]
      exact hg

theorem PrefixClosed.below (hE : PrefixClosed E) (hq : E q) : Below E q := by
  rintro p j q' rfl
  exact hE p (j :: q') hq

theorem PrefixClosed.below_concat (hE : PrefixClosed E) (hp : E p) : Below E (p ++ [i]) := by
  intro p' j q' heq
  rcases List.eq_nil_or_concat q' with rfl | ⟨k, z, rfl⟩
  · obtain ⟨rfl, -⟩ := List.append_inj' heq rfl
    exact hp
  · have heq' : p ++ [i] = (p' ++ j :: k) ++ [z] := by simpa using heq
    obtain ⟨rfl, -⟩ := List.append_inj' heq' rfl
    exact hE p' (j :: k) hp

theorem missing_cons : missing child r (i :: q) =
    (child r i).elim (q.length + 1) fun c => missing child c q := by
  cases h : child r i <;> simp [missing, h]

theorem missing_of_empty (h : ∀ j, child c j = none) (q : List I) :
    missing child c q = q.length := by
  cases q with
  | nil => rfl
  | cons j q => rw [missing_cons, h j]; rfl

theorem missing_le_length (r : F) (q : List I) : missing child r q ≤ q.length := by
  induction q generalizing r with
  | nil => exact Nat.le_refl _
  | cons i q ih =>
    rw [missing_cons]
    cases child r i with
    | none => exact Nat.le_refl _
    | some c => exact (ih c).trans (Nat.le_succ _)

/-- On a path that leads somewhere no table is missing. -/
theorem missing_of_walk (h : walk child r q = some c) : missing child r q = 0 := by
  induction q generalizing r with
  | nil => rfl
  | cons j q ih =>
    rw [walk_cons] at h
    rw [missing_cons]
    cases hslot : child r j with
    | none =>
      rw [hslot] at h
      cases h
    | some t =>
      rw [hslot] at h
      exact ih h

/-- Where the prefixes of a path lead the same way, as many tables are missing. -/
theorem missing_congr (h : ∀ p, p <+: q → walk child' r p = walk child r p) :
    missing child' r q = missing child r q := by
  induction q generalizing r with
  | nil => rfl
  | cons i q ih =>
    have hfirst := h [i] ⟨q, rfl⟩
    rw [walk_singleton, walk_singleton] at hfirst
    rw [missing_cons, missing_cons, hfirst]
    cases hc : child r i with
    | none => rfl
    | some c =>
      apply ih
      rintro p ⟨p', hp⟩
      have hnext := h (i :: p) ⟨p', by rw [List.cons_append, hp]⟩
      rw [walk_cons, walk_cons, hfirst, hc] at hnext
      exact hnext

/-- Behind a path that leads somewhere. -/
theorem missing_append (h : walk child r p = some c) (q : List I) :
    missing child r (p ++ q) = missing child c q := by
  induction p generalizing r with
  | nil =>
    obtain rfl := Option.some.inj h
    rfl
  | cons i p ih =>
    rw [walk_cons] at h
    rcases Option.bind_eq_some_iff.mp h with ⟨t, ht, hrest⟩
    rw [List.cons_append, missing_cons, ht]
    exact ih hrest

/-- How many slots of `q` there are from the first one on in which it differs from `p`. -/
def apart [DecidableEq I] : List I → List I → Nat
  | _, [] => 0
  | [], _ :: q => q.length + 1
  | i :: p, j :: q => if i = j then apart p q else q.length + 1

theorem apart_split [DecidableEq I] (p q : List I) : ∃ l q', q = l ++ q' ∧ l <+: p ∧
    apart p q = q'.length ∧ ∀ j q'', q' = j :: q'' → ¬ l ++ [j] <+: p := by
  induction q generalizing p with
  | nil =>
    cases p with
    | nil => exact ⟨[], [], rfl, List.prefix_refl _, rfl, fun _ _ h => nomatch h⟩
    | cons i p => exact ⟨[], [], rfl, List.nil_prefix, rfl, fun _ _ h => nomatch h⟩
  | cons j q ih =>
    cases p with
    | nil =>
      refine ⟨[], j :: q, rfl, List.prefix_refl _, rfl, fun _ _ _ hpre => ?_⟩
      cases List.prefix_nil.mp hpre
    | cons i p =>
      by_cases hij : i = j
      · subst hij
        rcases ih p with ⟨l, q', rfl, hl, hlen, hnext⟩
        refine ⟨i :: l, q', rfl, List.cons_prefix_cons.mpr ⟨rfl, hl⟩, ?_, ?_⟩
        · rw [apart, if_pos rfl, hlen]
        · intro k q'' hq' hpre
          exact hnext k q'' hq' (List.cons_prefix_cons.mp hpre).2
      · refine ⟨[], j :: q, rfl, List.nil_prefix, ?_, ?_⟩
        · rw [apart, if_neg hij, List.length_cons]
        · intro k q'' hq' hpre
          obtain rfl := (List.cons.inj hq').1
          exact hij (List.cons_prefix_cons.mp hpre).1.symm

/-- The path `p` was made and no other changed: what is missing on a path that has nothing but its
beginning in common with `p` is what is behind it. -/
theorem missing_of_made [DecidableEq I] (hmade : walk child' r p = some c)
    (hkept : ∀ l, l <+: q → ¬ l <+: p → walk child' r l = walk child r l)
    (hapart : apart p q ≤ missing child r q) : missing child' r q = apart p q := by
  rcases apart_split p q with ⟨l, q', rfl, ⟨p', rfl⟩, hlen, hnext⟩
  rw [walk_append] at hmade
  rcases Option.bind_eq_some_iff.mp hmade with ⟨g, hg, -⟩
  rw [missing_append hg, hlen]
  cases q' with
  | nil => rfl
  | cons j q'' =>
    have hbehind : l ++ [j] <+: l ++ j :: q'' := ⟨q'', by simp⟩
    have hsame := hkept _ hbehind (hnext j q'' rfl)
    rw [walk_concat hg] at hsame
    cases hold : walk child r (l ++ [j]) with
    | none =>
      rw [missing_cons, hsame, hold]
      rfl
    | some t =>
      -- the next slot was filled before, so less is missing
      have hless : missing child t q'' ≤ q''.length := missing_le_length t q''
      rw [hlen, List.append_cons, missing_append hold, List.length_cons] at hapart
      omega

/-! ## Following a path in a changed tree -/

/-- Only the slots on the path matter. -/
theorem walk_congr
    (h : ∀ p j q' g, q = p ++ j :: q' → walk child r p = some g → child' g j = child g j) :
    walk child' r q = walk child r q := by
  induction q generalizing r with
  | nil => rfl
  | cons i q ih =>
    have hfirst : child' r i = child r i := h [] i q r rfl rfl
    rw [walk_cons, walk_cons, hfirst]
    cases hc : child r i with
    | none => rfl
    | some c =>
      refine ih fun p j q' g hq hg => h (i :: p) j q' g (by rw [hq]; rfl) ?_
      rw [walk_cons, hc]
      exact hg

/-- Two trees that agree on a set of tables closed under links. -/
theorem walk_congr_on {P : F → Prop} (hr : P r)
    (hclosed : ∀ g j c, P g → child g j = some c → P c)
    (heq : ∀ g j, P g → child' g j = child g j) : walk child' r q = walk child r q := by
  induction q generalizing r with
  | nil => rfl
  | cons i q ih =>
    rw [walk_cons, walk_cons, heq r i hr]
    cases hc : child r i with
    | none => rfl
    | some c => exact ih (hclosed r i c hr hc)

/-- Trees stay trees when a table that is in none of them is hung in. -/
theorem distinct_insert [DecidableEq K] [DecidableEq I] (hdist : Distinct child root D)
    (hc : Fresh child root D c)
    (hwalk : ∀ k q, D k q →
      walk child' (root k) q = if k = k₀ ∧ q = p then some c else walk child (root k) q) :
    Distinct child' root D := by
  intro k q k' q' g hq hq' hg hg'
  rw [hwalk k q hq] at hg
  rw [hwalk k' q' hq'] at hg'
  by_cases h : k = k₀ ∧ q = p <;> by_cases h' : k' = k₀ ∧ q' = p
  · exact ⟨h.1.trans h'.1.symm, h.2.trans h'.2.symm⟩
  · rw [if_pos h] at hg
    rw [if_neg h', ← hg] at hg'
    exact absurd hg' (hc k' q' hq')
  · rw [if_pos h'] at hg'
    rw [if_neg h, ← hg'] at hg
    exact absurd hg (hc k q hq)
  · rw [if_neg h] at hg
    rw [if_neg h'] at hg'
    exact hdist k q k' q' g hq hq' hg hg'

section Updates

variable [DecidableEq F] [DecidableEq I]

/-- Store `v` in slot `i` of table `f`. -/
def set (child : F → I → Option F) (f : F) (i : I) (v : Option F) : F → I → Option F :=
  fun g j => if g = f ∧ j = i then v else child g j

@[simp] theorem set_self (v : Option F) : set child f i v f i = v := by
  simp [set]

/-- A store into the table at path `p` of tree `k₀` is seen only through its
own slot. -/
theorem walk_set_elsewhere (hdist : Distinct child root D) (hp : D k₀ p)
    (hf : walk child (root k₀) p = some f) (hq : Below (D k) q)
    (hn : ¬ (k = k₀ ∧ p ++ [i] <+: q)) (v : Option F) :
    walk (set child f i v) (root k) q = walk child (root k) q := by
  refine walk_congr fun p' j q' g heq hg => ?_
  by_cases hhit : g = f ∧ j = i
  · obtain ⟨rfl, rfl⟩ := hhit
    obtain ⟨rfl, rfl⟩ := hdist k p' k₀ p g (hq p' j q' heq) hp hg hf
    exact absurd ⟨rfl, q', by rw [heq]; simp⟩ hn
  · simp [set, hhit]

/-- The path through the slot that was stored into. -/
theorem walk_set_self (hD : PrefixClosed (D k₀)) (hdist : Distinct child root D) (hp : D k₀ p)
    (hf : walk child (root k₀) p = some f) (v : Option F) :
    walk (set child f i v) (root k₀) (p ++ [i]) = v := by
  have hn : ¬ (k₀ = k₀ ∧ p ++ [i] <+: p) := by
    rintro ⟨-, h⟩
    have := h.length_le
    simp only [List.length_append, List.length_singleton] at this
    omega
  have hp' : walk (set child f i v) (root k₀) p = some f := by
    rw [walk_set_elsewhere hdist hp hf (hD.below hp) hn, hf]
  rw [walk_concat hp', set_self]

variable [DecidableEq K]

/-- A store at the last level, below which `D` has no paths. -/
theorem walk_set_leaf (hD : PrefixClosed (D k₀)) (hdist : Distinct child root D) (hp : D k₀ p)
    (hf : walk child (root k₀) p = some f) (hleaf : ¬ D k₀ (p ++ [i])) (hq : Below (D k) q)
    (v : Option F) :
    walk (set child f i v) (root k) q =
      if k = k₀ ∧ q = p ++ [i] then v else walk child (root k) q := by
  by_cases hpre : k = k₀ ∧ p ++ [i] <+: q
  · obtain ⟨rfl, rest, rfl⟩ := hpre
    cases rest with
    | nil => rw [List.append_nil, if_pos ⟨rfl, rfl⟩, walk_set_self hD hdist hp hf]
    | cons j rest => exact absurd (hq (p ++ [i]) j rest rfl) hleaf
  · have hne : ¬ (k = k₀ ∧ q = p ++ [i]) := fun he => hpre ⟨he.1, he.2 ▸ List.prefix_refl q⟩
    rw [if_neg hne, walk_set_elsewhere hdist hp hf hq hpre]

/-- Hanging an empty table `c` that is in no tree into an empty slot. -/
theorem walk_insert (hD : PrefixClosed (D k₀)) (hdist : Distinct child root D) (hp : D k₀ p)
    (hf : walk child (root k₀) p = some f) (hslot : child f i = none)
    (hc : Fresh child root D c) (hempty : ∀ j, child c j = none) (hq : Below (D k) q) :
    walk (set child f i (some c)) (root k) q =
      if k = k₀ ∧ q = p ++ [i] then some c else walk child (root k) q := by
  by_cases hpre : k = k₀ ∧ p ++ [i] <+: q
  · obtain ⟨rfl, rest, rfl⟩ := hpre
    cases rest with
    | nil => rw [List.append_nil, if_pos ⟨rfl, rfl⟩, walk_set_self hD hdist hp hf]
    | cons j rest =>
      have hcf : c ≠ f := fun he => hc k p hp (he ▸ hf)
      have hne : ¬ (k = k ∧ p ++ [i] ++ j :: rest = p ++ [i]) := by simp
      -- nothing hangs below the new table, and nothing hung there before
      rw [if_neg hne, walk_append (p ++ [i]), walk_append (p ++ [i]),
        walk_set_self hD hdist hp hf, walk_concat hf, hslot, Option.bind_some, Option.bind_none,
        walk_cons]
      simp [set, hcf, hempty]
  · have hne : ¬ (k = k₀ ∧ q = p ++ [i]) := fun he => hpre ⟨he.1, he.2 ▸ List.prefix_refl q⟩
    rw [if_neg hne, walk_set_elsewhere hdist hp hf hq hpre]

end Updates

end Radix
