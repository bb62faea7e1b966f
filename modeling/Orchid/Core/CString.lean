import Mathlib.Data.List.Basic

/-! # C strings

A string is a run of nonzero bytes that a zero ends. What lies behind the zero
is arbitrary, and a loop over a string is right only if it stops there.
-/

/-- The bytes from index `j` on spell the characters `t`. -/
def Spells (a : Nat → UInt8) (j : Nat) : List UInt8 → Prop
  | [] => a j = 0
  | c :: t => c ≠ 0 ∧ a j = c ∧ Spells a (j + 1) t

/-- A string in memory. -/
structure CString where
  byte : Nat → UInt8
  text : List UInt8
  spells : Spells byte 0 text

/-- A character constant. -/
def ascii (c : Char) : UInt8 := UInt8.ofNat c.toNat

/-- A list without zeros, with zeros behind it. -/
theorem spells_getD (u v : List UInt8) (hv : ∀ c ∈ v, c ≠ 0) :
    Spells (fun i => (u ++ v).getD i 0) u.length v := by
  induction v generalizing u with
  | nil => simp [Spells]
  | cons c v ih =>
    rw [List.forall_mem_cons] at hv
    refine ⟨hv.1, by simp, ?_⟩
    have hrest := ih (u ++ [c]) hv.2
    rwa [List.append_assoc, List.singleton_append, List.length_append,
      List.length_singleton] at hrest

/-- A string constant. -/
def CString.ofList (t : List UInt8) (h : ∀ c ∈ t, c ≠ 0) : CString where
  byte i := t.getD i 0
  text := t
  spells := spells_getD [] t h

/-- The condition of `CString.ofList`, as a test. -/
theorem ne_zero_of_all {t : List UInt8} (h : t.all (· != 0) = true) : ∀ c ∈ t, c ≠ 0 := by
  intro c hc
  rw [List.all_eq_true] at h
  exact bne_iff_ne.mp (h c hc)

section Strings

variable {a b : Nat → UInt8} {j : Nat} {t u : List UInt8}

theorem Spells.congr (h : Spells a j t) (hb : ∀ i, j ≤ i → i ≤ j + t.length → b i = a i) :
    Spells b j t := by
  induction t generalizing j with
  | nil =>
    have hj := hb j (Nat.le_refl j) (Nat.le_add_right j _)
    exact hj.trans h
  | cons c t ih =>
    rw [List.length_cons] at hb
    refine ⟨h.1, ?_, ih h.2.2 ?_⟩
    · rw [hb j (Nat.le_refl j) (by omega)]
      exact h.2.1
    · intro i hlo hhi
      exact hb i (by omega) (by omega)

theorem Spells.terminated (h : Spells a j t) : a (j + t.length) = 0 := by
  induction t generalizing j with
  | nil => exact h
  | cons c t ih =>
    have hrest := ih h.2.2
    rwa [show j + 1 + t.length = j + (c :: t).length by rw [List.length_cons]; omega] at hrest

/-- A string as it is seen from the byte before it. -/
theorem Spells.shift (h : Spells (fun k => a (k + 1)) j t) : Spells a (j + 1) t := by
  induction t generalizing j with
  | nil => exact h
  | cons c t ih => exact ⟨h.1, h.2.1, ih h.2.2⟩

/-- The first characters, if a zero follows them. -/
theorem Spells.take {n : Nat} (h : Spells a j t) (hb : ∀ i, j ≤ i → i < j + min n t.length → b i = a i)
    (hend : b (j + min n t.length) = 0) : Spells b j (t.take n) := by
  induction t generalizing j n with
  | nil => simpa [Spells] using hend
  | cons c t ih =>
    cases n with
    | zero => simpa [Spells] using hend
    | succ n =>
      have hmin : min (n + 1) (c :: t).length = min n t.length + 1 := by
        rw [List.length_cons]
        omega
      rw [hmin] at hb hend
      refine ⟨h.1, ?_, ih h.2.2 ?_ ?_⟩
      · rw [hb j (Nat.le_refl j) (by omega)]
        exact h.2.1
      · intro i hlo hhi
        exact hb i (by omega) (by omega)
      · rwa [show j + 1 + min n t.length = j + (min n t.length + 1) by omega]

/-- Collect the characters from index `j` on, if the string ends within `fuel` bytes. -/
def readString (a : Nat → UInt8) : Nat → Nat → Option (List UInt8)
  | 0, _ => none
  | fuel + 1, j =>
    if a j = 0 then some []
    else (readString a fuel (j + 1)).map (a j :: ·)

theorem readString_of_spells {fuel : Nat} (h : Spells a j t) (hfuel : t.length < fuel) :
    readString a fuel j = some t := by
  induction t generalizing j fuel with
  | nil =>
    rcases Nat.exists_eq_succ_of_ne_zero (Nat.ne_of_gt hfuel) with ⟨fuel, rfl⟩
    have haj : a j = 0 := h
    simp [readString, haj]
  | cons c t ih =>
    rcases Nat.exists_eq_succ_of_ne_zero (Nat.ne_of_gt (Nat.zero_lt_of_lt hfuel)) with ⟨fuel, rfl⟩
    rw [List.length_cons] at hfuel
    have hrest : t.length < fuel := by omega
    simp [readString, h.2.1, h.1, ih h.2.2 hrest]

/-- Go through two strings from index `j` on until they differ or both have
ended: whether they are the same, and the last index that was looked at. -/
def compareStrings (a b : Nat → UInt8) : Nat → Nat → Option (Bool × Nat)
  | 0, _ => none
  | fuel + 1, j =>
    if a j = 0 ∧ b j = 0 then some (true, j)
    else if a j ≠ b j then some (false, j)
    else compareStrings a b fuel (j + 1)

/-- The comparison stays within the shorter of the two. -/
theorem compareStrings_spec {fuel : Nat} (ha : Spells a j t) (hb : Spells b j u)
    (hfuel : u.length < fuel) :
    ∃ last ≤ j + u.length, compareStrings a b fuel j = some (decide (t = u), last) := by
  induction u generalizing j t fuel with
  | nil =>
    rcases Nat.exists_eq_succ_of_ne_zero (Nat.ne_of_gt hfuel) with ⟨fuel, rfl⟩
    have hbj : b j = 0 := hb
    refine ⟨j, Nat.le_add_right j _, ?_⟩
    cases t with
    | nil =>
      have haj : a j = 0 := ha
      simp [compareStrings, haj, hbj]
    | cons c t => simp [compareStrings, ha.2.1, ha.1, hbj]
  | cons d u ih =>
    rcases Nat.exists_eq_succ_of_ne_zero (Nat.ne_of_gt (Nat.zero_lt_of_lt hfuel)) with ⟨fuel, rfl⟩
    rw [List.length_cons] at hfuel ⊢
    cases t with
    | nil =>
      have haj : a j = 0 := ha
      refine ⟨j, Nat.le_add_right j _, ?_⟩
      simp [compareStrings, haj, hb.2.1, hb.1, Ne.symm hb.1]
    | cons c t =>
      by_cases hcd : c = d
      · have hrest : u.length < fuel := by omega
        rcases ih ha.2.2 hb.2.2 hrest with ⟨last, hlast, hcompare⟩
        refine ⟨last, by omega, ?_⟩
        simp [compareStrings, ha.2.1, hb.2.1, hcd, hb.1, hcompare]
      · refine ⟨j, Nat.le_add_right j _, ?_⟩
        simp [compareStrings, ha.2.1, hb.2.1, ha.1, hcd]

end Strings
