import Mathlib.Data.List.Nodup
import Mathlib.Data.List.Perm.Basic

/-! # Ledgers

Items that are opened once, may wait in one of several places, and are closed.
The books are in order when what was opened is what was closed together with
what waits, nothing being opened twice. An item taken from its place is in the
hands of the one who took it, and `Single` says that it is nowhere else.
-/

namespace Ledger

open Function

variable {α : Type*} {n p : Nat} {x : α}

/-- Everything held in the places below `n`. -/
def gather (n : Nat) (f : Nat → List α) : List α := (List.range n).flatMap f

theorem mem_gather {f : Nat → List α} : x ∈ gather n f ↔ ∃ q < n, x ∈ f q := by
  simp [gather]

theorem gather_congr {f g : Nat → List α} (h : ∀ q < n, g q = f q) : gather n g = gather n f := by
  unfold gather
  exact List.flatMap_congr fun q hq => h q (List.mem_range.mp hq)

theorem gather_eq_nil {f : Nat → List α} (h : ∀ q, f q = []) : gather n f = [] :=
  List.flatMap_eq_nil_iff.mpr fun q _ => h q

/-- One place against all the others. -/
theorem gather_split {f g : Nat → List α} (hp : p < n) (h : ∀ q, q ≠ p → g q = f q) :
    ∃ rest, (gather n f).Perm (f p ++ rest) ∧ (gather n g).Perm (g p ++ rest) ∧
      ∀ x, x ∈ rest ↔ ∃ q < n, q ≠ p ∧ x ∈ f q := by
  rcases List.append_of_mem (List.mem_range.mpr hp) with ⟨a, b, hrange⟩
  have hnodup : (a ++ p :: b).Nodup := hrange ▸ List.nodup_range
  have hne : ∀ q ∈ a ++ b, q ≠ p := by
    intro q hq heq
    subst heq
    exact (List.nodup_middle.mp hnodup).notMem hq
  have hplaces : ∀ q, q ∈ a ++ b ↔ q < n ∧ q ≠ p := by
    intro q
    have hq : q < n ↔ q = p ∨ q ∈ a ++ b := by
      rw [← List.mem_range, hrange, List.perm_middle.mem_iff, List.mem_cons]
    constructor
    · intro hmem
      exact ⟨hq.mpr (Or.inr hmem), hne q hmem⟩
    · intro hmem
      exact (hq.mp hmem.1).resolve_left hmem.2
  -- the places before and after `p`, which `g` does not change
  have hsplit : ∀ k : Nat → List α, (gather n k).Perm (k p ++ (a ++ b).flatMap k) := by
    intro k
    unfold gather
    rw [hrange, List.flatMap_append, List.flatMap_cons, List.flatMap_append]
    exact List.perm_append_comm_assoc _ _ _
  refine ⟨(a ++ b).flatMap f, hsplit f, ?_, ?_⟩
  · have hsame : (a ++ b).flatMap g = (a ++ b).flatMap f :=
      List.flatMap_congr fun q hq => h q (hne q hq)
    rw [← hsame]
    exact hsplit g
  · intro x
    simp only [List.mem_flatMap, hplaces, and_assoc]

/-- An item that one place gains, all places together gain. -/
theorem gather_push {f g : Nat → List α} (hp : p < n) (h : ∀ q, q ≠ p → g q = f q)
    (hpush : (g p).Perm (x :: f p)) : (gather n g).Perm (x :: gather n f) := by
  rcases gather_split hp h with ⟨rest, hf, hg, -⟩
  exact hg.trans ((hpush.append_right rest).trans (hf.symm.cons x))

/-- What was opened is what was closed and what waits. -/
structure Books (opened closed waiting : List α) : Prop where
  nodup : opened.Nodup
  perm : opened.Perm (closed ++ waiting)

namespace Books

variable {opened closed waiting waiting' : List α}

/-- A new item waits. -/
theorem post (h : Books opened closed waiting) (hnew : x ∉ opened)
    (hwait : waiting'.Perm (x :: waiting)) : Books (x :: opened) closed waiting' where
  nodup := List.nodup_cons.mpr ⟨hnew, h.nodup⟩
  perm := by
    refine (h.perm.cons x).trans (List.perm_middle.symm.trans ?_)
    exact hwait.symm.append_left closed

/-- An item that waited is closed. -/
theorem settle (h : Books opened closed waiting) (hwait : waiting.Perm (x :: waiting')) :
    Books opened (x :: closed) waiting' where
  nodup := h.nodup
  perm := h.perm.trans ((hwait.append_left closed).trans List.perm_middle)

/-- A new item is closed at once. -/
theorem direct (h : Books opened closed waiting) (hnew : x ∉ opened) :
    Books (x :: opened) (x :: closed) waiting where
  nodup := List.nodup_cons.mpr ⟨hnew, h.nodup⟩
  perm := h.perm.cons x

theorem mem_opened (h : Books opened closed waiting) :
    x ∈ opened ↔ x ∈ closed ∨ x ∈ waiting := by
  rw [h.perm.mem_iff, List.mem_append]

theorem nodup_parts (h : Books opened closed waiting) : (closed ++ waiting).Nodup :=
  h.perm.nodup_iff.mp h.nodup

theorem notMem_closed (h : Books opened closed waiting) (hx : x ∈ waiting) : x ∉ closed :=
  fun hclosed => (List.nodup_append.mp h.nodup_parts).2.2 x hclosed x hx rfl

end Books

/-- Nothing is held twice: an item is in one of the `places` or in the hands of one
holder, and what is held is `live`. -/
structure Single {β : Type*} (live : α → Prop) (places : List α) (hands : β → List α) : Prop where
  places_nodup : places.Nodup
  placed : ∀ x ∈ places, live x
  handed : ∀ y, ∀ x ∈ hands y, live x ∧ x ∉ places
  hands_nodup : ∀ y, (hands y).Nodup
  alone : ∀ y y' x, x ∈ hands y → x ∈ hands y' → y = y'

namespace Single

variable {β : Type*} {live live' : α → Prop} {places places' : List α} {hands : β → List α} {y : β}

/-- A new item goes to a place. -/
theorem add (h : Single live places hands) (hx : ¬ live x) (hx' : live' x)
    (hlive : ∀ z, live z → live' z) (hplaces : places'.Perm (x :: places)) :
    Single live' places' hands where
  places_nodup := by
    rw [hplaces.nodup_iff, List.nodup_cons]
    exact ⟨fun hmem => hx (h.placed x hmem), h.places_nodup⟩
  placed := by
    intro z hz
    rcases List.mem_cons.mp (hplaces.mem_iff.mp hz) with rfl | hz
    · exact hx'
    · exact hlive z (h.placed z hz)
  handed := by
    intro y z hz
    rcases h.handed y z hz with ⟨hz', hout⟩
    refine ⟨hlive z hz', fun hmem => ?_⟩
    rcases List.mem_cons.mp (hplaces.mem_iff.mp hmem) with rfl | hmem
    · exact hx hz'
    · exact hout hmem
  hands_nodup := h.hands_nodup
  alone := h.alone

/-- Items leave their places; what is still held stays live. -/
theorem remove (h : Single live places hands) (hplaces : places'.Sublist places)
    (hlive : ∀ x, live x → (x ∈ places → x ∈ places') → live' x) :
    Single live' places' hands where
  places_nodup := h.places_nodup.sublist hplaces
  placed := fun x hx => hlive x (h.placed x (hplaces.subset hx)) fun _ => hx
  handed := by
    intro y x hx
    rcases h.handed y x hx with ⟨hlive', hout⟩
    exact ⟨hlive x hlive' fun hmem => absurd hmem hout, fun hmem => hout (hplaces.subset hmem)⟩
  hands_nodup := h.hands_nodup
  alone := h.alone

theorem mono (h : Single live places hands) (hlive : ∀ x, live x → live' x) :
    Single live' places hands :=
  h.remove (List.Sublist.refl places) fun x hx _ => hlive x hx

variable [DecidableEq β]

/-- `y` takes an item from its place. -/
theorem take (h : Single live places hands) (hplaces : places.Perm (x :: places')) :
    Single live places' (update hands y (x :: hands y)) := by
  have hnodup := List.nodup_cons.mp (hplaces.nodup_iff.mp h.places_nodup)
  have hx : x ∈ places := hplaces.mem_iff.mpr List.mem_cons_self
  have hsub : ∀ z ∈ places', z ∈ places := fun z hz =>
    hplaces.mem_iff.mpr (List.mem_cons_of_mem x hz)
  -- nobody had it, so it is new in the hands of `y`
  have hnobody : ∀ z, x ∉ hands z := fun z hmem => (h.handed z x hmem).2 hx
  have hin : ∀ z v, v ∈ update hands y (x :: hands y) z → v = x ∧ z = y ∨ v ∈ hands z := by
    intro z v hv
    rw [update_apply] at hv
    split at hv
    · next heq =>
      rcases List.mem_cons.mp hv with hv | hv
      · exact Or.inl ⟨hv, heq⟩
      · exact Or.inr (heq ▸ hv)
    · exact Or.inr hv
  constructor
  · exact hnodup.2
  · exact fun z hz => h.placed z (hsub z hz)
  · intro z v hv
    rcases hin z v hv with ⟨rfl, -⟩ | hv
    · exact ⟨h.placed v hx, hnodup.1⟩
    · exact ⟨(h.handed z v hv).1, fun hmem => (h.handed z v hv).2 (hsub v hmem)⟩
  · intro z
    rw [update_apply]
    split
    · exact List.nodup_cons.mpr ⟨hnobody y, h.hands_nodup y⟩
    · exact h.hands_nodup z
  · intro z z' v hv hv'
    rcases hin z v hv with ⟨rfl, hz⟩ | hold
    · rcases hin z' v hv' with ⟨-, hz'⟩ | hold'
      · rw [hz, hz']
      · exact absurd hold' (hnobody z')
    · rcases hin z' v hv' with ⟨rfl, -⟩ | hold'
      · exact absurd hold (hnobody z)
      · exact h.alone z z' v hold hold'

/-- `y` lets go of an item, and nobody holds it any more. -/
theorem drop {rest : List α} (h : Single live places hands) (hy : hands y = x :: rest)
    (hlive : ∀ z, z ≠ x → live z → live' z) :
    Single live' places (update hands y rest) := by
  have hx : x ∈ hands y := hy ▸ List.mem_cons_self
  have hrest : x ∉ rest ∧ rest.Nodup := List.nodup_cons.mp (hy ▸ h.hands_nodup y)
  have hin : ∀ z v, v ∈ update hands y rest z → v ∈ hands z ∧ v ≠ x := by
    intro z v hv
    rw [update_apply] at hv
    split at hv
    · next heq =>
      rw [heq, hy]
      exact ⟨List.mem_cons_of_mem x hv, fun hvx => hrest.1 (hvx ▸ hv)⟩
    · next hne => exact ⟨hv, fun hvx => hne (h.alone z y x (hvx ▸ hv) hx)⟩
  constructor
  · exact h.places_nodup
  · intro z hz
    exact hlive z (fun hzx => (h.handed y x hx).2 (hzx ▸ hz)) (h.placed z hz)
  · intro z v hv
    rcases hin z v hv with ⟨hold, hne⟩
    exact ⟨hlive v hne (h.handed z v hold).1, (h.handed z v hold).2⟩
  · intro z
    rw [update_apply]
    split
    · exact hrest.2
    · exact h.hands_nodup z
  · intro z z' v hv hv'
    exact h.alone z z' v (hin z v hv).1 (hin z' v hv').1

end Single

end Ledger
