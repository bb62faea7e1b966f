import Mathlib.Data.List.Intervals
import Mathlib.Data.List.Nodup
import Mathlib.Data.List.Perm.Subperm
import Mathlib.Data.Set.BooleanAlgebra
import Mathlib.Order.CompletePartialOrder
import Mathlib.Order.Interval.Set.Basic
import Orchid.Core.Bits
import Orchid.Core.Rules

/-! # The physical memory manager

A model of `kernel/pmm.c`. The array `free_stack` with its index `free_top` is
a list, the top of the stack first; `free_top` is its length.

* `pmmInit` pushes the pages of the usable entries of the memory map, region
  by region, until the stack is full.
* `frames_conserved`: whatever is allocated and freed afterwards, the stack and
  the pages handed out are a partition of the pages `pmmInit` found.
-/

namespace Orchid

/-- `PAGE_SIZE`. -/
def pageSize : Nat := 4096

/-- `MAX_FREE_LIST`. -/
def maxFreeList : Nat := 300000

/-- `LIMINE_MEMMAP_USABLE`. -/
def limineMemmapUsable : Nat := 0

/-- `struct limine_memmap_entry`. -/
structure MemmapEntry where
  base : Nat
  length : Nat
  type : Nat
  deriving DecidableEq, Repr

/-- `x & ~(PAGE_SIZE - 1)` on 64 bits. -/
def pageFloor (x : Nat) : Nat := x &&& (2 ^ 64 - 2 ^ 12)

/-- The loop of `pmm_init` over one region. Both bounds are page multiples, so
`base += PAGE_SIZE` does not wrap. -/
def pushPages (base last : Nat) (stack : List Nat) : List Nat :=
  if base < last then
    if stack.length < maxFreeList then
      pushPages (base + pageSize) last (base :: stack)
    else
      stack
  else
    stack
termination_by last - base
decreasing_by simp only [pageSize]; omega

/-- One iteration of `pmm_init` over the memory map. -/
def pmmInitEntry (stack : List Nat) (e : MemmapEntry) : List Nat :=
  if e.type ≠ limineMemmapUsable then
    stack
  else
    pushPages (pageFloor ((e.base + (pageSize - 1)) % 2 ^ 64))
      (pageFloor ((e.base + e.length) % 2 ^ 64)) stack

/-- `pmm_init`; `none` when Limine gave no memory map. -/
def pmmInit (memmap : Option (List MemmapEntry)) (stack : List Nat) : List Nat :=
  match memmap with
  | none => stack
  | some entries => entries.foldl pmmInitEntry stack

/-- `pmm_alloc_page`. -/
def pmmAllocPage : List Nat → Nat × List Nat
  | [] => (0, [])
  | page :: rest => (page, rest)

/-- `pmm_free_page`. -/
def pmmFreePage (page : Nat) (stack : List Nat) : List Nat :=
  if stack.length < maxFreeList then page :: stack else stack

/-! ## The pages of a memory map -/

/-- The aligned pages that lie wholly inside a region, in ascending order. -/
def wholePages (e : MemmapEntry) : List Nat :=
  (List.Ico ((e.base + 4095) / 4096) ((e.base + e.length) / 4096)).map (· * 4096)

/-- The pages of the usable regions, in the order of the memory map. -/
def usablePages (entries : List MemmapEntry) : List Nat :=
  (entries.filter (·.type = limineMemmapUsable)).flatMap wholePages

/-- The pages the free stack has room for. -/
def firstPages (entries : List MemmapEntry) : List Nat :=
  (usablePages entries).take maxFreeList

theorem mem_wholePages {e : MemmapEntry} {p : Nat} :
    p ∈ wholePages e ↔ p % 4096 = 0 ∧ e.base ≤ p ∧ p + 4096 ≤ e.base + e.length := by
  simp only [wholePages, List.mem_map, List.Ico.mem]
  constructor
  · rintro ⟨k, hk, rfl⟩
    omega
  · rintro ⟨hp, hlo, hhi⟩
    exact ⟨p / 4096, by omega, by omega⟩

theorem wholePages_nodup (e : MemmapEntry) : (wholePages e).Nodup := by
  apply List.Nodup.map _ (List.Ico.nodup _ _)
  intro a b hab
  simp only at hab
  omega

/-! ## What `pmm_init` leaves -/

theorem pageFloor_of_lt {x : Nat} (hx : x < 2 ^ 64) : pageFloor x = x / 4096 * 4096 :=
  Bits.and_clear_low (by decide) hx

/-- The loop pushes the pages of the region as long as there is room. -/
theorem pushPages_eq (a b : Nat) (stack : List Nat) :
    pushPages (a * 4096) (b * 4096) stack =
      (((List.Ico a b).map (· * 4096)).take (maxFreeList - stack.length)).reverse ++ stack := by
  induction hn : b - a generalizing a stack with
  | zero =>
    have hle : b ≤ a := by omega
    have hlt : ¬ a * 4096 < b * 4096 := by omega
    rw [pushPages, if_neg hlt, List.Ico.eq_nil_of_le hle]
    simp
  | succ n ih =>
    have hab : a < b := by omega
    have hlt : a * 4096 < b * 4096 := by omega
    rw [pushPages, if_pos hlt, List.Ico.eq_cons hab, List.map_cons]
    by_cases hroom : stack.length < maxFreeList
    · obtain ⟨k, hk⟩ : ∃ k, maxFreeList - stack.length = k + 1 :=
        ⟨maxFreeList - stack.length - 1, by omega⟩
      have hk' : maxFreeList - (a * 4096 :: stack).length = k := by
        rw [List.length_cons]; omega
      rw [if_pos hroom, show a * 4096 + pageSize = (a + 1) * 4096 by simp only [pageSize]; omega,
        ih (a + 1) _ (by omega), hk', hk, List.take_succ_cons, List.reverse_cons,
        List.append_assoc, List.singleton_append]
    · -- the stack is full: the rest of the region is lost
      rw [if_neg hroom, show maxFreeList - stack.length = 0 by omega]
      simp

/-- Neither sum that `pmm_init` forms from an entry overflows. -/
def MemmapEntry.NoOverflow (e : MemmapEntry) : Prop :=
  e.base + 4095 < 2 ^ 64 ∧ e.base + e.length < 2 ^ 64

theorem pmmInitEntry_eq {e : MemmapEntry} (he : e.type = limineMemmapUsable → e.NoOverflow)
    (stack : List Nat) :
    pmmInitEntry stack e =
      ((usablePages [e]).take (maxFreeList - stack.length)).reverse ++ stack := by
  by_cases hu : e.type = limineMemmapUsable
  · obtain ⟨hup, hdown⟩ := he hu
    have hne : ¬ e.type ≠ limineMemmapUsable := fun h => h hu
    rw [pmmInitEntry, if_neg hne, show pageSize - 1 = 4095 from rfl, Nat.mod_eq_of_lt hup,
      Nat.mod_eq_of_lt hdown, pageFloor_of_lt hup, pageFloor_of_lt hdown, pushPages_eq]
    simp [usablePages, wholePages, hu]
  · rw [pmmInitEntry, if_pos hu]
    simp [usablePages, hu]

/-- The free stack after `pmm_init` holds the first pages of the map, the last
one found on top. -/
theorem pmmInit_eq {entries : List MemmapEntry}
    (hov : ∀ e ∈ entries, e.type = limineMemmapUsable → e.NoOverflow) :
    pmmInit (some entries) [] = (firstPages entries).reverse := by
  suffices h : ∀ stack, entries.foldl pmmInitEntry stack =
      ((usablePages entries).take (maxFreeList - stack.length)).reverse ++ stack by
    simpa [pmmInit, firstPages] using h []
  induction entries with
  | nil => simp [usablePages]
  | cons e entries ih =>
    intro stack
    rw [List.foldl_cons, ih (fun e' he' => hov e' (List.mem_cons_of_mem e he')),
      pmmInitEntry_eq (hov e (by simp))]
    have hsplit : usablePages (e :: entries) = usablePages [e] ++ usablePages entries := by
      simp only [usablePages, ← List.flatMap_append, ← List.filter_append, List.singleton_append]
    rw [hsplit, List.take_append, List.reverse_append, List.append_assoc]
    congr 3
    simp only [List.length_append, List.length_reverse, List.length_take]
    omega

/-- No page occurs twice among the usable pages. -/
theorem usablePages_nodup {entries : List MemmapEntry}
    (hdisj : entries.Pairwise fun e e' =>
      e.type = limineMemmapUsable → e'.type = limineMemmapUsable →
        Disjoint (Set.Ico e.base (e.base + e.length)) (Set.Ico e'.base (e'.base + e'.length))) :
    (usablePages entries).Nodup := by
  rw [usablePages, List.nodup_flatMap]
  refine ⟨fun e _ => wholePages_nodup e, ?_⟩
  rw [List.pairwise_filter]
  refine hdisj.imp ?_
  intro e e' h hu hu' p hp hp'
  simp only [decide_eq_true_eq] at hu hu'
  rw [mem_wholePages] at hp hp'
  have hin : p ∈ Set.Ico e.base (e.base + e.length) := ⟨hp.2.1, by omega⟩
  have hin' : p ∈ Set.Ico e'.base (e'.base + e'.length) := ⟨hp'.2.1, by omega⟩
  exact Set.disjoint_left.mp (h hu hu') hin hin'

/-! ## Allocation and release over whole runs -/

/-- The free stack and the pages handed out and not freed since. -/
structure PmmState where
  free : List Nat
  outstanding : List Nat

/-- After `pmm_init`, with nothing handed out. -/
def PmmState.Init (entries : List MemmapEntry) (s : PmmState) : Prop :=
  s = ⟨pmmInit (some entries) [], []⟩

/-- `pmm_alloc_page`, or `pmm_free_page` of a page that is out. -/
inductive PmmState.Next : PmmState → PmmState → Prop where
  | alloc {s : PmmState} {page : Nat} {rest : List Nat} :
      pmmAllocPage s.free = (page, rest) →
      Next s ⟨rest, if page = 0 then s.outstanding else page :: s.outstanding⟩
  | free {s : PmmState} {page : Nat} : page ∈ s.outstanding →
      Next s ⟨pmmFreePage page s.free, s.outstanding.erase page⟩

namespace PmmState

variable {entries : List MemmapEntry} {s s' : PmmState}

/-- Free pages and pages out are, together, the pages of the map. -/
def Inv (entries : List MemmapEntry) (s : PmmState) : Prop :=
  (s.free ++ s.outstanding).Perm (firstPages entries)

theorem Inv.length_le (h : Inv entries s) :
    s.free.length + s.outstanding.length ≤ maxFreeList := by
  have hlen := List.Perm.length_eq h
  rw [List.length_append] at hlen
  rw [hlen, firstPages, List.length_take]
  omega

/-- A page that is out always finds room on the stack. -/
theorem Inv.pmmFreePage_eq {page : Nat} (h : Inv entries s) (hp : page ∈ s.outstanding) :
    pmmFreePage page s.free = page :: s.free := by
  have hle := h.length_le
  have hpos : 0 < s.outstanding.length := List.length_pos_of_mem hp
  rw [pmmFreePage, if_pos (by omega)]

theorem inv_step (hnz : 0 ∉ firstPages entries) (hnext : Next s s') (h : Inv entries s) :
    Inv entries s' := by
  cases hnext with
  | @alloc page rest hret =>
    cases hf : s.free with
    | nil =>
      rw [hf] at hret
      simp only [pmmAllocPage, Prod.mk.injEq] at hret
      obtain ⟨rfl, rfl⟩ := hret
      simpa [Inv, hf] using h
    | cons top below =>
      rw [hf] at hret
      simp only [pmmAllocPage, Prod.mk.injEq] at hret
      obtain ⟨rfl, rfl⟩ := hret
      have htop : top ≠ 0 := by
        rintro rfl
        exact hnz (List.Perm.subset h (by simp [hf]))
      simp only [Inv, if_neg htop]
      refine List.Perm.trans ?_ h
      rw [hf]
      exact List.perm_middle
  | @free page hp =>
    rw [Inv, h.pmmFreePage_eq hp]
    have hmid : (s.free ++ page :: s.outstanding.erase page).Perm
        (page :: (s.free ++ s.outstanding.erase page)) := List.perm_middle
    have hback : (s.free ++ page :: s.outstanding.erase page).Perm (s.free ++ s.outstanding) :=
      List.Perm.append_left s.free (List.perm_cons_erase hp).symm
    exact hmid.symm.trans (hback.trans h)

/-- Frames are conserved. Free stack and outstanding pages are disjoint and
free of duplicates and make up exactly the first `maxFreeList` usable pages;
every freed page goes back on the stack; and an allocation fails only when all
pages are out. -/
theorem frames_conserved
    (hov : ∀ e ∈ entries, e.type = limineMemmapUsable → e.NoOverflow)
    (hdisj : entries.Pairwise fun e e' =>
      e.type = limineMemmapUsable → e'.type = limineMemmapUsable →
        Disjoint (Set.Ico e.base (e.base + e.length)) (Set.Ico e'.base (e'.base + e'.length)))
    (hzero : ∀ e ∈ entries, e.type = limineMemmapUsable → 0 ∉ wholePages e)
    (h : Machine.Reachable (Init entries) Next s) :
    s.free.Nodup ∧ s.outstanding.Nodup ∧ List.Disjoint s.free s.outstanding ∧
    (∀ p, p ∈ s.free ∨ p ∈ s.outstanding ↔ p ∈ firstPages entries) ∧
    s.free.length ≤ maxFreeList ∧
    (∀ p ∈ s.outstanding, pmmFreePage p s.free = p :: s.free) ∧
    ((pmmAllocPage s.free).1 = 0 ↔ ∀ p ∈ firstPages entries, p ∈ s.outstanding) := by
  have hnd : (firstPages entries).Nodup :=
    (usablePages_nodup hdisj).sublist (List.take_sublist _ _)
  have hnz : 0 ∉ firstPages entries := by
    intro h0
    have hmem := List.mem_of_mem_take h0
    simp only [usablePages, List.mem_flatMap, List.mem_filter, decide_eq_true_eq] at hmem
    obtain ⟨e, ⟨he, hu⟩, hp⟩ := hmem
    exact hzero e he hu hp
  have hinv : Inv entries s := by
    refine h.invariant ?_ fun _ _ => inv_step hnz
    rintro _ rfl
    rw [Inv, pmmInit_eq hov, List.append_nil]
    exact List.reverse_perm _
  have hnd' : (s.free ++ s.outstanding).Nodup := (List.Perm.nodup_iff hinv).mpr hnd
  rw [List.nodup_append] at hnd'
  have hmem : ∀ p, p ∈ s.free ∨ p ∈ s.outstanding ↔ p ∈ firstPages entries := by
    intro p
    rw [← List.mem_append]
    exact List.Perm.mem_iff hinv
  have hdis : List.Disjoint s.free s.outstanding := fun p hp hp' => hnd'.2.2 p hp p hp' rfl
  refine ⟨hnd'.1, hnd'.2.1, hdis, hmem, ?_, fun p hp => hinv.pmmFreePage_eq hp, ?_⟩
  · have := hinv.length_le
    omega
  · cases hf : s.free with
    | nil =>
      simp only [pmmAllocPage, true_iff]
      intro p hp
      have := (hmem p).mpr hp
      rw [hf] at this
      simpa using this
    | cons top below =>
      have htop : top ∈ firstPages entries := (hmem top).mp (by simp [hf])
      simp only [pmmAllocPage]
      constructor
      · rintro rfl
        exact absurd htop hnz
      · intro hall
        exact absurd (hall top htop) (hdis (by simp [hf]))

/-- Two usable regions, the first one with ragged ends, around a reserved one. -/
def raggedMap : List MemmapEntry :=
  [⟨0x1800, 0x2900, 0⟩, ⟨0x100000, 0x5000, 1⟩, ⟨0x200000, 0x2000, 0⟩]

theorem frames_conserved_raggedMap :
    List.Disjoint [0x200000, 0x3000, 0x2000] [0x201000] ∧
    ∀ p, p ∈ [0x200000, 0x3000, 0x2000] ∨ p ∈ [0x201000] ↔ p ∈ firstPages raggedMap := by
  have hov : ∀ e ∈ raggedMap, e.type = limineMemmapUsable → e.NoOverflow := by
    simp [raggedMap, MemmapEntry.NoOverflow]
  have hinit : pmmInit (some raggedMap) [] = [0x201000, 0x200000, 0x3000, 0x2000] := by
    rw [pmmInit_eq hov]
    rfl
  have hreach : Machine.Reachable (Init raggedMap) Next
      ⟨[0x200000, 0x3000, 0x2000], [0x201000]⟩ := by
    refine (Machine.Reachable.init (s := ⟨[0x201000, 0x200000, 0x3000, 0x2000], []⟩) ?_).step
      (Next.alloc rfl)
    rw [Init, hinit]
  have h := frames_conserved hov ?_ ?_ hreach
  · exact ⟨h.2.2.1, h.2.2.2.1⟩
  · simp only [raggedMap, List.pairwise_cons, List.mem_cons, List.not_mem_nil, or_false,
      forall_eq_or_imp, forall_eq, limineMemmapUsable]
    refine ⟨⟨by simp, fun _ _ => ?_⟩, ⟨by simp, by simp⟩⟩
    rw [Set.disjoint_left]
    rintro p ⟨_, hp⟩ ⟨hp', _⟩
    omega
  · intro e he _ h0
    rw [mem_wholePages] at h0
    simp only [raggedMap, List.mem_cons, List.not_mem_nil, or_false] at he
    rcases he with rfl | rfl | rfl <;> simp at h0

end PmmState

end Orchid
