import Orchid.Memory.PageTables

/-! # An address space is a finite map

One address space under any sequence of `vmm_map`, `vmm_map_user` and
`vmm_unmap`. Its tables are the ones at the paths of at most three slots; what
its leaves refer to is not restricted, so a frame may be mapped twice, and a
table may be mapped too.

* `WellFormed` is the forest invariant for a single tree, with 4 KiB leaves.
* `mapAt_walk` and `vmmUnmap_walk` say what one call does to every page.
* `AddressSpace.refines_map` is the result for whole sequences: a lookup sees
  the last call for the page that found the pages for the tables it lacked.
-/

namespace Orchid

open ByteMem Radix

/-- The page-size bit: in a PDPT or PD it marks an entry as a large leaf. -/
def pageSizeBit : Nat := 0x080

/-- The address space at `root`: its tables are distinct frames, none of them
is free, and all its leaves are of 4 KiB. -/
structure WellFormed (root : Nat) (vm : Vm) : Prop where
  aligned : Aligned root
  distinct : ∀ p q f, p.length ≤ 3 → q.length ≤ 3 → walk (child vm.mem) root p = some f →
    walk (child vm.mem) root q = some f → p = q
  notFree : ∀ p f, p.length ≤ 3 → walk (child vm.mem) root p = some f → f ∉ vm.free
  smallPages : ∀ p f i, p.length = 1 ∨ p.length = 2 → walk (child vm.mem) root p = some f →
    Present (pte vm.mem f i) → pte vm.mem f i &&& pageSizeBit = 0
  freeOk : FreeOk vm.free

/-- The entry of the page table that maps `v`, if there is a page table. -/
def leafEntry (mem : ByteMem) (pml4Phys v : Nat) : Option Nat :=
  (walk (child mem) pml4Phys (upperPath v)).map fun t => pte mem t (ptSlot v)

theorem leafEntry_congr {mem : ByteMem} {a v w : Nat} (h : pageOf v = pageOf w) :
    leafEntry mem a v = leafEntry mem a w := by
  have hpath : upperPath v ++ [ptSlot v] = upperPath w ++ [ptSlot w] := (path_eq_iff v w).mpr h
  rcases List.append_inj' hpath rfl with ⟨hupper, hslot⟩
  rw [leafEntry, leafEntry, hupper, List.singleton_inj.mp hslot]

/-! ## The single tree as a forest -/

/-- The paths of the tables. -/
def tablePaths (_ : Unit) (p : List (Fin 512)) : Prop := p.length ≤ 3

theorem below_tablePaths {q : List (Fin 512)} (h : q.length ≤ 4) : Below (tablePaths ()) q := by
  rintro p j q' rfl
  simp only [List.length_append, List.length_cons] at h
  simp only [tablePaths]
  omega

theorem tracked_tablePaths : Tracked tablePaths tablePaths where
  closed := by
    intro k p q h
    simp only [tablePaths, List.length_append] at *
    omega
  sub := fun _ _ h => h
  below := fun _ _ h => below_tablePaths (Nat.le_succ_of_le h)

section OneCall

variable {root virt : Nat} {vm vm₁ : Vm} {q : List (Fin 512)}

theorem WellFormed.forest (h : WellFormed root vm) :
    Forest (fun _ : Unit => root) tablePaths tablePaths vm where
  tracked := tracked_tablePaths
  aligned := fun _ => h.aligned
  distinct := fun _ p _ q f hp hq hf hf' => ⟨rfl, h.distinct p q f hp hq hf hf'⟩
  fresh := fun _ hc _ p hp hw => h.notFree p _ hp hw hc
  freeOk := h.freeOk

/-- Taking a page keeps the tables a tree. -/
theorem WellFormed.pop {c : Nat} {rest : List Nat} (hwf : WellFormed root vm)
    (hfree : vm.free = c :: rest) : WellFormed root ⟨vm.mem, rest⟩ := by
  refine ⟨hwf.aligned, hwf.distinct, ?_, hwf.smallPages, FreeOk.tail (hfree ▸ hwf.freeOk)⟩
  intro p f hp hf hmem
  apply hwf.notFree p f hp hf
  rw [hfree]
  exact List.mem_cons_of_mem c hmem

theorem WellFormed.of_forest (h : Forest (fun _ : Unit => root) tablePaths tablePaths vm)
    (hsmall : ∀ p f i, p.length = 1 ∨ p.length = 2 → walk (child vm.mem) root p = some f →
      Present (pte vm.mem f i) → pte vm.mem f i &&& pageSizeBit = 0) : WellFormed root vm where
  aligned := h.aligned ()
  distinct := fun p q f hp hq hf hf' => (h.distinct () p () q f hp hq hf hf').2
  notFree := fun p f hp hw hc => h.fresh f hc () p hp hw
  smallPages := hsmall
  freeOk := h.freeOk

theorem makeEntry_and_pageSizeBit (c : Nat) :
    makeEntry c (vmmPresent ||| vmmWritable) &&& pageSizeBit = 0 := by
  have hbit : makeEntry c (vmmPresent ||| vmmWritable) &&& (2 ^ 1 - 1) * 2 ^ 7 =
      makeEntry c (vmmPresent ||| vmmWritable) / 2 ^ 7 % 2 ^ 1 * 2 ^ 7 := Bits.and_mask _ 7 1
  have hflags : vmmPresent ||| vmmWritable = 3 := by decide
  refine hbit.trans ?_
  rw [makeEntry_eq, hflags]
  omega

/-! ## Making tables -/

/-- New tables change no translation. -/
theorem Grown.walk_page {taken : List Nat} {r : Unit → Nat}
    (h : Grown r tablePaths () [] (upperPath virt) vm vm₁ taken) (hq : q.length = 4) :
    walk (child vm₁.mem) (r ()) q = walk (child vm.mem) (r ()) q := by
  rcases h.walks () q (below_tablePaths (by omega)) with heq | ⟨-, -, ⟨_, hle, rfl⟩, -⟩
  · exact heq
  · -- the new paths are shorter
    have := hle.length_le
    rw [length_upperPath] at this
    omega

/-- New tables have no large leaves. -/
theorem Grown.smallPages {taken : List Nat} (hwf : WellFormed root vm)
    (h : Grown (fun _ : Unit => root) tablePaths () [] (upperPath virt) vm vm₁ taken)
    (p : List (Fin 512)) (f : Nat) (i : Fin 512) (hp : p.length = 1 ∨ p.length = 2)
    (hf : walk (child vm₁.mem) root p = some f) (hpres : Present (pte vm₁.mem f i)) :
    pte vm₁.mem f i &&& pageSizeBit = 0 := by
  have hfa : Aligned f := walk_aligned hwf.aligned hf
  rcases h.entries f i hfa with ⟨heq, hnot⟩ | hzero | ⟨c, -, heq⟩
  · rw [heq] at hpres ⊢
    rcases h.walks () p (below_tablePaths (by omega)) with hw | ⟨-, -, -, c, hc, hw⟩
    · exact hwf.smallPages p f i hp (hw ▸ hf) hpres
    · rw [hw] at hf
      exact absurd (Option.some.inj hf ▸ hc) hnot
  · rw [hzero]; rfl
  · rw [heq]
    exact makeEntry_and_pageSizeBit c

/-! ## Storing a leaf -/

/-- A store into a page table is seen at its own page only. -/
theorem WellFormed.walk_leaf (hwf : WellFormed root vm) {t e : Nat}
    (ht : walk (child vm.mem) root (upperPath virt) = some t) (he : e < 2 ^ 64)
    (hq : q.length ≤ 4) :
    walk (child (write64 vm.mem (t + 8 * (ptSlot virt).val) e)) root q =
      if q = path virt then decode e else walk (child vm.mem) root q := by
  have hleaf : ¬ tablePaths () (upperPath virt ++ [ptSlot virt]) := by
    simp [tablePaths, length_upperPath]
  have hD : tablePaths () (upperPath virt) := (length_upperPath virt).le
  have hbelow : Below (tablePaths ()) q := below_tablePaths hq
  have h := hwf.forest.walk_leaf (k := ()) hD ht hleaf he hbelow
  by_cases hqv : q = path virt
  · rw [if_pos hqv]
    exact h.trans (if_pos ⟨rfl, hqv⟩)
  · rw [if_neg hqv]
    exact h.trans (if_neg fun hk => hqv hk.2)

theorem WellFormed.leaf (hwf : WellFormed root vm) {t e : Nat}
    (ht : walk (child vm.mem) root (upperPath virt) = some t) (he : e < 2 ^ 64) :
    WellFormed root { vm with mem := write64 vm.mem (t + 8 * (ptSlot virt).val) e } := by
  have hwalk : ∀ p, p.length ≤ 3 →
      walk (child (write64 vm.mem (t + 8 * (ptSlot virt).val) e)) root p =
        walk (child vm.mem) root p := by
    intro p hp
    rw [hwf.walk_leaf ht he (by omega), if_neg]
    rintro rfl
    rw [length_path] at hp
    omega
  constructor
  · exact hwf.aligned
  · intro p q f hp hq hf hf'
    exact hwf.distinct p q f hp hq (hwalk p hp ▸ hf) (hwalk q hq ▸ hf')
  · intro p f hp hf
    exact hwf.notFree p f hp (hwalk p hp ▸ hf)
  · intro p f i hp hf hpres
    replace hf : walk (child vm.mem) root p = some f := by
      rw [← hwalk p (by omega)]
      exact hf
    -- the page table stored into is at depth three, so it is none of these
    have hne : ¬ (f = t ∧ i = ptSlot virt) := by
      rintro ⟨rfl, -⟩
      have := congrArg List.length (hwf.distinct p _ f (by omega) (length_upperPath virt).le hf ht)
      rw [length_upperPath] at this
      omega
    have hpte : pte (write64 vm.mem (t + 8 * (ptSlot virt).val) e) f i = pte vm.mem f i := by
      rw [pte_write64 (walk_aligned hwf.aligned ht) (walk_aligned hwf.aligned hf) he, if_neg hne]
    simp only [hpte] at hpres ⊢
    exact hwf.smallPages p f i hp hf hpres
  · exact hwf.freeOk

/-! ## One call -/

theorem mapAt_wellFormed (hwf : WellFormed root vm) (phys flags : Nat) :
    WellFormed root (mapAt root virt phys flags vm).2 := by
  have hD : tablePaths () (upperPath virt) := (length_upperPath virt).le
  rcases Nat.lt_or_ge vm.free.length (missing (child vm.mem) root (upperPath virt)) with hlt | hge
  · obtain ⟨taken, vm₁, heq, -, -, hgrown, hforest⟩ :=
      mapAt_of_missing (k := ()) hwf.forest hD hlt phys flags
    rw [heq]
    exact .of_forest hforest (hgrown.smallPages hwf)
  · obtain ⟨taken, vm₁, t, heq, -, ht, hgrown, hforest⟩ :=
      mapAt_of_enough (k := ()) hwf.forest hD hge phys flags
    rw [heq]
    exact (WellFormed.of_forest hforest (hgrown.smallPages hwf)).leaf ht (makeEntry_lt _ _)

/-- A map reaches its last line if the free stack has a page for every table that is missing. -/
theorem mapAt_done_iff (hwf : WellFormed root vm) (phys flags : Nat) :
    (mapAt root virt phys flags vm).1 = true ↔
      missing (child vm.mem) root (upperPath virt) ≤ vm.free.length := by
  have hD : tablePaths () (upperPath virt) := (length_upperPath virt).le
  rcases Nat.lt_or_ge vm.free.length (missing (child vm.mem) root (upperPath virt)) with hlt | hge
  · obtain ⟨taken, vm₁, heq, -⟩ := mapAt_of_missing (k := ()) hwf.forest hD hlt phys flags
    rw [heq]
    simp [hlt]
  · obtain ⟨taken, vm₁, t, heq, -⟩ := mapAt_of_enough (k := ()) hwf.forest hD hge phys flags
    rw [heq]
    simp [hge]

/-- What a map does to every page: with enough pages for the tables, the one page it names now
leads to `phys`; otherwise nothing changed. -/
theorem mapAt_walk (hwf : WellFormed root vm) {phys flags : Nat} (hphys : Aligned phys)
    (hsmall : phys < 2 ^ 52) (hflags : flags % 2 = 1) (hq : q.length = 4) :
    walk (child (mapAt root virt phys flags vm).2.mem) root q =
      if missing (child vm.mem) root (upperPath virt) ≤ vm.free.length ∧ q = path virt then
        some phys
      else walk (child vm.mem) root q := by
  have hD : tablePaths () (upperPath virt) := (length_upperPath virt).le
  rcases Nat.lt_or_ge vm.free.length (missing (child vm.mem) root (upperPath virt)) with hlt | hge
  · obtain ⟨taken, vm₁, heq, -, -, hgrown, -⟩ :=
      mapAt_of_missing (k := ()) hwf.forest hD hlt phys flags
    rw [heq, if_neg (fun h => absurd h.1 (Nat.not_le.mpr hlt))]
    exact hgrown.walk_page hq
  · obtain ⟨taken, vm₁, t, heq, -, ht, hgrown, hforest⟩ :=
      mapAt_of_enough (k := ()) hwf.forest hD hge phys flags
    have hwf₁ := WellFormed.of_forest hforest (hgrown.smallPages hwf)
    rw [heq]
    simp only [hge, true_and]
    rw [hwf₁.walk_leaf ht (makeEntry_lt _ _) (by omega), decode_makeEntry hphys hsmall hflags,
      hgrown.walk_page hq]

theorem vmmUnmap_wellFormed (hwf : WellFormed root vm) : WellFormed root (vmmUnmap root virt vm) := by
  rw [vmmUnmap_eq_walk]
  split
  · exact hwf
  · next t ht => exact hwf.leaf ht (by norm_num)

theorem vmmUnmap_walk (hwf : WellFormed root vm) (hq : q.length = 4) :
    walk (child (vmmUnmap root virt vm).mem) root q =
      if q = path virt then none else walk (child vm.mem) root q := by
  rw [vmmUnmap_eq_walk]
  split
  · next hnone =>
    -- there is no page table, so the page was not mapped
    split
    · next h =>
      rw [h, path, walk_append, hnone]
      rfl
    · rfl
  · next t ht =>
    simp only [hwf.walk_leaf ht (e := 0) (by norm_num) hq.le]
    rfl

end OneCall

/-! ## Sequences of calls -/

/-- A call that changes the address space. -/
inductive MapCall where
  | map (virt phys flags : Nat)
  | mapUser (virt phys flags : Nat) (isUser : Bool)
  | unmap (virt : Nat)

namespace MapCall

/-- The address a call is about. -/
def virt : MapCall → Nat
  | map virt _ _ => virt
  | mapUser virt _ _ _ => virt
  | unmap virt => virt

/-- What a call is to store for its page. -/
def frame : MapCall → Option Nat
  | map _ phys _ => some phys
  | mapUser _ phys _ _ => some phys
  | unmap _ => none

/-- Maps are of a page-aligned frame. -/
def Valid (call : MapCall) : Prop :=
  ∀ phys, call.frame = some phys → Aligned phys ∧ 0 < phys ∧ phys < 2 ^ 52

/-- The call on the address space at `root`. -/
def run (root : Nat) : MapCall → Vm → Vm
  | map virt phys flags, vm => vmmMap root virt phys flags vm
  | mapUser virt phys flags isUser, vm => vmmMapUser root virt phys flags isUser vm
  | unmap virt, vm => vmmUnmap root virt vm

/-- Whether the call got through: a map returns early if `pmm_alloc_page`
gives no page for a table. -/
def done (root : Nat) : MapCall → Vm → Bool
  | map virt phys flags, vm => (mapAt root virt phys (mapFlags flags) vm).1
  | mapUser virt phys flags isUser, vm => (mapAt root virt phys (mapUserFlags flags isUser) vm).1
  | unmap _, _ => true

/-- How many tables have to be made for the call's page: as many as its path lacks. An unmap
makes none. -/
def need (root : Nat) : MapCall → Vm → Nat
  | map virt _ _, vm => missing (child vm.mem) root (upperPath virt)
  | mapUser virt _ _ _, vm => missing (child vm.mem) root (upperPath virt)
  | unmap _, _ => 0

variable {root : Nat} {vm : Vm} {call : MapCall}

theorem need_le_three (call : MapCall) : call.need root vm ≤ 3 := by
  cases call with
  | map virt phys flags => exact missing_le_length _ _
  | mapUser virt phys flags isUser => exact missing_le_length _ _
  | unmap virt => exact Nat.zero_le _

/-- A call gets through exactly if the free stack has the pages for the tables that it makes. -/
theorem done_iff_need (hwf : WellFormed root vm) :
    call.done root vm = true ↔ call.need root vm ≤ vm.free.length := by
  cases call with
  | map virt phys flags => exact mapAt_done_iff hwf phys (mapFlags flags)
  | mapUser virt phys flags isUser => exact mapAt_done_iff hwf phys (mapUserFlags flags isUser)
  | unmap virt => simp [done, need]

theorem run_wellFormed (call : MapCall) (hwf : WellFormed root vm) :
    WellFormed root (call.run root vm) := by
  cases call with
  | map virt phys flags =>
    simp only [run, vmmMap]
    split
    · exact hwf
    · exact mapAt_wellFormed hwf phys _
  | mapUser virt phys flags isUser =>
    simp only [run, vmmMapUser]
    split
    · exact hwf
    · exact mapAt_wellFormed hwf phys _
  | unmap virt => exact vmmUnmap_wellFormed hwf

theorem run_walk (hwf : WellFormed root vm) (hvalid : call.Valid) {q : List (Fin 512)}
    (hq : q.length = 4) :
    walk (child (call.run root vm).mem) root q =
      if call.need root vm ≤ vm.free.length ∧ q = path call.virt then call.frame
      else walk (child vm.mem) root q := by
  cases call with
  | map virt phys flags =>
    obtain ⟨ha, hpos, hlt⟩ := hvalid phys rfl
    simp only [run, vmmMap, if_neg (Nat.pos_iff_ne_zero.mp hpos)]
    exact mapAt_walk hwf ha hlt (mapFlags_mod_two flags) hq
  | mapUser virt phys flags isUser =>
    obtain ⟨ha, hpos, hlt⟩ := hvalid phys rfl
    simp only [run, vmmMapUser, if_neg (Nat.pos_iff_ne_zero.mp hpos)]
    exact mapAt_walk hwf ha hlt (mapUserFlags_mod_two flags isUser) hq
  | unmap virt => simpa [run, need, frame, MapCall.virt] using vmmUnmap_walk hwf hq

/-- What one call does to the translation of every address. -/
theorem run_lookup (hwf : WellFormed root vm) (hvalid : call.Valid) (v : Nat) :
    lookup (call.run root vm).mem root v =
      if call.need root vm ≤ vm.free.length ∧ pageOf call.virt = pageOf v then
        match call.frame with
        | none => 0
        | some f => f ||| (v &&& 0xFFF)
      else lookup vm.mem root v := by
  have hpage : path v = path call.virt ↔ pageOf call.virt = pageOf v := by
    rw [path_eq_iff, eq_comm]
  simp only [lookup_eq_walk, run_walk hwf hvalid (length_path v), hpage]
  split_ifs <;> rfl

end MapCall

namespace AddressSpace

/-- A sequence of calls, first to last. -/
def runCalls (root : Nat) : List MapCall → Vm → Vm
  | [], vm => vm
  | call :: calls, vm => runCalls root calls (call.run root vm)

/-- What the last call for `page` that had the pages for its tables is to store, if there was
one. -/
def lastTouch (root page : Nat) : List MapCall → Vm → Option (Option Nat)
  | [], _ => none
  | call :: calls, vm =>
    match lastTouch root page calls (call.run root vm) with
    | some r => some r
    | none =>
      if call.need root vm ≤ vm.free.length ∧ pageOf call.virt = page then some call.frame
      else none

/-- The translation a finite map from pages to frames gives: `touched` is what
was stored last for the page of `v`, `initial` its translation at the start. -/
def mapLookup (touched : Option (Option Nat)) (initial v : Nat) : Nat :=
  match touched with
  | none => initial
  | some none => 0
  | some (some frame) => frame ||| (v &&& 0xFFF)

variable {root : Nat} {vm : Vm} {calls : List MapCall}

theorem runCalls_wellFormed (hwf : WellFormed root vm) (calls : List MapCall) :
    WellFormed root (runCalls root calls vm) := by
  induction calls generalizing vm with
  | nil => exact hwf
  | cons call calls ih => exact ih (call.run_wellFormed hwf)

theorem runCalls_lookup (hwf : WellFormed root vm) (hvalid : ∀ call ∈ calls, call.Valid)
    (v : Nat) :
    lookup (runCalls root calls vm).mem root v =
      mapLookup (lastTouch root (pageOf v) calls vm) (lookup vm.mem root v) v := by
  induction calls generalizing vm with
  | nil => rfl
  | cons call calls ih =>
    have hcall : call.Valid := hvalid call List.mem_cons_self
    have hrest : ∀ c ∈ calls, c.Valid := fun c hc => hvalid c (List.mem_cons_of_mem call hc)
    have hrun := ih (call.run_wellFormed hwf) hrest
    rw [MapCall.run_lookup hwf hcall v] at hrun
    rw [runCalls, hrun, lastTouch]
    cases lastTouch root (pageOf v) calls (call.run root vm) with
    | some r => cases r <;> rfl
    | none =>
      -- no later call touched the page: this one did, or it is as at the start
      simp only [mapLookup]
      by_cases h : call.need root vm ≤ vm.free.length ∧ pageOf call.virt = pageOf v
      · rw [if_pos h, if_pos h]
        cases call.frame <;> rfl
      · rw [if_neg h, if_neg h]

/-- The page-table code implements a finite map: from any well-formed address space, after any
calls it is well formed again and both lookups give what the last call for the page stored. A
further call gets through if and only if the free stack has a page for every table that the
path lacks; it changes no other page, and one that does not get through changes no page at
all. -/
theorem refines_map (root : Nat) (vm : Vm) (calls : List MapCall) (hwf : WellFormed root vm)
    (hvalid : ∀ call ∈ calls, call.Valid) :
    WellFormed root (runCalls root calls vm) ∧
    (∀ v, userVirtToPhys (runCalls root calls vm).mem root v =
        mapLookup (lastTouch root (pageOf v) calls vm) (userVirtToPhys vm.mem root v) v ∧
      vmmVirtToPhys (runCalls root calls vm).mem root v =
        mapLookup (lastTouch root (pageOf v) calls vm) (vmmVirtToPhys vm.mem root v) v) ∧
    (∀ call : MapCall, call.done root (runCalls root calls vm) = true ↔
      call.need root (runCalls root calls vm) ≤ (runCalls root calls vm).free.length) ∧
    ∀ call : MapCall, call.Valid → ∀ v,
      pageOf v ≠ pageOf call.virt ∨ call.done root (runCalls root calls vm) = false →
      userVirtToPhys (call.run root (runCalls root calls vm)).mem root v =
          userVirtToPhys (runCalls root calls vm).mem root v ∧
        vmmVirtToPhys (call.run root (runCalls root calls vm)).mem root v =
          vmmVirtToPhys (runCalls root calls vm).mem root v := by
  have hwf' := runCalls_wellFormed hwf calls
  refine ⟨hwf', ?_, fun call => MapCall.done_iff_need hwf', ?_⟩
  · intro v
    exact ⟨runCalls_lookup hwf hvalid v, runCalls_lookup hwf hvalid v⟩
  · intro call hcall v hv
    have hrun := MapCall.run_lookup hwf' hcall v
    rw [if_neg] at hrun
    · exact ⟨hrun, hrun⟩
    · rintro ⟨hneed, hpage⟩
      rcases hv with hne | hfail
      · exact hne hpage.symm
      · rw [← MapCall.done_iff_need hwf', hfail] at hneed
        cases hneed

/-- An empty PML4 at `0x1000` and four free frames. -/
def blankVm : Vm := ⟨fun _ => 0, [0x2000, 0x3000, 0x4000, 0x5000]⟩

/-- An empty PML4 in a memory of zeros. -/
theorem wellFormed_zero {free : List Nat} (ha : Aligned root) (hroot : root ∉ free)
    (hok : FreeOk free) : WellFormed root ⟨fun _ => 0, free⟩ := by
  have hwalk : ∀ p f, walk (child fun _ => 0) root p = some f → p = [] ∧ f = root := by
    intro p f hf
    cases p with
    | nil => exact ⟨rfl, (Option.some.inj hf).symm⟩
    | cons i p =>
      rw [walk_cons, child_zero] at hf
      cases hf
  refine ⟨ha, ?_, ?_, ?_, hok⟩
  · intro p q f _ _ hp hq
    rw [(hwalk p f hp).1, (hwalk q f hq).1]
  · intro p f _ hf
    rw [(hwalk p f hf).2]
    exact hroot
  · intro p f i hp hf
    rw [(hwalk p f hf).1] at hp
    simp at hp

theorem wellFormed_blankVm : WellFormed 0x1000 blankVm :=
  wellFormed_zero (by decide) (by decide) ⟨by decide, by decide, by decide, by decide⟩

/-- In an empty address space a page is mapped, and then another one is unmapped: the first
page leads to its frame. -/
theorem refines_map_blankVm :
    let calls := [MapCall.map 0x400000 0x6000 vmmWritable, MapCall.unmap 0x401000]
    WellFormed 0x1000 blankVm ∧ (∀ call ∈ calls, call.Valid) ∧
      userVirtToPhys (runCalls 0x1000 calls blankVm).mem 0x1000 0x400123 = 0x6123 ∧
      vmmVirtToPhys (runCalls 0x1000 calls blankVm).mem 0x1000 0x400123 = 0x6123 := by
  intro calls
  have hvalid : ∀ call ∈ calls, call.Valid := by
    intro call hcall phys hphys
    simp only [calls, List.mem_cons, List.not_mem_nil, or_false] at hcall
    rcases hcall with rfl | rfl
    · cases hphys
      decide
    · cases hphys
  have hfirst : lastTouch 0x1000 (pageOf 0x400123) calls blankVm = some (some 0x6000) := by
    have hneed : (MapCall.map 0x400000 0x6000 vmmWritable).need 0x1000 blankVm ≤
        blankVm.free.length := (MapCall.need_le_three _).trans (by decide)
    have hother : pageOf (MapCall.unmap 0x401000).virt ≠ pageOf 0x400123 := by decide
    simp only [calls, lastTouch]
    rw [if_neg (fun h => hother h.2), if_pos ⟨hneed, by decide⟩]
    rfl
  have hlookup := (refines_map 0x1000 blankVm calls wellFormed_blankVm hvalid).2.1 0x400123
  rw [hfirst] at hlookup
  exact ⟨wellFormed_blankVm, hvalid, hlookup.1.trans (by decide), hlookup.2.trans (by decide)⟩

end AddressSpace

end Orchid
