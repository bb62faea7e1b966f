import Orchid.Memory.AddressSpace

/-! # What user mode may access

The processor lets code at CPL 3 access a page if the U/S bit is set in the
entries of all four levels, and write to it if the R/W bit is too.
`vmm_map_user` sets the bits of the leaf as it is told, and `ensure_page_table`
makes the entries above it with the present and R/W bits only. A table once
there is used as it is. So the bits of the upper three levels are those the
address space started with, and an entry made on the way has no U/S bit.

* `entriesOn` are the entries that the processor reads on a path.
* `permits_of_kept` compares two memories whose entries differ only where
  neither grants access.
* `mapAt_leafSet` is the step, `UserMap.run_upper` and `UserMap.run_leaf` the run.
-/

namespace Orchid

open ByteMem Radix

/-! ## The entries on a path -/

/-- The entries met on a path from the table `f`, up to the first that is not
present. -/
def entriesOn (mem : ByteMem) : Nat → List (Fin 512) → List Nat
  | _, [] => []
  | f, i :: q => pte mem f i ::
    match child mem f i with
    | none => []
    | some g => entriesOn mem g q

/-- All the entries on the path have the bits. -/
def Permits (mem : ByteMem) (bits f : Nat) (q : List (Fin 512)) : Prop :=
  ∀ e ∈ entriesOn mem f q, e &&& bits = bits

instance (mem : ByteMem) (bits f : Nat) (q : List (Fin 512)) : Decidable (Permits mem bits f q) :=
  inferInstanceAs (Decidable (∀ _ ∈ _, _))

/-- The bits that an access from user mode needs. -/
def accessBits (write : Bool) : Nat :=
  vmmPresent ||| vmmUser ||| (if write then vmmWritable else 0)

/-- Code at CPL 3 may access the page of `virt`. -/
def UserAccessible (mem : ByteMem) (root virt : Nat) (write : Bool) : Prop :=
  Permits mem (accessBits write) root (path virt)

section Entries

variable {mem mem' : ByteMem} {bits root f t : Nat} {i : Fin 512} {p q : List (Fin 512)}

theorem present_of_bits {e : Nat} (hbits : bits % 2 = 1) (h : e &&& bits = bits) : Present e := by
  have hbit : bits.testBit 0 = true := by simp [Nat.testBit_zero, hbits]
  have := Bits.bit_of_and_eq h hbit
  rw [present_iff]
  omega

theorem permits_nil : Permits mem bits f [] := by
  intro e he
  cases he

theorem permits_cons (hbits : bits % 2 = 1) :
    Permits mem bits f (i :: q) ↔
      pte mem f i &&& bits = bits ∧ ∃ g, child mem f i = some g ∧ Permits mem bits g q := by
  constructor
  · intro h
    have hfirst : pte mem f i &&& bits = bits := h _ List.mem_cons_self
    have hchild : child mem f i = some (entryGetAddr (pte mem f i)) :=
      if_pos (present_of_bits hbits hfirst)
    refine ⟨hfirst, _, hchild, ?_⟩
    intro e he
    apply h
    rw [entriesOn, hchild]
    exact List.mem_cons_of_mem _ he
  · rintro ⟨hfirst, g, hchild, hrest⟩ e he
    rw [entriesOn, hchild] at he
    rcases List.mem_cons.mp he with heq | he
    · rw [heq]
      exact hfirst
    · exact hrest e he

/-- The last level of a path whose tables are there. -/
theorem permits_concat (hbits : bits % 2 = 1) (ht : walk (child mem) f q = some t) :
    Permits mem bits f (q ++ [i]) ↔ Permits mem bits f q ∧ pte mem t i &&& bits = bits := by
  induction q generalizing f with
  | nil =>
    cases ht
    rw [List.nil_append, permits_cons hbits]
    constructor
    · rintro ⟨h, -⟩
      exact ⟨permits_nil, h⟩
    · rintro ⟨-, h⟩
      exact ⟨h, _, if_pos (present_of_bits hbits h), permits_nil⟩
  | cons j q ih =>
    rw [walk_cons] at ht
    cases hg : child mem f j with
    | none =>
      rw [hg] at ht
      cases ht
    | some g =>
      rw [hg] at ht
      simp only [List.cons_append, permits_cons hbits, hg, Option.some.injEq, exists_eq_left', ih ht,
        and_assoc]

/-- Two memories whose tables on the short paths differ only in entries that grant
nothing. -/
theorem permits_of_kept (hbits : bits % 2 = 1) {n : Nat}
    (hkept : ∀ p f i, p.length < n → walk (child mem) root p = some f →
      pte mem' f i = pte mem f i ∨
        pte mem f i &&& bits ≠ bits ∧ pte mem' f i &&& bits ≠ bits)
    (hf : walk (child mem) root p = some f) (hlen : p.length + q.length ≤ n) :
    Permits mem' bits f q ↔ Permits mem bits f q := by
  induction q generalizing p f with
  | nil => exact ⟨fun _ => permits_nil, fun _ => permits_nil⟩
  | cons i q ih =>
    rw [List.length_cons] at hlen
    rw [permits_cons hbits, permits_cons hbits]
    rcases hkept p f i (by omega) hf with heq | ⟨hold, hnew⟩
    · rw [child, child, heq]
      apply and_congr_right
      intro _
      apply exists_congr
      intro g
      apply and_congr_right
      intro hg
      apply ih (p := p ++ [i]) ((walk_concat hf).trans hg)
      rw [List.length_append, List.length_singleton]
      omega
    · exact iff_of_false (fun h => hnew h.1) (fun h => hold h.1)

end Entries

/-! ## The bits of the entries that are made -/

theorem accessBits_odd (write : Bool) : accessBits write % 2 = 1 := by
  cases write <;> decide

/-- The entries that `ensure_page_table` makes have no U/S bit. -/
theorem makeEntry_not_user (c : Nat) (write : Bool) :
    makeEntry c (vmmPresent ||| vmmWritable) &&& accessBits write ≠ accessBits write := by
  intro h
  have huser : (accessBits write).testBit 2 = true := by cases write <;> decide
  have hbit := Bits.bit_of_and_eq h huser
  have hflags : vmmPresent ||| vmmWritable = 3 := by decide
  rw [makeEntry_eq, hflags] at hbit
  omega

theorem zero_not_user (write : Bool) : 0 &&& accessBits write ≠ accessBits write := by
  cases write <;> decide

/-- A leaf has the bits it was asked to have. -/
theorem makeEntry_and_accessBits (phys : Nat) {flags : Nat} {write : Bool}
    (h : flags &&& accessBits write = accessBits write) :
    makeEntry phys flags &&& accessBits write = accessBits write := by
  have haddr : 0x000FFFFFFFFFF000 &&& accessBits write = 0 := by cases write <;> decide
  have hlow : 0xFFF &&& accessBits write = accessBits write := by cases write <;> decide
  rw [makeEntry, Nat.and_or_distrib_right, Nat.and_assoc, haddr, Nat.and_assoc, hlow, h,
    Nat.and_zero, Nat.zero_or]

/-- `vmm_map_user` with `is_user` asks for the U/S bit, and for the R/W bit if its
caller does. -/
theorem mapUserFlags_access (flags : Nat) :
    mapUserFlags flags true &&& accessBits (decide (flags &&& vmmWritable ≠ 0)) =
      accessBits (decide (flags &&& vmmWritable ≠ 0)) := by
  -- only the low three bits matter, so there are eight cases
  have low : ∀ x b, b &&& 7 = b → x &&& b = x % 2 ^ 3 &&& b := by
    intro x b hb
    rw [← Nat.and_two_pow_sub_one_eq_mod, Nat.and_assoc, Nat.and_comm (2 ^ 3 - 1) b]
    exact congrArg (x &&& ·) hb.symm
  have hmask : ∀ write, accessBits write &&& 7 = accessBits write := by decide
  rw [low flags vmmWritable (by decide), low _ _ (hmask _), mapUserFlags, Nat.or_mod_two_pow,
    Nat.or_mod_two_pow]
  have hlt : flags % 2 ^ 3 < 2 ^ 3 := Nat.mod_lt _ (by decide)
  generalize flags % 2 ^ 3 = m at hlt ⊢
  revert m
  decide

/-! ## One call -/

section Step

variable {root virt phys flags f t : Nat} {vm vm₁ : Vm} {p q : List (Fin 512)} {i : Fin 512}
  {taken : List Nat}

/-- Making tables fills slots that were empty, and with no access for user mode. -/
theorem Grown.entry_kept (hwf : WellFormed root vm)
    (h : Grown (fun _ : Unit => root) tablePaths () [] (upperPath virt) vm vm₁ taken)
    (hp : p.length < 3) (hf : walk (child vm.mem) root p = some f) (write : Bool) :
    pte vm₁.mem f i = pte vm.mem f i ∨
      pte vm.mem f i &&& accessBits write ≠ accessBits write ∧
        pte vm₁.mem f i &&& accessBits write ≠ accessBits write := by
  rcases h.entries f i (walk_aligned hwf.aligned hf) with ⟨heq, -⟩ | hnew
  · exact Or.inl heq
  refine Or.inr ⟨?_, ?_⟩
  · intro hbits
    -- a present entry is still there, and leads where it did
    have hold : child vm.mem f i = some (entryGetAddr (pte vm.mem f i)) :=
      if_pos (present_of_bits (accessBits_odd write) hbits)
    have hlong : (p ++ [i]).length ≤ 3 := by
      rw [List.length_append, List.length_singleton]
      omega
    have hpath : walk (child vm.mem) root (p ++ [i]) = some (entryGetAddr (pte vm.mem f i)) :=
      (walk_concat hf).trans hold
    have kept : ∀ q g, q.length ≤ 3 → walk (child vm.mem) root q = some g →
        walk (child vm₁.mem) root q = some g := by
      intro q g hq hg
      rcases h.walks () q (below_tablePaths (by omega)) with heq | ⟨hnone, -⟩
      · exact heq.trans hg
      · rw [hg] at hnone
        cases hnone
    have hchild := kept (p ++ [i]) _ hlong hpath
    rw [walk_concat (kept p f (by omega) hf)] at hchild
    rcases hnew with hzero | ⟨c, hc, heq⟩
    · rw [child, hzero] at hchild
      cases hchild
    · have hfree : c ∈ vm.free := by
        rw [h.free]
        exact List.mem_append_left _ hc
      rw [child, heq, decode_makeEntry (hwf.freeOk.aligned c hfree) (hwf.freeOk.small c hfree)
        (by decide)] at hchild
      rw [← hchild] at hpath
      exact hwf.notFree _ c hlong hpath hfree
  · rcases hnew with hzero | ⟨c, -, heq⟩
    · rw [hzero]
      exact zero_not_user write
    · rw [heq]
      exact makeEntry_not_user c write

/-- Making tables writes to no page table that was there. -/
theorem Grown.leaf_kept (hwf : WellFormed root vm)
    (h : Grown (fun _ : Unit => root) tablePaths () [] (upperPath virt) vm vm₁ taken)
    (hp : p.length = 3) (hf : walk (child vm.mem) root p = some f) :
    pte vm₁.mem f i = pte vm.mem f i := by
  apply pte_congr
  intro x hx
  by_contra hne
  have hfa : Aligned f := walk_aligned hwf.aligned hf
  have same : ∀ g, Aligned g → InPage g x → g = f :=
    fun g hg hgx => inPage_unique hg hfa hgx hx
  rcases h.frame x hne with ⟨c, hc, hcx⟩ | ⟨q₁, j, q₂, g, hpath, hg, -, hgx⟩
  · -- a frame that was free
    have hfree : c ∈ vm.free := by
      rw [h.free]
      exact List.mem_append_left _ hc
    rw [same c (hwf.freeOk.aligned c hfree) hcx] at hfree
    exact hwf.notFree p f hp.le hf hfree
  · -- a table of a higher level
    rw [List.nil_append] at hg
    have hlen := congrArg List.length hpath
    rw [length_upperPath, List.length_append, List.length_cons] at hlen
    rw [same g (walk_aligned hwf.aligned hg) hgx] at hg
    have hq := congrArg List.length (hwf.distinct p q₁ f hp.le (by omega) hf hg)
    omega

/-- From `vm` to `vm'` the leaf of the page of `virt` became `e`: the upper levels
grant what they did, and the other leaves are as they were. -/
structure LeafSet (root virt e : Nat) (vm vm' : Vm) : Prop where
  upper : ∀ write q, q.length ≤ 3 →
    (Permits vm'.mem (accessBits write) root q ↔ Permits vm.mem (accessBits write) root q)
  leaf : leafEntry vm'.mem root virt = some e
  others : ∀ v e', pageOf v ≠ pageOf virt → leafEntry vm.mem root v = some e' →
    leafEntry vm'.mem root v = some e'

theorem leafEntry_eq_some {mem : ByteMem} {e : Nat} : leafEntry mem root virt = some e ↔
    ∃ t, walk (child mem) root (upperPath virt) = some t ∧ pte mem t (ptSlot virt) = e :=
  Option.map_eq_some_iff

/-- The store of the leaf. -/
theorem WellFormed.leafSet (hwf : WellFormed root vm) {e : Nat} (he : e < 2 ^ 64)
    (ht : walk (child vm.mem) root (upperPath virt) = some t) :
    LeafSet root virt e vm { vm with mem := write64 vm.mem (t + 8 * (ptSlot virt).val) e } := by
  have hta : Aligned t := walk_aligned hwf.aligned ht
  have hkept : ∀ p f, p.length ≤ 3 → walk (child vm.mem) root p = some f →
      walk (child (write64 vm.mem (t + 8 * (ptSlot virt).val) e)) root p = some f := by
    intro p f hp hf
    rw [hwf.walk_leaf ht he (by omega), if_neg, hf]
    intro hpath
    rw [hpath, length_path] at hp
    omega
  constructor
  · intro write q hq
    apply permits_of_kept (accessBits_odd write) (n := 3) (p := []) _ walk_nil (by simpa using hq)
    intro p f i hp hf
    left
    -- the page table is at depth three
    rw [pte_write64 hta (walk_aligned hwf.aligned hf) he, if_neg]
    rintro ⟨rfl, -⟩
    have hlen := congrArg List.length
      (hwf.distinct p _ f (by omega) (length_upperPath virt).le hf ht)
    rw [length_upperPath] at hlen
    omega
  · rw [leafEntry_eq_some]
    refine ⟨t, hkept _ t (length_upperPath virt).le ht, ?_⟩
    rw [pte_write64 hta hta he, if_pos ⟨rfl, rfl⟩]
  · intro v e' hpage hleaf
    rw [leafEntry_eq_some] at hleaf ⊢
    rcases hleaf with ⟨t', ht', hpte⟩
    refine ⟨t', hkept _ t' (length_upperPath v).le ht', ?_⟩
    rw [pte_write64 hta (walk_aligned hwf.aligned ht') he, if_neg, hpte]
    rintro ⟨rfl, hslot⟩
    apply hpage
    rw [← path_eq_iff, path, path, hslot,
      hwf.distinct _ _ t' (length_upperPath v).le (length_upperPath virt).le ht' ht]

/-- A map that gets through sets one leaf. -/
theorem mapAt_leafSet (hwf : WellFormed root vm)
    (hdone : (mapAt root virt phys flags vm).1 = true) :
    LeafSet root virt (makeEntry phys flags) vm (mapAt root virt phys flags vm).2 := by
  have hD : tablePaths () (upperPath virt) := (length_upperPath virt).le
  rcases Nat.lt_or_ge vm.free.length (missing (child vm.mem) root (upperPath virt)) with hlt | hge
  · rcases mapAt_of_missing (k := ()) hwf.forest hD hlt phys flags with ⟨taken, vm₁, heq, -⟩
    rw [heq] at hdone
    cases hdone
  · rcases mapAt_of_enough (k := ()) hwf.forest hD hge phys flags with
      ⟨taken, vm₁, t, heq, -, ht, hgrown, hforest⟩
    have hwf₁ := WellFormed.of_forest hforest (hgrown.smallPages hwf)
    have hset := hwf₁.leafSet (makeEntry_lt phys flags) ht
    rw [heq]
    constructor
    · intro write q hq
      rw [hset.upper write q hq]
      apply permits_of_kept (accessBits_odd write) (n := 3) (p := []) _ walk_nil (by simpa using hq)
      intro p f i hp hf
      exact hgrown.entry_kept hwf hp hf write
    · exact hset.leaf
    · intro v e' hpage hleaf
      apply hset.others v e' hpage
      rw [leafEntry_eq_some] at hleaf ⊢
      rcases hleaf with ⟨t', ht', hpte⟩
      refine ⟨t', ?_, ?_⟩
      · rcases hgrown.walks () (upperPath v) (below_tablePaths (by simp [length_upperPath])) with
          hw | ⟨hnone, -⟩
        · exact hw.trans ht'
        · rw [ht'] at hnone
          cases hnone
      · rw [hgrown.leaf_kept hwf (length_upperPath v) ht', hpte]

end Step

/-! ## Sequences of calls -/

open AddressSpace

/-- A call `vmm_map_user(pml4, virt, phys, flags, 1)`. -/
structure UserMap where
  virt : Nat
  phys : Nat
  flags : Nat

namespace UserMap

/-- The call, among those that change an address space. -/
def call (m : UserMap) : MapCall := .mapUser m.virt m.phys m.flags true

/-- Whether the caller asks for a writable page. -/
def writable (m : UserMap) : Bool := decide (m.flags &&& vmmWritable ≠ 0)

/-- The call reaches its last line. -/
def Succeeds (root : Nat) (m : UserMap) (vm : Vm) : Prop :=
  m.phys ≠ 0 ∧ m.call.done root vm = true

/-- All the calls of a sequence succeed. -/
def AllSucceed (root : Nat) : List UserMap → Vm → Prop
  | [], _ => True
  | m :: ms, vm => m.Succeeds root vm ∧ AllSucceed root ms (m.call.run root vm)

/-- The state after the calls. -/
def run (root : Nat) (ms : List UserMap) (vm : Vm) : Vm := runCalls root (ms.map call) vm

/-- `m` is the last call of the sequence for its page. -/
def MapsLast (m : UserMap) (ms : List UserMap) : Prop :=
  ∃ before after, ms = before ++ m :: after ∧ ∀ m' ∈ after, pageOf m.virt ≠ pageOf m'.virt

variable {root : Nat} {vm : Vm} {m : UserMap} {ms : List UserMap}

theorem call_leafSet (hwf : WellFormed root vm) (h : m.Succeeds root vm) :
    LeafSet root m.virt (makeEntry m.phys (mapUserFlags m.flags true)) vm (m.call.run root vm) := by
  rcases h with ⟨hphys, hdone⟩
  have heq : m.call.run root vm =
      (mapAt root m.virt m.phys (mapUserFlags m.flags true) vm).2 := if_neg hphys
  rw [heq]
  exact mapAt_leafSet hwf hdone

/-- The upper levels grant what they granted at the start. -/
theorem run_upper (hwf : WellFormed root vm) (hrun : AllSucceed root ms vm) (write : Bool)
    {q : List (Fin 512)} (hq : q.length ≤ 3) :
    Permits (run root ms vm).mem (accessBits write) root q ↔
      Permits vm.mem (accessBits write) root q := by
  induction ms generalizing vm with
  | nil => rfl
  | cons m ms ih =>
    rcases hrun with ⟨hm, hrest⟩
    exact (ih (m.call.run_wellFormed hwf) hrest).trans ((call_leafSet hwf hm).upper write q hq)

/-- A leaf stays as long as no call is for its page. -/
theorem run_leaf_kept (hwf : WellFormed root vm) (hrun : AllSucceed root ms vm) {v e : Nat}
    (hother : ∀ m ∈ ms, pageOf v ≠ pageOf m.virt) (hleaf : leafEntry vm.mem root v = some e) :
    leafEntry (run root ms vm).mem root v = some e := by
  induction ms generalizing vm with
  | nil => exact hleaf
  | cons m ms ih =>
    rcases hrun with ⟨hm, hrest⟩
    have hnext := (call_leafSet hwf hm).others v e (hother m List.mem_cons_self) hleaf
    exact ih (m.call.run_wellFormed hwf) hrest
      (fun m' hm' => hother m' (List.mem_cons_of_mem m hm')) hnext

/-- The leaf of a page is the one its last call stored. -/
theorem run_leaf (hwf : WellFormed root vm) (hrun : AllSucceed root ms vm) (hlast : MapsLast m ms) :
    leafEntry (run root ms vm).mem root m.virt =
      some (makeEntry m.phys (mapUserFlags m.flags true)) := by
  rcases hlast with ⟨before, after, rfl, hafter⟩
  induction before generalizing vm with
  | nil =>
    rcases hrun with ⟨hm, hrest⟩
    exact run_leaf_kept (m.call.run_wellFormed hwf) hrest hafter (call_leafSet hwf hm).leaf
  | cons m' before ih =>
    rcases hrun with ⟨-, hrest⟩
    exact ih (m'.call.run_wellFormed hwf) hrest

/-- The leaf always has the bits, so the upper levels decide. -/
theorem accessible_iff_upper (hwf : WellFormed root vm) (hrun : AllSucceed root ms vm)
    (hlast : MapsLast m ms) :
    UserAccessible (run root ms vm).mem root m.virt m.writable ↔
      Permits vm.mem (accessBits m.writable) root (upperPath m.virt) := by
  rcases leafEntry_eq_some.mp (run_leaf hwf hrun hlast) with ⟨t, ht, hleaf⟩
  have hbits : pte (run root ms vm).mem t (ptSlot m.virt) &&& accessBits m.writable =
      accessBits m.writable := by
    rw [hleaf]
    exact makeEntry_and_accessBits m.phys (mapUserFlags_access m.flags)
  rw [UserAccessible, path, permits_concat (accessBits_odd _) ht,
    run_upper hwf hrun m.writable (length_upperPath m.virt).le]
  exact and_iff_left hbits

/-- Where the PML4 has no entry, no page is accessible. -/
theorem not_permits_of_empty {virt : Nat} {write : Bool}
    (h : child vm.mem root (Fin.ofNat 512 (pml4Index virt)) = none) :
    ¬ Permits vm.mem (accessBits write) root (upperPath virt) := by
  intro hpermits
  rw [upperPath, permits_cons (accessBits_odd write), h] at hpermits
  rcases hpermits with ⟨-, g, hg, -⟩
  cases hg

/-- From an empty user half, the pages that were mapped are accessible as asked
exactly if none of them is in the user half, and the entries of the three upper
levels were there before, with the bits. -/
theorem accessible_iff_granted (hwf : WellFormed root vm)
    (hempty : ∀ i : Fin 512, i.val < 256 → child vm.mem root i = none)
    (hrun : AllSucceed root ms vm) :
    (∀ m, MapsLast m ms → UserAccessible (run root ms vm).mem root m.virt m.writable) ↔
      ∀ m, MapsLast m ms → 256 ≤ pml4Index m.virt ∧
        Permits vm.mem (accessBits m.writable) root (upperPath m.virt) := by
  apply forall_congr'
  intro m
  apply imp_congr_right
  intro hlast
  rw [accessible_iff_upper hwf hrun hlast]
  constructor
  · intro hpermits
    refine ⟨?_, hpermits⟩
    by_contra hlow
    apply not_permits_of_empty _ hpermits
    apply hempty
    rw [val_ofNat_pml4]
    omega
  · intro h
    exact h.2

/-- One writable user page in the empty address space. -/
def userPage : UserMap := ⟨0x400000, 0x6000, vmmWritable⟩

theorem allSucceed_userPage : AllSucceed 0x1000 [userPage] blankVm := by
  have hD : tablePaths () (upperPath userPage.virt) := (length_upperPath _).le
  have hfew : missing (child blankVm.mem) 0x1000 (upperPath userPage.virt) ≤
      blankVm.free.length :=
    (missing_le_length _ _).trans (by rw [length_upperPath]; decide)
  rcases mapAt_of_enough (k := ()) wellFormed_blankVm.forest hD hfew userPage.phys
    (mapUserFlags userPage.flags true) with ⟨taken, vm₁, t, heq, -⟩
  refine ⟨⟨by decide, ?_⟩, trivial⟩
  exact congrArg Prod.fst heq

theorem mapsLast_userPage : MapsLast userPage [userPage] :=
  ⟨[], [], rfl, by simp⟩

theorem accessible_iff_granted_userPage :
    WellFormed 0x1000 blankVm ∧ AllSucceed 0x1000 [userPage] blankVm ∧
      ¬ ∀ m, MapsLast m [userPage] →
        UserAccessible (run 0x1000 [userPage] blankVm).mem 0x1000 m.virt m.writable := by
  refine ⟨wellFormed_blankVm, allSucceed_userPage, ?_⟩
  rw [accessible_iff_granted wellFormed_blankVm (fun i _ => child_zero _ i) allSucceed_userPage]
  intro h
  have hlow := (h userPage mapsLast_userPage).1
  revert hlow
  decide

/-- The page is mapped with all three bits in its leaf, and user mode cannot even
read it. -/
theorem mapUser_inaccessible :
    userPage.Succeeds 0x1000 blankVm ∧
      leafEntry (run 0x1000 [userPage] blankVm).mem 0x1000 userPage.virt =
        some (makeEntry userPage.phys (vmmPresent ||| vmmWritable ||| vmmUser)) ∧
      ¬ UserAccessible (run 0x1000 [userPage] blankVm).mem 0x1000 userPage.virt false := by
  have hall := allSucceed_userPage
  have hleaf := run_leaf wellFormed_blankVm hall mapsLast_userPage
  have hflags : mapUserFlags userPage.flags true = vmmPresent ||| vmmWritable ||| vmmUser := by
    decide
  rw [hflags] at hleaf
  refine ⟨hall.1, hleaf, ?_⟩
  rcases leafEntry_eq_some.mp hleaf with ⟨t, ht, -⟩
  intro haccess
  rw [UserAccessible, path] at haccess
  have hupper := ((permits_concat (accessBits_odd false) ht).mp haccess).1
  rw [run_upper wellFormed_blankVm hall false (length_upperPath _).le] at hupper
  have hempty : child blankVm.mem 0x1000 (Fin.ofNat 512 (pml4Index userPage.virt)) = none :=
    child_zero _ _
  exact not_permits_of_empty hempty hupper

end UserMap

end Orchid
