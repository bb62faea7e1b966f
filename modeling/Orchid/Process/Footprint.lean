import Orchid.Process.Owned

/-! # Which bytes the process code writes

The functions that make address spaces write into frames they take off the free
stack, and otherwise only into tables that are known beforehand.

* `Takes R` says that besides the frames taken only the bytes in `R` changed.
  Tables and pages that are neither free nor in `R` are then as they were.
* `fork_address_space` takes frames and writes the child's PML4, whatever the
  tables of the parent look like.
* A growth of the heap writes the tables behind the heap's slot of the kernel's
  PML4, if these are well formed.
-/

namespace Orchid

open ByteMem Radix

/-- From `vm` to `vm'` the frames `taken` were taken off the free stack, and only
they and the bytes in `R` changed. -/
structure Takes (R : Nat → Prop) (vm vm' : Vm) (taken : List Nat) : Prop where
  free : vm.free = taken ++ vm'.free
  frame : ∀ x, vm'.mem x ≠ vm.mem x → R x ∨ ∃ c ∈ taken, InPage c x

section Takes

variable {R R' : Nat → Prop} {vm vm₁ vm₂ : Vm} {taken taken' rest : List Nat} {c f : Nat}

theorem Takes.refl : Takes R vm vm [] where
  free := rfl
  frame := fun _ h => absurd rfl h

/-- The second part may write what the first one took. -/
theorem Takes.trans (h : Takes R vm vm₁ taken) (h' : Takes R' vm₁ vm₂ taken')
    (hR : ∀ x, R' x → R x ∨ ∃ c ∈ taken, InPage c x) : Takes R vm vm₂ (taken ++ taken') where
  free := by rw [h.free, h'.free, List.append_assoc]
  frame := by
    intro x hx
    have hleft : (R x ∨ ∃ c ∈ taken, InPage c x) → R x ∨ ∃ c ∈ taken ++ taken', InPage c x := by
      rintro (hRx | ⟨c, hc, hin⟩)
      · exact Or.inl hRx
      · exact Or.inr ⟨c, List.mem_append_left _ hc, hin⟩
    by_cases hfirst : vm₁.mem x = vm.mem x
    · rw [← hfirst] at hx
      rcases h'.frame x hx with hRx | ⟨c, hc, hin⟩
      · exact hleft (hR x hRx)
      · exact Or.inr ⟨c, List.mem_append_right _ hc, hin⟩
    · exact hleft (h.frame x hfirst)

theorem Takes.mono (h : Takes R vm vm₁ taken) (hR : ∀ x, R x → R' x) : Takes R' vm vm₁ taken where
  free := h.free
  frame := fun x hx => (h.frame x hx).imp_left (hR x)

/-- A frame is taken and filled. -/
theorem Takes.pop {mem : ByteMem} (hfree : vm.free = c :: rest)
    (hout : ∀ x, ¬ R x → ¬ InPage c x → mem x = vm.mem x) : Takes R vm ⟨mem, rest⟩ [c] where
  free := hfree
  frame := by
    intro x hx
    by_cases hRx : R x
    · exact Or.inl hRx
    · refine Or.inr ⟨c, List.mem_singleton_self c, ?_⟩
      by_contra hin
      exact hx (hout x hRx hin)

theorem Takes.taken_sub (h : Takes R vm vm₁ taken) (hc : c ∈ taken) : c ∈ vm.free := by
  rw [h.free]
  exact List.mem_append_left _ hc

theorem Takes.free_sub (h : Takes R vm vm₁ taken) (hc : c ∈ vm₁.free) : c ∈ vm.free := by
  rw [h.free]
  exact List.mem_append_right _ hc

theorem Takes.freeOk (h : Takes R vm vm₁ taken) (hok : FreeOk vm.free) : FreeOk vm₁.free where
  nodup := by
    have hnodup := hok.nodup
    rw [h.free] at hnodup
    exact hnodup.of_append_right
  nonzero := fun _ hc => hok.nonzero _ (h.free_sub hc)
  aligned := fun _ hc => hok.aligned _ (h.free_sub hc)
  small := fun _ hc => hok.small _ (h.free_sub hc)

/-- What was taken is not free any more. -/
theorem Takes.not_free (h : Takes R vm vm₁ taken) (hok : FreeOk vm.free) (hc : c ∈ taken) :
    c ∉ vm₁.free := by
  have hnodup := hok.nodup
  rw [h.free] at hnodup
  intro hfree
  exact (List.nodup_append.mp hnodup).2.2 c hc c hfree rfl

/-- A page that was not free and is not in `R` is as it was. -/
theorem Takes.page_kept (h : Takes R vm vm₁ taken) (hok : FreeOk vm.free) (hf : Aligned f)
    (hnot : f ∉ vm.free) (hR : ∀ x, InPage f x → ¬ R x) {x : Nat} (hx : InPage f x) :
    vm₁.mem x = vm.mem x := by
  by_contra hne
  rcases h.frame x hne with hRx | ⟨c, hc, hin⟩
  · exact hR x hx hRx
  · have hfree := h.taken_sub hc
    have heq := inPage_unique hf (hok.aligned c hfree) hx hin
    rw [heq] at hnot
    exact hnot hfree

/-- The tables that are tracked are not written if all that is written was free. -/
theorem Takes.forest {K : Type} {root : K → Nat} {D E : K → List (Fin 512) → Prop}
    (ht : Takes (fun _ => False) vm vm₁ taken) (h : Forest root D E vm) :
    Forest root D E vm₁ ∧ ∀ k q, Below (D k) q →
      walk (child vm₁.mem) (root k) q = walk (child vm.mem) (root k) q := by
  have hwalk : ∀ k q, Below (D k) q →
      walk (child vm₁.mem) (root k) q = walk (child vm.mem) (root k) q := by
    intro k q hq
    apply walk_congr
    intro p j q' g heq hg
    apply child_congr
    intro x hx
    exact ht.page_kept h.freeOk (walk_aligned (h.aligned k) hg) (h.not_free (hq p j q' heq) hg)
      (fun _ _ hno => hno) hx
  refine ⟨⟨h.tracked, h.aligned, ?_, ?_, ht.freeOk h.freeOk⟩, hwalk⟩
  · intro k p k' p' g hp hp' hg hg'
    rw [hwalk k p (h.tracked.below k p hp)] at hg
    rw [hwalk k' p' (h.tracked.below k' p' hp')] at hg'
    exact h.distinct k p k' p' g hp hp' hg hg'
  · intro c' hc' k p hp
    rw [hwalk k p (h.tracked.below k p hp)]
    exact h.fresh c' (ht.free_sub hc') k p hp

end Takes

/-! ## `fork_address_space` -/

section ForkTakes

variable {prepare : Nat → Nat → ByteMem → ByteMem} {below : Nat → Nat → Vm → Bool × Vm}

/-- `x` lies in entry `i` of the table at `f`. -/
def InSlot (f i x : Nat) : Prop := f + 8 * i ≤ x ∧ x < f + 8 * i + 8

theorem InSlot.inPage {f i x : Nat} (h : InSlot f i x) (hi : i < 512) : InPage f x := by
  unfold InSlot at h
  unfold InPage
  omega

/-- `x` lies in one of the `n` entries of the table at `f` from entry `i` on. -/
def InSlots (f i n x : Nat) : Prop := f + 8 * i ≤ x ∧ x < f + 8 * (i + n)

theorem InSlots.inPage {f i n x : Nat} (h : InSlots f i n x) (hn : i + n ≤ 512) : InPage f x := by
  unfold InSlots at h
  unfold InPage
  omega

/-- One round writes its slot of the child's table, and what it takes. -/
theorem forkEntry_takes (hprepare : ∀ old c mem x, ¬ InPage c x → prepare old c mem x = mem x)
    (hbelow : ∀ P C vm, ∃ taken, Takes (InPage C) vm (below P C vm).2 taken) (P C i : Nat)
    (vm : Vm) : ∃ taken, Takes (InSlot C i) vm (forkEntry prepare below P C i vm).2 taken := by
  unfold forkEntry
  by_cases hpres : Present (read64 vm.mem (P + 8 * i))
  swap
  · rw [if_pos hpres]
    exact ⟨[], .refl⟩
  simp only [hpres, not_true_eq_false, if_false]
  cases hfree : vm.free with
  | nil =>
    rw [Vm.allocPage_of_nil hfree]
    exact ⟨[], .refl⟩
  | cons c rest =>
    rw [Vm.allocPage_of_cons hfree]
    simp only
    split
    · exact ⟨[c], .pop hfree fun _ _ _ => rfl⟩
    · -- the frame, the entry for it, and then what happens below
      set mem := write64 (prepare (entryGetAddr (read64 vm.mem (P + 8 * i))) c vm.mem) (C + 8 * i)
        ((read64 (prepare (entryGetAddr (read64 vm.mem (P + 8 * i))) c vm.mem) (P + 8 * i) &&& 0xFFF)
          ||| c) with hmem
      have hpop : Takes (InSlot C i) vm ⟨mem, rest⟩ [c] := by
        apply Takes.pop hfree
        intro x hslot hin
        rw [hmem, write64_apply_of_outside, hprepare _ _ _ _ hin]
        unfold InSlot at hslot
        omega
      rcases hbelow (entryGetAddr (read64 mem (P + 8 * i))) c ⟨mem, rest⟩ with ⟨taken, htakes⟩
      refine ⟨[c] ++ taken, hpop.trans htakes ?_⟩
      intro x hx
      exact Or.inr ⟨c, List.mem_singleton_self c, hx⟩

/-- A loop writes its slots of the child's table, and what it takes. -/
theorem forkEntries_takes {entry : Nat → Vm → Bool × Vm} {C : Nat}
    (hentry : ∀ i vm, ∃ taken, Takes (InSlot C i) vm (entry i vm).2 taken) (n i : Nat) (vm : Vm) :
    ∃ taken, Takes (InSlots C i n) vm (forkEntries entry i n vm).2 taken := by
  induction n generalizing i vm with
  | zero => exact ⟨[], .refl⟩
  | succ n ih =>
    rcases hentry i vm with ⟨taken, htakes⟩
    have hfirst : ∀ x, InSlot C i x → InSlots C i (n + 1) x := by
      intro x hx
      unfold InSlot at hx
      unfold InSlots
      omega
    have hslots := htakes.mono hfirst
    unfold forkEntries
    generalize entry i vm = r at hslots ⊢
    rcases r with ⟨_ | _, vm₁⟩
    · exact ⟨taken, hslots⟩
    · rcases ih (i + 1) vm₁ with ⟨taken', htakes'⟩
      refine ⟨taken ++ taken', hslots.trans htakes' fun x hx => Or.inl ?_⟩
      unfold InSlots at *
      omega

/-- A loop over a whole table. -/
theorem forkEntries_takes_page {entry : Nat → Vm → Bool × Vm} {C : Nat}
    (hentry : ∀ i vm, ∃ taken, Takes (InSlot C i) vm (entry i vm).2 taken) (vm : Vm) :
    ∃ taken, Takes (InPage C) vm (forkEntries entry 0 512 vm).2 taken := by
  rcases forkEntries_takes hentry 512 0 vm with ⟨taken, htakes⟩
  exact ⟨taken, htakes.mono fun x hx => hx.inPage (Nat.le_refl _)⟩

theorem forkPt_takes (P C : Nat) (vm : Vm) :
    ∃ taken, Takes (InPage C) vm (forkPt P C vm).2 taken := by
  apply forkEntries_takes_page
  intro i vm
  exact forkEntry_takes (fun _ _ _ _ hx => copyPage_apply hx) (fun _ _ _ => ⟨[], .refl⟩) P C i vm

theorem forkTable_takes (hbelow : ∀ P C vm, ∃ taken, Takes (InPage C) vm (below P C vm).2 taken)
    (P C i : Nat) (vm : Vm) :
    ∃ taken, Takes (InSlot C i) vm (forkEntry clearPage below P C i vm).2 taken :=
  forkEntry_takes (fun _ _ _ _ hx => clearPage_apply hx) hbelow P C i vm

theorem forkPd_takes (P C : Nat) (vm : Vm) :
    ∃ taken, Takes (InPage C) vm (forkPd P C vm).2 taken :=
  forkEntries_takes_page (forkTable_takes forkPt_takes P C) vm

theorem forkPdpt_takes (P C : Nat) (vm : Vm) :
    ∃ taken, Takes (InPage C) vm (forkPdpt P C vm).2 taken :=
  forkEntries_takes_page (forkTable_takes forkPd_takes P C) vm

/-- The first loop writes the upper half of the child's PML4. -/
theorem copyUpper_takes (P C : Nat) (vm : Vm) :
    Takes (InPage C) vm { vm with mem := copyWords vm.mem C P 256 256 } [] := by
  refine ⟨rfl, fun x hx => Or.inl ?_⟩
  by_contra hin
  exact hx (copyUpper_apply hin)

theorem forkAddressSpace_takes (P C : Nat) (vm : Vm) :
    ∃ taken, Takes (InPage C) vm (forkAddressSpace P C vm).2 taken := by
  rcases forkEntries_takes (forkTable_takes forkPdpt_takes P C) 256 0
    { vm with mem := copyWords vm.mem C P 256 256 } with ⟨taken, htakes⟩
  exact ⟨[] ++ taken, (copyUpper_takes P C vm).trans htakes fun x hx => Or.inl (hx.inPage (by omega))⟩

/-- The loop over the lower half leaves the upper half as it was copied. -/
theorem forkAddressSpace_upper {P C : Nat} {r : Bool} {vm vm' : Vm} (hP : Aligned P) (hC : Aligned C)
    (hPC : P ≠ C) (hok : FreeOk vm.free) (hnot : C ∉ vm.free)
    (hr : forkAddressSpace P C vm = (r, vm')) {j : Fin 512} (hj : 256 ≤ j.val) :
    child vm'.mem C j = child vm.mem P j := by
  rcases forkEntries_takes (forkTable_takes forkPdpt_takes P C) 256 0
    { vm with mem := copyWords vm.mem C P 256 256 } with ⟨taken, htakes⟩
  change Takes _ _ (forkAddressSpace P C vm).2 taken at htakes
  rw [hr] at htakes
  have hlt := j.isLt
  have hsame : pte vm'.mem C j = pte (copyWords vm.mem C P 256 256) C j := by
    apply read64_congr
    intro n hn
    by_contra hne
    rcases htakes.frame _ hne with hslots | ⟨c, hc, hin⟩
    · unfold InSlots at hslots
      omega
    · have hfree : c ∈ vm.free := htakes.taken_sub hc
      rw [Nat.add_assoc] at hin
      have hslot : InPage C (C + (8 * j.val + n)) := inPage_add (by omega)
      have heq := inPage_unique hC (hok.aligned c hfree) hslot hin
      exact hnot (heq ▸ hfree)
  rw [← child_copyWords_upper hP hC hPC hj, child, hsame, child]

/-- With the PML4 just taken, a fork writes only what was free. -/
theorem forkAddressSpace_takes_pml4 {vm vm' : Vm} {P C : Nat} {rest : List Nat} {r : Bool}
    (hfree : vm.free = C :: rest) (hr : forkAddressSpace P C ⟨vm.mem, rest⟩ = (r, vm')) :
    ∃ taken, Takes (InPage C) ⟨vm.mem, rest⟩ vm' taken ∧
      Takes (fun _ => False) vm vm' (C :: taken) := by
  rcases forkAddressSpace_takes P C ⟨vm.mem, rest⟩ with ⟨taken, htakes⟩
  rw [hr] at htakes
  have hpop : Takes (fun _ => False) vm ⟨vm.mem, rest⟩ [C] := .pop hfree fun _ _ _ => rfl
  refine ⟨taken, htakes, hpop.trans htakes ?_⟩
  intro x hx
  exact Or.inr ⟨C, List.mem_singleton_self C, hx⟩

/-- A fork has taken at least the frame of the PML4. -/
theorem fork_frames {P : Nat} {b : Bool} {vm vm' : Vm} (halloc : vm.allocPage.1 ≠ 0)
    (hspace : forkAddressSpace P vm.allocPage.1 vm.allocPage.2 = (b, vm')) :
    vm'.free.length + 1 ≤ vm.free.length := by
  rcases Vm.allocPage_of_ne halloc with ⟨c, rest, hfree, heq⟩
  rw [heq] at hspace
  rcases forkAddressSpace_takes_pml4 hfree hspace with ⟨taken, htakes, -⟩
  have hlen := congrArg List.length htakes.free
  rw [List.length_append] at hlen
  rw [hfree, List.length_cons]
  simp only at hlen
  omega

end ForkTakes

/-! ## Tables that only become more -/

section Tables

variable {D : List (Fin 512) → Prop} {cr3 f v : Nat} {vm vm' vm₁ : Vm} {taken : List Nat}

/-- The tables at the paths `D` below `cr3` are distinct, and none of them is free. -/
abbrev TablesOk (D : List (Fin 512) → Prop) (cr3 : Nat) (vm : Vm) : Prop :=
  Forest (fun _ : Unit => cr3) (fun _ => D) (fun _ => D) vm

/-- `g` is one of the tables. -/
def TableAt (D : List (Fin 512) → Prop) (cr3 : Nat) (mem : ByteMem) (g : Nat) : Prop :=
  ∃ q, D q ∧ walk (child mem) cr3 q = some g

/-- From `vm` to `vm'` tables may have been added. What was written was free or is one
of the tables, and the tables there were are where they were. -/
structure Extended (D : List (Fin 512) → Prop) (cr3 : Nat) (vm vm' : Vm) : Prop where
  tables : TablesOk D cr3 vm'
  takes : ∃ taken, Takes (fun x => ∃ g, TableAt D cr3 vm.mem g ∧ InPage g x) vm vm' taken ∧
    ∀ g, TableAt D cr3 vm'.mem g → TableAt D cr3 vm.mem g ∨ g ∈ taken
  kept : ∀ q g, D q → walk (child vm.mem) cr3 q = some g → walk (child vm'.mem) cr3 q = some g

theorem Extended.refl (h : TablesOk D cr3 vm) : Extended D cr3 vm vm where
  tables := h
  takes := ⟨[], .refl, fun _ hg => Or.inl hg⟩
  kept := fun _ _ _ hg => hg

theorem Extended.trans (h : Extended D cr3 vm vm₁) (h' : Extended D cr3 vm₁ vm') :
    Extended D cr3 vm vm' where
  tables := h'.tables
  takes := by
    rcases h.takes with ⟨taken, htakes, htables⟩
    rcases h'.takes with ⟨taken', htakes', htables'⟩
    refine ⟨taken ++ taken', htakes.trans htakes' ?_, ?_⟩
    · rintro x ⟨g, hg, hin⟩
      rcases htables g hg with hold | hnew
      · exact Or.inl ⟨g, hold, hin⟩
      · exact Or.inr ⟨g, hnew, hin⟩
    · intro g hg
      rcases htables' g hg with hmid | hnew
      · exact (htables g hmid).imp_right (List.mem_append_left _)
      · exact Or.inr (List.mem_append_right _ hnew)
  kept := fun q g hq hg => h'.kept q g hq (h.kept q g hq hg)

theorem Extended.length_le (h : Extended D cr3 vm vm') : vm'.free.length ≤ vm.free.length := by
  rcases h.takes with ⟨taken, htakes, -⟩
  rw [htakes.free, List.length_append]
  omega

/-- Writing what was free does not change the tables. -/
theorem Takes.walk_tables (ht : Takes (fun _ => False) vm vm' taken) (h : TablesOk D cr3 vm)
    {q : List (Fin 512)} (hq : D q) :
    walk (child vm'.mem) cr3 q = walk (child vm.mem) cr3 q :=
  (ht.forest h).2 () q (PrefixClosed.below (h.tracked.closed ()) hq)

theorem Takes.tableAt_iff (ht : Takes (fun _ => False) vm vm' taken) (h : TablesOk D cr3 vm)
    {g : Nat} : TableAt D cr3 vm'.mem g ↔ TableAt D cr3 vm.mem g := by
  unfold TableAt
  apply exists_congr
  intro q
  apply and_congr_right
  intro hq
  rw [ht.walk_tables h hq]

theorem Takes.extended (ht : Takes (fun _ => False) vm vm' taken) (h : TablesOk D cr3 vm) :
    Extended D cr3 vm vm' where
  tables := (ht.forest h).1
  takes := ⟨taken, ht.mono fun _ hno => hno.elim, fun _ hg => Or.inl ((ht.tableAt_iff h).mp hg)⟩
  kept := fun _ _ hq hg => (ht.walk_tables h hq).trans hg

/-- A page is taken and mapped through the tables. -/
theorem Extended.map {c flags : Nat} {rest : List Nat} (h : TablesOk D cr3 vm)
    (hup : D (upperPath v)) (hleaf : ¬ D (path v)) (hfree : vm.free = c :: rest)
    (hflags : flags % 2 = 1) : Extended D cr3 vm (mapAt cr3 v c flags ⟨vm.mem, rest⟩).2 := by
  rcases h.mapTaken (k := ()) hup hleaf hfree hflags with ⟨taken, hforest, hbuilt, -⟩
  refine ⟨hforest, ⟨c :: taken, ⟨hbuilt.free, ?_⟩, ?_⟩, ?_⟩
  · intro x hx
    rcases hbuilt.frame x hx with htaken | ⟨p, g, hp, hg, hin⟩
    · exact Or.inr htaken
    · exact Or.inl ⟨g, ⟨p, hp, hg⟩, hin⟩
  · rintro g ⟨q, hq, hg⟩
    rcases hbuilt.walks () q (PrefixClosed.below (h.tracked.closed ()) hq) with
      heq | ⟨-, -, c', hc', hw⟩
    · exact Or.inl ⟨q, hq, heq ▸ hg⟩
    · exact Or.inr (Option.some.inj (hw.symm.trans hg) ▸ hc')
  · intro q g hq hg
    exact h.mapTaken_keeps (k := ()) (l := ()) hup hleaf hfree hq hg

/-- The tables of the heap are among those at the paths `D`. -/
structure CoversHeap (D : List (Fin 512) → Prop) : Prop where
  tables : ∀ q, SlotPath HeapSlot 3 q → D q
  short : ∀ q, D q → q.length ≤ 3

theorem CoversHeap.not_path (hD : CoversHeap D) (v : Nat) : ¬ D (path v) := by
  intro hpath
  have hlen := hD.short _ hpath
  rw [length_path] at hlen
  omega

theorem GrowStep.extended (hstep : GrowStep cr3 vm vm') (h : TablesOk D cr3 vm)
    (hD : CoversHeap D) : Extended D cr3 vm vm' := by
  rcases hstep.cases h.freeOk with rfl | ⟨c, rest, v, hfree, hslot, rfl⟩
  · exact .refl h
  · have hup := hD.tables _ (slotPath_upperPath hslot)
    exact .map h hup (hD.not_path v) hfree (mapFlags_mod_two _)

/-- A growth of the heap only adds tables. -/
theorem extended_of_growth (h : TablesOk D cr3 vm) (hD : CoversHeap D)
    (hgrow : HeapGrowth cr3 vm vm') : Extended D cr3 vm vm' := by
  induction hgrow with
  | refl => exact .refl h
  | tail _ hstep ih => exact ih.trans (hstep.extended ih.tables hD)

/-- The page at `f` is neither free nor one of the tables. -/
structure Clear (D : List (Fin 512) → Prop) (cr3 : Nat) (vm : Vm) (f : Nat) : Prop where
  aligned : Aligned f
  notFree : f ∉ vm.free
  notTable : ¬ TableAt D cr3 vm.mem f

/-- Adding tables does not touch such a page. -/
theorem Clear.extended (hf : Clear D cr3 vm f) (h : TablesOk D cr3 vm)
    (hext : Extended D cr3 vm vm') :
    Clear D cr3 vm' f ∧ ∀ x, InPage f x → vm'.mem x = vm.mem x := by
  rcases hext.takes with ⟨taken, htakes, htables⟩
  refine ⟨⟨hf.aligned, fun hfree => hf.notFree (htakes.free_sub hfree), ?_⟩, ?_⟩
  · intro htable
    rcases htables f htable with hold | hnew
    · exact hf.notTable hold
    · exact hf.notFree (htakes.taken_sub hnew)
  · intro x hx
    apply htakes.page_kept h.freeOk hf.aligned hf.notFree _ hx
    rintro y hy ⟨g, ⟨q, hq, hg⟩, hin⟩
    have heq := inPage_unique hf.aligned (walk_aligned (h.aligned ()) hg) hy hin
    rw [heq] at hf
    exact hf.notTable ⟨q, hq, hg⟩

/-- A frame that was taken for something else is none of the tables. -/
theorem Takes.clear (ht : Takes (fun _ => False) vm vm' taken) (h : TablesOk D cr3 vm)
    (hf : f ∈ taken) : Clear D cr3 vm' f := by
  have hfree := ht.taken_sub hf
  refine ⟨h.freeOk.aligned f hfree, ht.not_free h.freeOk hf, ?_⟩
  rw [ht.tableAt_iff h]
  rintro ⟨q, hq, hw⟩
  exact h.fresh f hfree () q hq hw

end Tables

/-! ## Growing the heap -/

section Growth

variable {cr3 f : Nat} {vm vm' : Vm}

/-- The paths of the tables through which the heap is mapped. -/
def heapPaths (_ : Unit) (q : List (Fin 512)) : Prop := SlotPath HeapSlot 3 q

/-- These tables are distinct, and none of them is free. -/
abbrev HeapTablesOk (cr3 : Nat) (vm : Vm) : Prop :=
  Forest (fun _ : Unit => cr3) heapPaths heapPaths vm

/-- `g` is one of the tables. -/
def HeapTable (cr3 : Nat) (mem : ByteMem) (g : Nat) : Prop :=
  ∃ q, SlotPath HeapSlot 3 q ∧ walk (child mem) cr3 q = some g

theorem tracked_heapPaths : Tracked heapPaths heapPaths where
  closed := fun _ => slotPath_closed HeapSlot 3
  sub := fun _ _ h => h
  below := fun _ _ h => (slotPath_closed HeapSlot 3).below h

theorem coversHeap_slotPath : CoversHeap (SlotPath HeapSlot 3) where
  tables := fun _ h => h
  short := fun _ h => h.1

theorem heapGrowth_extended (h : HeapTablesOk cr3 vm) (hgrow : HeapGrowth cr3 vm vm') :
    Extended (SlotPath HeapSlot 3) cr3 vm vm' :=
  extended_of_growth h coversHeap_slotPath hgrow

theorem heapGrowth_takes (h : HeapTablesOk cr3 vm) (hgrow : HeapGrowth cr3 vm vm') :
    HeapTablesOk cr3 vm' ∧ ∃ taken,
      Takes (fun x => ∃ g, HeapTable cr3 vm.mem g ∧ InPage g x) vm vm' taken ∧
      ∀ g, HeapTable cr3 vm'.mem g → HeapTable cr3 vm.mem g ∨ g ∈ taken :=
  ⟨(heapGrowth_extended h hgrow).tables, (heapGrowth_extended h hgrow).takes⟩

/-- The page at `f` is neither free nor a table of the heap. -/
structure Settled (cr3 : Nat) (vm : Vm) (f : Nat) : Prop where
  aligned : Aligned f
  notFree : f ∉ vm.free
  notTable : ¬ HeapTable cr3 vm.mem f

theorem settled_iff : Settled cr3 vm f ↔ Clear (SlotPath HeapSlot 3) cr3 vm f :=
  ⟨fun h => ⟨h.aligned, h.notFree, h.notTable⟩, fun h => ⟨h.aligned, h.notFree, h.notTable⟩⟩

/-- Growing the heap does not touch such a page. -/
theorem Settled.growth (hf : Settled cr3 vm f) (h : HeapTablesOk cr3 vm)
    (hgrow : HeapGrowth cr3 vm vm') :
    Settled cr3 vm' f ∧ ∀ x, InPage f x → vm'.mem x = vm.mem x := by
  rcases (settled_iff.mp hf).extended h (heapGrowth_extended h hgrow) with ⟨hclear, hpage⟩
  exact ⟨settled_iff.mpr hclear, hpage⟩

theorem Settled.takes {taken : List Nat} (hf : Settled cr3 vm f) (h : HeapTablesOk cr3 vm)
    (ht : Takes (fun _ => False) vm vm' taken) :
    Settled cr3 vm' f ∧ ∀ x, InPage f x → vm'.mem x = vm.mem x := by
  have hext : Extended (SlotPath HeapSlot 3) cr3 vm vm' := ht.extended h
  rcases (settled_iff.mp hf).extended h hext with ⟨hclear, hpage⟩
  exact ⟨settled_iff.mpr hclear, hpage⟩

/-- A frame that was taken for something else is no table of the heap. -/
theorem Takes.settled {taken : List Nat} (ht : Takes (fun _ => False) vm vm' taken)
    (h : HeapTablesOk cr3 vm) (hf : f ∈ taken) : Settled cr3 vm' f :=
  settled_iff.mpr (ht.clear h hf)

/-- A frame that is still free after the heap grew was not written. -/
theorem heapGrowth_free (h : HeapTablesOk cr3 vm) (hgrow : HeapGrowth cr3 vm vm')
    (hf : f ∈ vm'.free) : f ∈ vm.free ∧ ∀ x, InPage f x → vm'.mem x = vm.mem x := by
  rcases heapGrowth_takes h hgrow with ⟨-, taken, htakes, -⟩
  have hfree := htakes.free_sub hf
  have hfa := h.freeOk.aligned f hfree
  refine ⟨hfree, fun x hx => ?_⟩
  by_contra hne
  have same : ∀ g, Aligned g → InPage g x → g = f := fun g hg hin =>
    inPage_unique hg hfa hin hx
  rcases htakes.frame x hne with ⟨g, ⟨q, hq, hg⟩, hin⟩ | ⟨c, hc, hin⟩
  · rw [same g (walk_aligned (h.aligned ()) hg) hin] at hg
    exact h.fresh f hfree () q hq hg
  · rw [same c (h.freeOk.aligned c (htakes.taken_sub hc)) hin] at hc
    exact htakes.not_free h.freeOk hc hf

end Growth

end Orchid
