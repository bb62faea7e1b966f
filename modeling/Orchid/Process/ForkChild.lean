import Orchid.Process.ForkCopy

/-! # The child of a fork

`sys_fork` from the call to its return, with the heap growing before the copy, for
the child's record, and after it, for the child's thread.

* `ForkReady` is the state it may start from, `ForkDone` what a success leaves.
* `sysFork_copies`: the child has all that the parent has, and the parent is as
  it was.
* `sysFork_maps_no_more_iff`: the child may have more, since nothing clears the
  user half of its PML4. It has what the entries that its frame still held lead
  to, in the slots that the parent does not use.
-/

namespace Orchid

open ByteMem Radix

/-! ## `sys_fork` -/

section SysFork

open HeapState

variable {k k' : Kernel} {live : List (Nat × Nat)} {fuel : Nat} {cur p : ProcPtr}

/-- The state a fork starts from: the heap and its tables are well formed, and the tables
and pages of the parent's user half are neither free nor tables of the heap. -/
structure ForkReady (k : Kernel) (live : List (Nat × Nat)) (P : Nat) : Prop where
  heap : (k.heapState live).Ready
  tables : HeapTablesOk k.kernelCr3 k.vm
  parent : ∀ q f, SlotPath LowerSlot 4 q → walk (child k.vm.mem) P q = some f →
    Settled k.kernelCr3 k.vm f

/-- What a fork leaves behind: the child's PML4 `C` with a copy at each slot the parent
uses, made of the frames `taken`; the parent's tables and pages as they were, and all else that
was neither free nor a table of the heap. -/
structure ForkDone (cr3 : Nat) (vm : Vm) (mem : ByteMem) (P C : Nat) (taken : List Nat)
    (part : Fin 512 → List Nat) : Prop where
  childFree : C ∈ vm.free
  takenFree : ∀ c ∈ taken, c ∈ vm.free ∧ c ≠ C
  parts : Parts part taken
  slots : ∀ j, LowerSlot j →
    SlotCopied (Mirror vm.mem mem 3) vm.mem mem P C j (pte vm.mem C j) (part j)
  parent : ∀ q f, SlotPath LowerSlot 4 q → walk (child vm.mem) P q = some f →
    ∀ x, InPage f x → mem x = vm.mem x
  settled : ∀ f, Settled cr3 vm f → ∀ x, InPage f x → mem x = vm.mem x

/-- After the heap grew for the child's record, the copy may start. -/
theorem forkStart_of_growth {vm vm₁ : Vm} {cr3 P C : Nat} {rest : List Nat}
    (htables : HeapTablesOk cr3 vm)
    (hparent : ∀ q f, SlotPath LowerSlot 4 q → walk (child vm.mem) P q = some f →
      Settled cr3 vm f)
    (hgrow : HeapGrowth cr3 vm vm₁) (hfree : vm₁.free = C :: rest) :
    ForkStart vm.mem LowerSlot 4 P C ⟨vm₁.mem, rest⟩ := by
  have hok := (heapGrowth_takes htables hgrow).1.freeOk
  have hmem : ∀ c, c ∈ vm₁.free ↔ c = C ∨ c ∈ rest := by
    intro c
    rw [hfree, List.mem_cons]
  constructor
  · intro q f hq hf
    rcases (hparent q f hq hf).growth htables hgrow with ⟨hsettled, hsame⟩
    refine ⟨fun hrest => hsettled.notFree ((hmem f).mpr (Or.inr hrest)), ?_, hsame⟩
    intro heq
    exact hsettled.notFree ((hmem f).mpr (Or.inl heq))
  · exact (hparent [] P (slotPath_nil _ _) rfl).aligned
  · exact hok.aligned C ((hmem C).mpr (Or.inl rfl))
  · exact hok.not_mem_rest hfree
  · rw [hfree] at hok
    exact hok.tail

/-- The tables of the heap, and the page `f`, after all the steps of a fork. -/
theorem forkDone_of_stages {vm vm₁ vm₂ vm' : Vm} {cr3 P C : Nat} {rest : List Nat}
    (htables : HeapTablesOk cr3 vm)
    (hparent : ∀ q f, SlotPath LowerSlot 4 q → walk (child vm.mem) P q = some f →
      Settled cr3 vm f)
    (hgrow : HeapGrowth cr3 vm vm₁) (hfree : vm₁.free = C :: rest)
    (hspace : forkAddressSpace P C ⟨vm₁.mem, rest⟩ = (true, vm₂))
    (hgrow' : HeapGrowth cr3 vm₂ vm') :
    ∃ taken part, ForkDone cr3 vm vm'.mem P C taken part := by
  have htables₁ := (heapGrowth_takes htables hgrow).1
  have hC : C ∈ vm₁.free := mem_of_eq_cons hfree
  have hnotrest : C ∉ rest := htables₁.freeOk.not_mem_rest hfree
  have hsub : ∀ c ∈ rest, c ∈ vm₁.free := by
    intro c hc
    rw [hfree]
    exact List.mem_cons_of_mem C hc
  have hstart := forkStart_of_growth htables hparent hgrow hfree
  rcases forkAddressSpace_copied hstart hspace with ⟨taken, part, htaken, hparts, hslots⟩
  rcases forkAddressSpace_takes_pml4 hfree hspace with ⟨taken', htakes, hall⟩
  obtain rfl : taken = taken' := List.append_cancel_right (htaken.symm.trans htakes.free)
  have htables₂ := (hall.forest htables₁).1
  -- the frames of the child, and what growing the heap once more does to them
  have hkept : ∀ c ∈ C :: taken, ∀ x, InPage c x → vm'.mem x = vm₂.mem x :=
    fun c hc => ((hall.settled htables₁ hc).growth htables₂ hgrow').2
  have hsettled : ∀ f, Settled cr3 vm f → ∀ x, InPage f x → vm'.mem x = vm.mem x := by
    intro f hf x hx
    rcases hf.growth htables hgrow with ⟨hf₁, hsame₁⟩
    rcases hf₁.takes htables₁ hall with ⟨hf₂, hsame₂⟩
    rw [(hf₂.growth htables₂ hgrow').2 x hx, hsame₂ x hx, hsame₁ x hx]
  refine ⟨taken, part, ?_, ?_, hparts, ?_, ?_, hsettled⟩
  · exact (heapGrowth_free htables hgrow hC).1
  · intro c hc
    have hmem : c ∈ rest := htakes.taken_sub hc
    refine ⟨(heapGrowth_free htables hgrow (hsub c hmem)).1, ?_⟩
    intro heq
    rw [heq] at hmem
    exact hnotrest hmem
  · intro j hj
    have hstale : pte vm₁.mem C j = pte vm.mem C j :=
      pte_congr (heapGrowth_free htables hgrow hC).2
    rw [← hstale]
    apply (hslots j hj).congr (pte_congr (hkept C List.mem_cons_self))
    intro old c fr heq hmirror
    have hfr : ∀ c' ∈ c :: fr, c' ∈ C :: taken := by
      intro c' hc'
      rw [← heq] at hc'
      exact List.mem_cons_of_mem C (hparts.sub j c' hc')
    apply hmirror.congr
    · exact hkept c (hfr c List.mem_cons_self)
    · intro c' hc'
      exact hkept c' (hfr c' (List.mem_cons_of_mem c hc'))
  · intro q f hq hf
    exact hsettled f (hparent q f hq hf)

theorem ForkReady.done (hcur : k.sched.currentProcess = some cur)
    (h : ForkReady k live (k.procs cur).pml4Phys) (hcall : sysFork fuel k = some (some p, k')) :
    ∃ taken part, ForkDone k.kernelCr3 k.vm k'.vm.mem (k.procs cur).pml4Phys
      (k'.procs p).pml4Phys taken part := by
  cases sysFork_outcome hcall with
  | @done cur' _ t k₁ k₂ vm hcur' hmalloc hp halloc hspace hthread =>
    obtain rfl : cur = cur' := Option.some.inj (hcur.symm.trans hcur')
    rcases Kernel.kmalloc_spec h.heap (by decide) hmalloc with ⟨hready, hgrow, hk₁⟩
    have hcr3 : k₁.kernelCr3 = k.kernelCr3 := by rw [hk₁]
    rcases Vm.allocPage_of_ne halloc with ⟨C, rest, hfree, heq⟩
    rw [heq] at hspace hthread
    rcases forkAddressSpace_takes_pml4 hfree hspace with ⟨taken, -, hall⟩
    have hlen : vm.free.length ≤ k₁.vm.free.length := by
      rw [hall.free, List.length_append]
      omega
    have hready₂ : ((forkChild p C vm k₁).heapState
        (if p = 0 then live else (p, sizeofProcess) :: live)).Ready :=
      HeapState.Ready.mono hready hlen
    rcases Kernel.threadCreateUser_spec hready₂ hthread with ⟨live', hcreated⟩
    have hpml4 : (k₂.procs p).pml4Phys = C := by
      rw [hcreated.rest]
      simp [forkChild, Kernel.modifyProc]
    have hchild : ({ k₂.modifyProc p fun r => { r with mainThread := some t, next :=
        k₂.processList } with processList := some p }.procs p).pml4Phys = C := by
      rw [← hpml4]
      simp [Kernel.modifyProc]
    rw [hchild]
    apply forkDone_of_stages h.tables h.parent hgrow.1 hfree hspace
    have hgrow₂ := hcreated.growth.1
    rw [← hcr3]
    exact hgrow₂

/-! ## The child and the parent after a fork -/

section Results

variable {cr3 : Nat} {vm : Vm} {mem : ByteMem} {taken : List Nat} {part : Fin 512 → List Nat}
  {P C v w : Nat}

/-- The slot of the PML4 that an address selects. -/
def pml4Slot (v : Nat) : Fin 512 := Fin.ofNat 512 (pml4Index v)

/-- The slots of the tables below it. -/
def lowerPath (v : Nat) : List (Fin 512) := (path v).tail

theorem path_eq_cons (v : Nat) : path v = pml4Slot v :: lowerPath v := rfl

theorem length_lowerPath (v : Nat) : (lowerPath v).length = 3 := by
  rw [lowerPath, List.length_tail, length_path]

theorem lowerSlot_of_lt (hv : pml4Index v < 256) : LowerSlot (pml4Slot v) := by
  unfold LowerSlot pml4Slot
  rw [val_ofNat_pml4]
  exact hv

theorem slotPath_lower (hv : pml4Index v < 256) : SlotPath LowerSlot 4 (path v) := by
  rw [path_eq_cons, slotPath_cons, length_lowerPath]
  exact ⟨Nat.le_refl _, lowerSlot_of_lt hv⟩

/-- The copy behind a slot that the parent uses. -/
theorem ForkDone.mirror (h : ForkDone cr3 vm mem P C taken part) {j : Fin 512} {old : Nat}
    (hj : LowerSlot j) (hold : child vm.mem P j = some old) :
    ∃ c rest, child mem C j = some c ∧ part j = c :: rest ∧ Mirror vm.mem mem 3 old c rest := by
  have hslot := h.slots j hj
  rw [SlotCopied, hold] at hslot
  rcases hslot with ⟨c, rest, hpart, -, hchild, hmirror⟩
  exact ⟨c, rest, hchild, hpart, hmirror⟩

theorem ForkDone.pageCopied (h : ForkDone cr3 vm mem P C taken part) {f : Nat}
    (hv : pml4Index v < 256) (hf : walk (child vm.mem) P (path v) = some f) :
    ∃ c ∈ vm.free, PageCopied vm.mem mem P C (path v) f c := by
  rw [path_eq_cons] at hf ⊢
  rcases (h.slots _ (lowerSlot_of_lt hv)).pageCopied hf
    (fun old c rest hm hw => hm.pageCopied (length_lowerPath v) hw) with ⟨c, hcopied, hmem⟩
  exact ⟨c, (h.takenFree c (h.parts.sub _ c hmem)).1, hcopied⟩

/-- Two pages of the parent are not copied to one frame. -/
theorem ForkDone.page_inj (h : ForkDone cr3 vm mem P C taken part) {f g c : Nat}
    (hv : pml4Index v < 256) (hw : pml4Index w < 256)
    (hf : walk (child vm.mem) P (path v) = some f) (hg : walk (child vm.mem) P (path w) = some g)
    (hc : walk (child mem) C (path v) = some c) (hc' : walk (child mem) C (path w) = some c) :
    pageOf v = pageOf w := by
  rw [← path_eq_iff, path_eq_cons, path_eq_cons]
  have below : ∀ {u f}, pml4Index u < 256 → walk (child vm.mem) P (path u) = some f →
      walk (child mem) C (path u) = some c → ∃ old c₀ rest, child mem C (pml4Slot u) = some c₀ ∧
        part (pml4Slot u) = c₀ :: rest ∧ Mirror vm.mem mem 3 old c₀ rest ∧
        walk (child mem) c₀ (lowerPath u) = some c := by
    intro u f hu hf hc
    rw [path_eq_cons, walk_cons] at hf hc
    cases hold : child vm.mem P (pml4Slot u) with
    | none =>
      rw [hold] at hf
      cases hf
    | some old =>
      rcases h.mirror (lowerSlot_of_lt hu) hold with ⟨c₀, rest, hchild, hpart, hmirror⟩
      rw [hchild] at hc
      exact ⟨old, c₀, rest, hchild, hpart, hmirror, hc⟩
  rcases below hv hf hc with ⟨old, c₀, rest, hchild, hpart, hmirror, hwalk⟩
  rcases below hw hg hc' with ⟨old', c₀', rest', hchild', hpart', hmirror', hwalk'⟩
  have hslot : pml4Slot v = pml4Slot w := by
    apply h.parts.apart _ _ c
    · rw [hpart]
      exact hmirror.mem_cons (length_lowerPath v).le hwalk
    · rw [hpart']
      exact hmirror'.mem_cons (length_lowerPath w).le hwalk'
  rw [hslot] at hchild hpart
  obtain rfl : c₀ = c₀' := Option.some.inj (hchild.symm.trans hchild')
  have hnodup := h.parts.nodup (pml4Slot w)
  rw [hpart] at hnodup
  rw [hslot, hmirror.walk_inj (List.nodup_cons.mp hnodup).1 (length_lowerPath v).le
    (length_lowerPath w).le hwalk hwalk']

/-- The parent's user half is as it was. -/
theorem ForkDone.parent_walk (h : ForkDone cr3 vm mem P C taken part) (hv : pml4Index v < 256) :
    walk (child mem) P (path v) = walk (child vm.mem) P (path v) := by
  apply walk_congr
  intro p j q g heq hg
  apply child_congr
  apply h.parent p g _ hg
  have hpath := slotPath_lower hv
  rw [heq] at hpath
  refine hpath.left ?_
  have hlen := hpath.1
  rw [List.length_append] at hlen
  omega

/-- A slot that the parent does not use is what it was in the frame before. -/
theorem ForkDone.child_stale (h : ForkDone cr3 vm mem P C taken part) {j : Fin 512}
    (hj : LowerSlot j) (hnone : child vm.mem P j = none) : child mem C j = child vm.mem C j := by
  have hslot := h.slots j hj
  rw [SlotCopied, hnone] at hslot
  rw [child, hslot.2, child]

/-- What a walk from the frame `C` meets in the slots that the parent does not use is neither
free nor a table of the heap. -/
def StaleSettled (cr3 : Nat) (vm : Vm) (P C : Nat) : Prop :=
  ∀ j q f, LowerSlot j → child vm.mem P j = none → q.length ≤ 2 →
    walk (child vm.mem) C (j :: q) = some f → Settled cr3 vm f

/-- Then there the child's PML4 leads where the frame led before. -/
theorem ForkDone.walk_stale (h : ForkDone cr3 vm mem P C taken part) (hv : pml4Index v < 256)
    (hnone : child vm.mem P (pml4Slot v) = none) (hstale : StaleSettled cr3 vm P C) :
    walk (child mem) C (path v) = walk (child vm.mem) C (path v) := by
  rw [path_eq_cons]
  apply walk_congr
  intro q j q' g hsplit hg
  cases q with
  | nil =>
    -- the PML4 itself, which the fork does not clear
    cases hsplit
    cases hg
    exact h.child_stale (lowerSlot_of_lt hv) hnone
  | cons i q =>
    rw [List.cons_append, List.cons.injEq] at hsplit
    rcases hsplit with ⟨rfl, hlower⟩
    have hlen := length_lowerPath v
    rw [hlower, List.length_append, List.length_cons] at hlen
    apply child_congr
    exact h.settled g (hstale _ q g (lowerSlot_of_lt hv) hnone (by omega) hg)

/-- A slot that the parent uses has nothing that the parent does not have. -/
theorem ForkDone.walk_back (h : ForkDone cr3 vm mem P C taken part) (hv : pml4Index v < 256)
    {old c : Nat} (hold : child vm.mem P (pml4Slot v) = some old)
    (hc : walk (child mem) C (path v) = some c) :
    ∃ f, walk (child vm.mem) P (path v) = some f := by
  rcases h.mirror (lowerSlot_of_lt hv) hold with ⟨c₀, rest, hchild, -, hmirror⟩
  rw [path_eq_cons, walk_cons, hchild] at hc
  rcases (hmirror.walk_back (length_lowerPath v).le hc).1 with ⟨f, hf⟩
  refine ⟨f, ?_⟩
  rw [path_eq_cons, walk_cons, hold]
  exact hf

end Results

/-- A fork copies every page of the parent's user half into a frame that was free, with the
same flags at all levels, different pages into different frames; and the parent's user
half translates as before and holds what it held. -/
theorem sysFork_copies (hcur : k.sched.currentProcess = some cur)
    (h : ForkReady k live (k.procs cur).pml4Phys) (hcall : sysFork fuel k = some (some p, k')) :
    (∀ v f, pml4Index v < 256 →
      walk (child k.vm.mem) (k.procs cur).pml4Phys (path v) = some f →
      (∃ c ∈ k.vm.free, PageCopied k.vm.mem k'.vm.mem (k.procs cur).pml4Phys
        (k'.procs p).pml4Phys (path v) f c) ∧
      ∀ n < 4096, k'.vm.mem (f + n) = k.vm.mem (f + n)) ∧
    (∀ v w f g c, pml4Index v < 256 → pml4Index w < 256 →
      walk (child k.vm.mem) (k.procs cur).pml4Phys (path v) = some f →
      walk (child k.vm.mem) (k.procs cur).pml4Phys (path w) = some g →
      walk (child k'.vm.mem) (k'.procs p).pml4Phys (path v) = some c →
      walk (child k'.vm.mem) (k'.procs p).pml4Phys (path w) = some c → pageOf v = pageOf w) ∧
    ∀ v, pml4Index v < 256 → userVirtToPhys k'.vm.mem (k.procs cur).pml4Phys v =
      userVirtToPhys k.vm.mem (k.procs cur).pml4Phys v := by
  rcases h.done hcur hcall with ⟨taken, part, hdone⟩
  refine ⟨?_, ?_, ?_⟩
  · intro v f hv hf
    refine ⟨hdone.pageCopied hv hf, ?_⟩
    intro n hn
    exact hdone.parent _ f (slotPath_lower hv) hf _ (inPage_add hn)
  · intro v w f g c hv hw hf hg hc hc'
    exact hdone.page_inj hv hw hf hg hc hc'
  · intro v hv
    rw [userVirtToPhys, userVirtToPhys, lookup_eq_walk, lookup_eq_walk, hdone.parent_walk hv]

/-- A fork gives the child nothing that the parent does not have exactly if the entries that
the frame of the child's PML4 held before the call lead to no page, in the slots that the
parent does not use. The tables that such an entry leads to are not free, so that the fork
does not write to them; where no such entry is present, nothing is asked. -/
theorem sysFork_maps_no_more_iff (hcur : k.sched.currentProcess = some cur)
    (h : ForkReady k live (k.procs cur).pml4Phys) (hcall : sysFork fuel k = some (some p, k'))
    (hstale : StaleSettled k.kernelCr3 k.vm (k.procs cur).pml4Phys (k'.procs p).pml4Phys) :
    (∀ v, pml4Index v < 256 → walk (child k.vm.mem) (k.procs cur).pml4Phys (path v) = none →
      walk (child k'.vm.mem) (k'.procs p).pml4Phys (path v) = none) ↔
    ∀ v, pml4Index v < 256 → child k.vm.mem (k.procs cur).pml4Phys (pml4Slot v) = none →
      walk (child k.vm.mem) (k'.procs p).pml4Phys (path v) = none := by
  rcases h.done hcur hcall with ⟨taken, part, hdone⟩
  constructor
  · intro hno v hv hempty
    have hparent : walk (child k.vm.mem) (k.procs cur).pml4Phys (path v) = none := by
      rw [path_eq_cons, walk_cons, hempty]
      rfl
    rw [← hdone.walk_stale hv hempty hstale]
    exact hno v hv hparent
  · intro hempty v hv hparent
    cases hold : child k.vm.mem (k.procs cur).pml4Phys (pml4Slot v) with
    | none =>
      rw [hdone.walk_stale hv hold hstale]
      exact hempty v hv hold
    | some old =>
      -- below a slot that is copied there is only what the parent has
      cases hc : walk (child k'.vm.mem) (k'.procs p).pml4Phys (path v) with
      | none => rfl
      | some c =>
        rcases hdone.walk_back hv hold hc with ⟨f, hf⟩
        rw [hparent] at hf
        cases hf

/-! ## A kernel about to fork -/

/-- Six free frames. -/
def sixPages : List Nat := [0x10000, 0x11000, 0x12000, 0x13000, 0x14000, 0x15000]

theorem freeOk_sixPages : FreeOk sixPages := ⟨by decide, by decide, by decide, by decide⟩

/-- A kernel with PML4 0x1000 and `n` of the free frames, in which a process with PML4
0x2000 is running. -/
def forkKernel (mem : ByteMem) (n : Nat) : Kernel :=
  { bootKernel ⟨mem, sixPages.take n⟩ with
    sched := { (bootKernel ⟨mem, sixPages⟩).sched with currentProcess := some 7 }
    procs := fun _ => ⟨1, 0x2000, none, none⟩ }

/-- The memory has no heap tables, and the process has its frames below 0x10000. -/
structure PlainMemory (mem : ByteMem) : Prop where
  kernel : ∀ i, child mem 0x1000 i = none
  parent : ∀ q f, walk (child mem) 0x2000 q = some f → Aligned f ∧ 0x2000 ≤ f ∧ f < 0x10000

variable {mem : ByteMem} {n : Nat}

theorem freeOk_take (n : Nat) : FreeOk (sixPages.take n) where
  nodup := freeOk_sixPages.nodup.sublist (List.take_sublist n _)
  nonzero := fun c hc => freeOk_sixPages.nonzero c (List.mem_of_mem_take hc)
  aligned := fun c hc => freeOk_sixPages.aligned c (List.mem_of_mem_take hc)
  small := fun c hc => freeOk_sixPages.small c (List.mem_of_mem_take hc)

theorem notMem_take {f : Nat} (hf : f < 0x10000) : f ∉ sixPages.take n := by
  intro hmem
  have hall := List.mem_of_mem_take hmem
  simp only [sixPages, List.mem_cons, List.not_mem_nil, or_false] at hall
  omega

theorem length_take_le (n : Nat) : (sixPages.take n).length ≤ maxFreeList := by
  have hle : (sixPages.take n).length ≤ 6 := List.length_take_le' n sixPages
  have hmax : 6 ≤ maxFreeList := by decide
  omega

theorem PlainMemory.heapTablesOk (h : PlainMemory mem) :
    HeapTablesOk 0x1000 ⟨mem, sixPages.take n⟩ := by
  have hforest := @forest_empty ⟨mem, sixPages.take n⟩ 0x1000 (by decide) h.kernel (freeOk_take n)
    (notMem_take (by decide))
  exact hforest.retrack tracked_heapPaths fun _ _ _ => Or.inl trivial

theorem PlainMemory.settled (h : PlainMemory mem) {q : List (Fin 512)} {f : Nat}
    (hf : walk (child mem) 0x2000 q = some f) : Settled 0x1000 ⟨mem, sixPages.take n⟩ f := by
  rcases h.parent q f hf with ⟨hfa, hlo, hhi⟩
  refine ⟨hfa, notMem_take hhi, ?_⟩
  rintro ⟨q', -, hw⟩
  cases q' with
  | nil =>
    obtain rfl : 0x1000 = f := Option.some.inj hw
    omega
  | cons i q' =>
    rw [walk_cons, h.kernel i] at hw
    cases hw

theorem spare_forkKernel : ((forkKernel mem n).heapState []).Spare
    (heapInitialPages * pageSize - headerSize) 1 :=
  freshHeap_spare (length_take_le n)

theorem PlainMemory.forkReady (h : PlainMemory mem) :
    ForkReady (forkKernel mem n) [] ((forkKernel mem n).procs 7).pml4Phys where
  heap := spare_forkKernel.ready
  tables := h.heapTablesOk
  parent := fun _ _ _ hf => h.settled hf

/-- The copy begins, with the first frame as the child's PML4. -/
theorem PlainMemory.forkStart (h : PlainMemory mem) {rest : List Nat}
    (hfree : sixPages.take n = 0x10000 :: rest) :
    ForkStart mem LowerSlot 4 0x2000 0x10000 ⟨mem, rest⟩ :=
  forkStart_of_growth h.heapTablesOk (fun _ _ _ hf => h.settled hf) .refl hfree

/-- With a frame for the PML4 and at most five for the copy, the fork succeeds,
whatever the scheduler does and wherever the process was called. -/
theorem PlainMemory.fork_sched (h : PlainMemory mem) (hcost : forkCost mem 0x2000 ≤ 5)
    (s : Sched) (rip : Nat) (hcur : s.currentProcess = some 7) :
    ∃ p k', sysFork 8 { forkKernel mem 6 with sched := s, savedUserRip := rip } =
        some (some p, k') ∧
      (k'.procs p).pml4Phys = 0x10000 := by
  have hfree : sixPages.take 6 = 0x10000 :: sixPages.tail := rfl
  rcases (forkAddressSpace_affords (h.forkStart hfree)).enough hcost with ⟨hflag, hlen⟩
  rcases hspace : forkAddressSpace 0x2000 0x10000 ⟨mem, sixPages.tail⟩ with ⟨r, vm⟩
  rw [hspace] at hflag hlen
  obtain rfl : r = true := hflag
  have hshort : vm.free.length ≤ sixPages.tail.length := by
    simp only at hlen
    omega
  have hfuel : 1 + 2 < 8 := by omega
  have hspare : (Kernel.heapState { forkKernel mem 6 with
      sched := s, savedUserRip := rip } []).Spare _ _ := spare_forkKernel
  have hcur' : { forkKernel mem 6 with
      sched := s, savedUserRip := rip }.sched.currentProcess = some 7 := hcur
  rcases sysFork_of_spare hcur' hfree (by decide) hspace hshort hspare (by decide) hfuel
    with ⟨p, k', -, hcall, hpml4, -⟩
  exact ⟨p, k', hcall, hpml4⟩

theorem PlainMemory.fork (h : PlainMemory mem) (hcost : forkCost mem 0x2000 ≤ 5) :
    ∃ p k', sysFork 8 (forkKernel mem 6) = some (some p, k') ∧
      (k'.procs p).pml4Phys = 0x10000 :=
  h.fork_sched hcost (forkKernel mem 6).sched 0 rfl

/-- The first entry of the table `f` leads to `g`. -/
def linkFirst (mem : ByteMem) (f g : Nat) : ByteMem :=
  write64 mem (f + 8 * (0 : Fin 512).val) (makeEntry g userPageFlags)

theorem child_linkFirst {f g x : Nat} (hf : Aligned f) (hg : Aligned g) (hsmall : g < 2 ^ 52)
    (hx : Aligned x) (j : Fin 512) :
    child (linkFirst mem f g) x j = if x = f ∧ j = 0 then some g else child mem x j := by
  rw [linkFirst, child_write64 hf hx (makeEntry_lt _ _), Radix.set,
    decode_makeEntry hg hsmall (by decide)]

/-- A process that has the page at address 0, and nothing else. -/
def onePageMem : ByteMem :=
  linkFirst (linkFirst (linkFirst (linkFirst (fun _ => 0) 0x2000 0x3000) 0x3000 0x4000) 0x4000 0x5000)
    0x5000 0x6000

theorem child_onePageMem {x : Nat} (hx : Aligned x) (j : Fin 512) : child onePageMem x j =
    if j = 0 ∧ (x = 0x2000 ∨ x = 0x3000 ∨ x = 0x4000 ∨ x = 0x5000) then some (x + 0x1000)
    else none := by
  rw [onePageMem, child_linkFirst (by decide) (by decide) (by decide) hx,
    child_linkFirst (by decide) (by decide) (by decide) hx,
    child_linkFirst (by decide) (by decide) (by decide) hx,
    child_linkFirst (by decide) (by decide) (by decide) hx, child_zero]
  by_cases hj : j = 0
  · simp only [hj, and_true, true_and]
    split_ifs <;> simp_all
  · simp [hj]

theorem plainMemory_onePageMem : PlainMemory onePageMem where
  kernel := by
    intro i
    rw [child_onePageMem (by decide), if_neg (by simp)]
  parent := by
    -- from a table below 0x6000 the walk goes up by one page at a time
    have hwalk : ∀ (q : List (Fin 512)) x f, Aligned x → 0x2000 ≤ x → x < 0x10000 →
        walk (child onePageMem) x q = some f → Aligned f ∧ 0x2000 ≤ f ∧ f < 0x10000 := by
      intro q
      induction q with
      | nil =>
        intro x f hx hlo hhi hf
        cases hf
        exact ⟨hx, hlo, hhi⟩
      | cons i q ih =>
        intro x f hx hlo hhi hf
        rw [walk_cons, child_onePageMem hx] at hf
        split at hf
        · next htable =>
          apply ih (x + 0x1000) f _ _ _ hf
          · unfold Aligned at hx ⊢
            omega
          · omega
          · omega
        · cases hf
    intro q f hf
    exact hwalk q 0x2000 f (by decide) (by omega) (by omega) hf

theorem child_onePageMem_first {x : Nat}
    (hx : x = 0x2000 ∨ x = 0x3000 ∨ x = 0x4000 ∨ x = 0x5000) :
    child onePageMem x 0 = some (x + 0x1000) := by
  have ha : Aligned x := by
    unfold Aligned
    omega
  rw [child_onePageMem ha, if_pos ⟨rfl, hx⟩]

theorem cost_onePageMem : forkCost onePageMem 0x2000 = 4 := by
  -- from the page upwards: a level costs one frame more than the level below it
  have hlevel : ∀ {below : Nat → Nat} {n x m}, 0 < n → n ≤ 512 →
      (x = 0x2000 ∨ x = 0x3000 ∨ x = 0x4000 ∨ x = 0x5000) → below (x + 0x1000) = m →
      loopCost (slotCost below onePageMem x) 0 n = 1 + m := by
    intro below n x m hpos hn htable hbelow
    have ha : Aligned x := by
      unfold Aligned
      omega
    rw [← hbelow]
    apply loopCost_single hpos hn (child_onePageMem_first htable)
    intro j hj
    rw [child_onePageMem ha, if_neg (fun h => hj h.1)]
  have hpage : copyCost onePageMem 0 0x6000 = 0 := by rw [copyCost]
  have hpt : copyCost onePageMem 1 0x5000 = 1 := by
    rw [copyCost]
    exact hlevel (by omega) (by omega) (by omega) hpage
  have hpd : copyCost onePageMem 2 0x4000 = 2 := by
    rw [copyCost]
    exact hlevel (by omega) (by omega) (by omega) hpt
  have hpdpt : copyCost onePageMem 3 0x3000 = 3 := by
    rw [copyCost]
    exact hlevel (by omega) (by omega) (by omega) hpd
  rw [forkCost]
  exact hlevel (by omega) (by omega) (by omega) hpdpt

theorem walk_onePageMem : walk (child onePageMem) 0x2000 (path 0) = some 0x6000 := by
  have hpath : path 0 = [0, 0, 0, 0] := by decide
  have hpml4 : child onePageMem 0x2000 0 = some 0x3000 := child_onePageMem_first (by decide)
  have hpdpt : child onePageMem 0x3000 0 = some 0x4000 := child_onePageMem_first (by decide)
  have hpd : child onePageMem 0x4000 0 = some 0x5000 := child_onePageMem_first (by decide)
  have hpt : child onePageMem 0x5000 0 = some 0x6000 := child_onePageMem_first (by decide)
  simp only [hpath, walk_cons, hpml4, hpdpt, hpd, hpt, Option.bind_some]
  rfl

/-- The fork of a process with one page. -/
theorem sysFork_copies_onePage : ∃ p k', sysFork 8 (forkKernel onePageMem 6) = some (some p, k') ∧
    ∃ c ∈ sixPages, PageCopied onePageMem k'.vm.mem 0x2000 (k'.procs p).pml4Phys (path 0)
      0x6000 c := by
  rcases plainMemory_onePageMem.fork (by rw [cost_onePageMem]; omega) with ⟨p, k', hcall, -⟩
  have hcur : (forkKernel onePageMem 6).sched.currentProcess = some 7 := rfl
  have hcopies := sysFork_copies hcur plainMemory_onePageMem.forkReady hcall
  exact ⟨p, k', hcall, (hcopies.1 0 0x6000 (by decide) walk_onePageMem).1⟩

/-- A process without any page, and a free frame whose first entry still leads to `g`. -/
def staleMem (g : Nat) : ByteMem := linkFirst (fun _ => 0) 0x10000 g

section Stale

variable {g : Nat} (hg : Aligned g) (hsmall : g < 2 ^ 52)

include hg hsmall

theorem child_staleMem {x : Nat} (hx : Aligned x) (j : Fin 512) :
    child (staleMem g) x j = if x = 0x10000 ∧ j = 0 then some g else none := by
  rw [staleMem, child_linkFirst (by decide) hg hsmall hx, child_zero]

theorem child_staleMem_below {x : Nat} (hx : Aligned x) (hlt : x < 0x10000) (j : Fin 512) :
    child (staleMem g) x j = none := by
  rw [child_staleMem hg hsmall hx, if_neg]
  rintro ⟨heq, -⟩
  omega

theorem plainMemory_staleMem : PlainMemory (staleMem g) where
  kernel := child_staleMem_below hg hsmall (by decide) (by decide)
  parent := by
    intro q f hf
    cases q with
    | nil =>
      cases hf
      decide
    | cons i q =>
      rw [walk_cons, child_staleMem_below hg hsmall (by decide) (by decide)] at hf
      cases hf

theorem fork_staleMem : ∃ p k', sysFork 8 (forkKernel (staleMem g) 6) = some (some p, k') ∧
    (k'.procs p).pml4Phys = 0x10000 := by
  have hcost : forkCost (staleMem g) 0x2000 = 0 := by
    apply loopCost_zero
    intro j _ hj
    exact slotCost_of_none (i := ⟨j, by omega⟩)
      (child_staleMem_below hg hsmall (by decide) (by decide) _)
  exact (plainMemory_staleMem hg hsmall).fork (by rw [hcost]; omega)

end Stale

/-- The entry leads to a table that an earlier fork has lost, which is empty: the child has
nothing more than the parent. -/
theorem sysFork_maps_no_more_lost : ∃ p k',
    sysFork 8 (forkKernel (staleMem 0x8000) 6) = some (some p, k') ∧
    child (staleMem 0x8000) (k'.procs p).pml4Phys 0 = some 0x8000 ∧
    ∀ v, pml4Index v < 256 → walk (child (staleMem 0x8000)) 0x2000 (path v) = none →
      walk (child k'.vm.mem) (k'.procs p).pml4Phys (path v) = none := by
  have hplain : PlainMemory (staleMem 0x8000) := plainMemory_staleMem (by decide) (by decide)
  rcases @fork_staleMem 0x8000 (by decide) (by decide) with ⟨p, k', hcall, hpml4⟩
  have hchild : ∀ x, Aligned x → ∀ j, child (staleMem 0x8000) x j =
      if x = 0x10000 ∧ j = 0 then some 0x8000 else none :=
    fun x hx j => child_staleMem (by decide) (by decide) hx j
  have hfirst : child (staleMem 0x8000) 0x10000 0 = some 0x8000 := by
    rw [hchild _ (by decide), if_pos ⟨rfl, rfl⟩]
  -- the lost table is the only one that the entries lead to
  have hwalk : ∀ j q f, walk (child (staleMem 0x8000)) 0x10000 (j :: q) = some f →
      q = [] ∧ f = 0x8000 := by
    intro j q f hf
    rw [walk_cons, hchild _ (by decide)] at hf
    split at hf
    · rw [Option.bind_some] at hf
      cases q with
      | nil =>
        cases hf
        exact ⟨rfl, rfl⟩
      | cons i q =>
        rw [walk_cons, hchild _ (by decide), if_neg (fun h => absurd h.1 (by decide))] at hf
        cases hf
    · cases hf
  have hstale : StaleSettled 0x1000 ⟨staleMem 0x8000, sixPages.take 6⟩ 0x2000 0x10000 := by
    intro j q f _ _ _ hf
    rw [(hwalk j q f hf).2]
    refine ⟨by decide, notMem_take (by decide), ?_⟩
    rintro ⟨q', -, hw⟩
    cases q' with
    | nil => cases hw
    | cons i q' =>
      rw [walk_cons, hplain.kernel i] at hw
      cases hw
  refine ⟨p, k', hcall, ?_, ?_⟩
  · rw [hpml4]
    exact hfirst
  · have hcur : (forkKernel (staleMem 0x8000) 6).sched.currentProcess = some 7 := rfl
    rw [← hpml4] at hstale
    apply (sysFork_maps_no_more_iff hcur hplain.forkReady hcall hstale).mpr
    intro v _ _
    cases hw : walk (child (staleMem 0x8000)) (k'.procs p).pml4Phys (path v) with
    | none => exact hw
    | some f =>
      rw [hpml4, path_eq_cons] at hw
      have hlen := length_lowerPath v
      rw [(hwalk _ _ f hw).1] at hlen
      cases hlen

/-- The entry leads to the frame itself: a process without any page forks, and the child has
its own PML4 mapped at address 0. -/
theorem sysFork_maps_stale : ∃ p k', sysFork 8 (forkKernel (staleMem 0x10000) 6) = some (some p, k') ∧
    walk (child (staleMem 0x10000)) 0x2000 (path 0) = none ∧
    walk (child k'.vm.mem) (k'.procs p).pml4Phys (path 0) = some 0x10000 := by
  have hparent : child (staleMem 0x10000) 0x2000 0 = none :=
    child_staleMem_below (by decide) (by decide) (by decide) (by decide) 0
  have hplain : PlainMemory (staleMem 0x10000) := plainMemory_staleMem (by decide) (by decide)
  rcases @fork_staleMem 0x10000 (by decide) (by decide) with ⟨p, k', hcall, hpml4⟩
  rcases hplain.forkReady.done rfl hcall with ⟨taken, part, hdone⟩
  have hpath : path 0 = [0, 0, 0, 0] := by decide
  rw [hpml4] at hdone
  have hself : child k'.vm.mem 0x10000 0 = some 0x10000 := by
    rw [hdone.child_stale (by decide) hparent]
    show child (staleMem 0x10000) 0x10000 0 = some 0x10000
    rw [child_staleMem (by decide) (by decide) (by decide), if_pos ⟨rfl, rfl⟩]
  refine ⟨p, k', hcall, ?_, ?_⟩
  · rw [hpath, walk_cons, hparent]
    rfl
  · rw [hpml4, hpath]
    simp only [walk_cons, hself, Option.bind_some]
    rfl

end SysFork

end Orchid
