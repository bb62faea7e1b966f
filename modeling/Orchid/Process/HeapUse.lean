import Orchid.Memory.HeapCoalesced
import Orchid.Process.Kernel

/-! # The heap as the process code uses it

`kmalloc`, `kfree` and `thread_create_user` on the kernel's state, by what they
mean for the other parts of the kernel:

* the live allocations stay as they are, and a new pointer is none of them;
* outside the heap's own memory only heap growths happen to the page tables;
* with room in the heap the calls succeed.
-/

namespace Orchid

open ByteMem HeapState Relation

theorem freePage_length (a : Nat) (vm : Vm) :
    (vm.freePage a).free.length ≤ vm.free.length + 1 := by
  unfold Vm.freePage pmmFreePage
  simp only
  split
  · rw [List.length_cons]
  · omega

/-- A full stack drops the page. -/
theorem freePage_few {vm : Vm} (a : Nat) (hfew : vm.free.length ≤ maxFreeList) :
    (vm.freePage a).free.length ≤ maxFreeList := by
  unfold Vm.freePage pmmFreePage
  simp only
  split
  · rw [List.length_cons]
    omega
  · exact hfew

/-- A page may be given back if there is room for it in the heap's window. -/
theorem HeapState.Ready.freePage {h : Heap} {vm : Vm} {live : List (Nat × Nat)} {a : Nat}
    (hs : Ready ⟨h, vm, live⟩) (hroom : reach h vm + 4096 ≤ heapStartVirt + 2 ^ 39) :
    Ready ⟨h, vm.freePage a, live⟩ := by
  refine ⟨hs.1, ?_, hs.2.2⟩
  have hlen := freePage_length a vm
  unfold HasRoom reach at *
  simp only
  omega

namespace Kernel

/-- The heap of `k`, with `live` in use. -/
def heapState (k : Kernel) (live : List (Nat × Nat)) : HeapState := ⟨k.heap, k.vm, live⟩

variable {k k' : Kernel} {live : List (Nat × Nat)} {fuel n p m len : Nat}

theorem kmalloc_eq_some (h : k.kmalloc fuel n = some (p, k')) :
    Orchid.kmalloc k.kernelCr3 fuel n k.heap k.vm = some (p, k'.heap, k'.vm) ∧
      k' = { k with heap := k'.heap, vm := k'.vm } := by
  unfold Kernel.kmalloc at h
  obtain ⟨⟨q, heap, vm⟩, hcall, heq⟩ := Option.map_eq_some_iff.mp h
  obtain ⟨rfl, rfl⟩ := Prod.mk.inj heq
  exact ⟨hcall, rfl⟩

theorem kmalloc_procs (h : k.kmalloc fuel n = some (p, k')) : k'.procs = k.procs := by
  rw [(kmalloc_eq_some h).2]

theorem kmalloc_sched (h : k.kmalloc fuel n = some (p, k')) : k'.sched = k.sched := by
  rw [(kmalloc_eq_some h).2]

theorem kfree_rest (h : k.kfree fuel p = some k') : k' = { k with heap := k'.heap } := by
  rcases Option.map_eq_some_iff.mp h with ⟨heap, -, rfl⟩
  rfl

/-- Between `k` and `k'` the heap grew by pages that were free, and nothing else
happened to the page tables. -/
def Grows (k k' : Kernel) : Prop :=
  HeapGrowth k.kernelCr3 k.vm k'.vm ∧ reach k'.heap k'.vm ≤ reach k.heap k.vm

/-- `kmalloc` keeps what is live and adds what it returns, with `m` of the bytes it has. -/
theorem kmallocBytes_spec (hs : (k.heapState live).Ready) (hm : m ≤ roundUp n)
    (h : k.kmalloc fuel n = some (p, k')) :
    (k'.heapState (if p = 0 then live else (p, m) :: live)).Ready ∧ k.Grows k' ∧
      k' = { k with heap := k'.heap, vm := k'.vm } := by
  obtain ⟨hcall, hk'⟩ := kmalloc_eq_some h
  exact ⟨(HeapState.Inv.mallocBytes (.inr hs) hm hcall).1, hs.growth hcall, hk'⟩

/-- A request that does not wrap gets all its bytes. -/
theorem kmalloc_spec (hs : (k.heapState live).Ready) (hn : n ≤ 2 ^ 20)
    (h : k.kmalloc fuel n = some (p, k')) :
    (k'.heapState (if p = 0 then live else (p, n) :: live)).Ready ∧ k.Grows k' ∧
      k' = { k with heap := k'.heap, vm := k'.vm } :=
  kmallocBytes_spec hs (roundUp_spec hn).2 h

/-- The newest allocation is none of those before. -/
theorem newest_notMem (hs : (k.heapState ((p, n) :: live)).Ready) : p ∉ live.map Prod.fst := by
  rcases hs with ⟨-, -, bs, -, hl⟩
  exact (List.nodup_cons.mp hl.nodup).1

/-- Without the newest allocation the ones before are left. -/
theorem filter_newest (hnodup : (((p, n) :: live).map Prod.fst).Nodup) :
    ((p, n) :: live).filter (fun e => e.1 ≠ p) = live := by
  rw [List.map_cons, List.nodup_cons] at hnodup
  rw [List.filter_cons_of_neg (by simp), List.filter_eq_self]
  intro e he
  have hne : e.1 ≠ p := by
    intro heq
    exact hnodup.1 (List.mem_map.mpr ⟨e, he, heq⟩)
  simpa using hne

/-- `kfree` of something live leaves the other allocations. -/
theorem kfree_live (hs : (k.heapState live).Ready) (hp : (p, n) ∈ live)
    (h : k.kfree fuel p = some k') :
    (k'.heapState (live.filter fun e => e.1 ≠ p)).Ready ∧ k' = { k with heap := k'.heap } := by
  unfold Kernel.kfree at h
  obtain ⟨heap, hcall, rfl⟩ := Option.map_eq_some_iff.mp h
  have hmem : (p, n) ∈ (k.heapState live).live := hp
  exact ⟨((hs.free hmem).2 _ _ hcall).1, rfl⟩

/-- `kfree` of the newest allocation leaves the ones before. -/
theorem kfree_spec (hs : (k.heapState ((p, n) :: live)).Ready) (h : k.kfree fuel p = some k') :
    (k'.heapState live).Ready ∧ k' = { k with heap := k'.heap } := by
  rcases kfree_live hs List.mem_cons_self h with ⟨hready, hk'⟩
  obtain ⟨-, -, bs, -, hl⟩ := hs
  rw [filter_newest hl.nodup] at hready
  exact ⟨hready, hk'⟩

theorem kfree_endVirt (h : k.kfree fuel p = some k') : k'.heap.endVirt = k.heap.endVirt := by
  unfold Kernel.kfree at h
  obtain ⟨heap, hcall, rfl⟩ := Option.map_eq_some_iff.mp h
  unfold Orchid.kfree at hcall
  split at hcall
  · obtain rfl := Option.some.inj hcall
    rfl
  · obtain ⟨prev, -, rfl⟩ := Option.map_eq_some_iff.mp hcall
    rfl

theorem Grows.trans {k₂ : Kernel} {heap : Heap} {vm : Vm} (h : k.Grows k')
    (hk' : k' = { k with heap := heap, vm := vm }) (h₂ : k'.Grows k₂) : k.Grows k₂ := by
  have hcr3 : k'.kernelCr3 = k.kernelCr3 := by rw [hk']
  refine ⟨h.1.trans (hcr3 ▸ h₂.1), h₂.2.trans h.2⟩

/-- Storing the first frame of a thread on its stack keeps the heap. -/
theorem frame_write {stack : Nat} {words : List Nat}
    (hs : (k.heapState ((stack, stackSize) :: live)).Ready)
    (hwords : 8 * words.length ≤ stackSize) :
    ∀ x, ¬ InPayload k.heap stack x →
      storeWords k.heap.mem (stack + stackSize - 8 * words.length) words x = k.heap.mem x := by
  obtain ⟨-, -, bs, ht, hl⟩ := hs
  have hlarge : stackSize ≤ payloadSize k.heap stack :=
    (Holds.liveOk ht hl List.mem_cons_self).large
  intro x hx
  apply storeWords_apply_of_outside
  unfold InPayload at hx
  omega

theorem userFrame_fits (a entry stack : Nat) :
    8 * (userFrame a entry stack).length ≤ stackSize := by
  simp [userFrame, stackSize]

/-- The thread `t` is set up on the stack `kstack`. -/
def withThread (entry stack pml4Phys : Nat) (proc : Option ProcPtr) (t : Tid) (kstack : Nat)
    (k : Kernel) : Kernel :=
  let frame := userFrame k.userspaceEntry entry stack
  let mem := storeWords k.heap.mem (kstack + stackSize - 8 * frame.length) frame
  { k with
    heap := { k.heap with mem := mem }
    sched := Orchid.threadCreateUser t kstack pml4Phys proc k.sched }

/-- The results of `thread_create_user`, by the point at which it returns. -/
inductive CreateOutcome (fuel entry stack pml4Phys : Nat) (proc : Option ProcPtr) (k : Kernel) :
    Option Tid → Kernel → Prop where
  | noRecord {k₁ : Kernel} (hmalloc : k.kmalloc fuel sizeofThread = some (0, k₁)) :
      CreateOutcome fuel entry stack pml4Phys proc k none k₁
  | noStack {t : Tid} {k₁ k₂ k' : Kernel} (hmalloc : k.kmalloc fuel sizeofThread = some (t, k₁))
      (ht : t ≠ 0) (hstack : k₁.kmalloc fuel stackSize = some (0, k₂))
      (hfree : k₂.kfree fuel t = some k') : CreateOutcome fuel entry stack pml4Phys proc k none k'
  | done {t : Tid} {kstack : Nat} {k₁ k₂ : Kernel}
      (hmalloc : k.kmalloc fuel sizeofThread = some (t, k₁)) (ht : t ≠ 0)
      (hstack : k₁.kmalloc fuel stackSize = some (kstack, k₂)) (hkstack : kstack ≠ 0) :
      CreateOutcome fuel entry stack pml4Phys proc k (some t)
        (k₂.withThread entry stack pml4Phys proc t kstack)

theorem threadCreateUser_outcome {entry stack pml4Phys : Nat} {proc : Option ProcPtr}
    {r : Option Tid} (h : k.threadCreateUser fuel entry stack pml4Phys proc = some (r, k')) :
    CreateOutcome fuel entry stack pml4Phys proc k r k' := by
  unfold Kernel.threadCreateUser at h
  split at h
  · cases h
  next t k₁ hmalloc =>
  split at h
  · next ht =>
    subst ht
    cases h
    exact .noRecord hmalloc
  next ht =>
  split at h
  · cases h
  next kstack k₂ hstack =>
  split at h
  · next hkstack =>
    subst hkstack
    rcases Option.map_eq_some_iff.mp h with ⟨k₃, hfree, heq⟩
    cases heq
    exact .noStack hmalloc ht hstack hfree
  · next hkstack =>
    cases h
    exact .done hmalloc ht hstack hkstack

/-- What `thread_create_user` may leave behind: more live allocations, the
thread among them if there is one. -/
structure Created (k : Kernel) (live : List (Nat × Nat)) (r : Option Tid) (k' : Kernel)
    (live' : List (Nat × Nat)) : Prop where
  ready : (k'.heapState live').Ready
  more : live <:+ live'
  growth : k.Grows k'
  failed : r = none → live' = live
  rest : k' = { k with heap := k'.heap, vm := k'.vm, sched := k'.sched }
  process : k'.sched.currentProcess = k.sched.currentProcess
  thread : ∀ t, r = some t → t ∉ live.map Prod.fst ∧ t ∈ live'.map Prod.fst

/-- Giving a block back does not undo a growth. -/
theorem Grows.kfree {k₂ : Kernel} (h : k.Grows k₂) (hfree : k₂.kfree fuel p = some k')
    (hk' : k' = { k₂ with heap := k'.heap }) : k.Grows k' := by
  have hvm : k'.vm = k₂.vm := by rw [hk']
  rw [Grows, reach, hvm, kfree_endVirt hfree]
  exact h

theorem threadCreateUser_spec {entry stack pml4Phys : Nat} {proc : Option ProcPtr}
    {r : Option Tid} (hs : (k.heapState live).Ready)
    (h : k.threadCreateUser fuel entry stack pml4Phys proc = some (r, k')) :
    ∃ live', Created k live r k' live' := by
  cases threadCreateUser_outcome h with
  | noRecord hmalloc =>
    rcases kmalloc_spec hs (by decide) hmalloc with ⟨hs₁, hgrow₁, hk₁⟩
    refine ⟨live, hs₁, List.suffix_refl _, hgrow₁, fun _ => rfl, hk₁ ▸ rfl, ?_, by simp⟩
    rw [hk₁]
  | noStack hmalloc ht hstack hfree =>
    rcases kmalloc_spec hs (by decide) hmalloc with ⟨hs₁, hgrow₁, hk₁⟩
    rw [if_neg ht] at hs₁
    rcases kmalloc_spec hs₁ (by decide) hstack with ⟨hs₂, hgrow₂, hk₂⟩
    rcases kfree_spec hs₂ hfree with ⟨hs₃, hk₃⟩
    refine ⟨live, hs₃, List.suffix_refl _, (hgrow₁.trans hk₁ hgrow₂).kfree hfree hk₃,
      fun _ => rfl, ?_, ?_, by simp⟩
    · rw [hk₃, hk₂, hk₁]
    · rw [hk₃, hk₂, hk₁]
  | @done t kstack k₁ k₂ hmalloc ht hstack hkstack =>
    rcases kmalloc_spec hs (by decide) hmalloc with ⟨hs₁, hgrow₁, hk₁⟩
    rw [if_neg ht] at hs₁
    rcases kmalloc_spec hs₁ (by decide) hstack with ⟨hs₂, hgrow₂, hk₂⟩
    rw [if_neg hkstack] at hs₂
    have hsched : k₂.sched = k.sched := by rw [hk₂, hk₁]
    refine ⟨(kstack, stackSize) :: (t, sizeofThread) :: live, ?_, ?_,
      hgrow₁.trans hk₁ hgrow₂, by simp, ?_, ?_, ?_⟩
    · exact hs₂.write List.mem_cons_self (frame_write hs₂ (userFrame_fits _ _ _))
    · exact ⟨[(kstack, stackSize), (t, sizeofThread)], rfl⟩
    · rw [withThread, hk₂, hk₁]
    · show k₂.sched.currentProcess = _
      rw [hsched]
    · intro u hu
      cases hu
      exact ⟨newest_notMem hs₁, by simp⟩

/-- The scheduler gets the thread, if there is one. -/
theorem threadCreateUser_sched {entry stack pml4Phys : Nat} {proc : Option ProcPtr}
    {r : Option Tid} (h : k.threadCreateUser fuel entry stack pml4Phys proc = some (r, k')) :
    (r = none → k'.sched = k.sched) ∧ ∀ t, r = some t →
      ∃ kstack, k'.sched = Orchid.threadCreateUser t kstack pml4Phys proc k.sched := by
  cases threadCreateUser_outcome h with
  | noRecord hmalloc => exact ⟨fun _ => kmalloc_sched hmalloc, by simp⟩
  | noStack hmalloc ht hstack hfree =>
    refine ⟨fun _ => ?_, by simp⟩
    rw [kfree_rest hfree]
    exact (kmalloc_sched hstack).trans (kmalloc_sched hmalloc)
  | @done t kstack k₁ k₂ hmalloc ht hstack hkstack =>
    refine ⟨by simp, fun u hu => ?_⟩
    cases hu
    refine ⟨kstack, ?_⟩
    rw [← kmalloc_sched hmalloc, ← kmalloc_sched hstack]
    rfl

/-! ## With enough fuel -/

theorem Grows.walkBound_le (h : k.Grows k') :
    walkBound k'.heap k'.vm ≤ walkBound k.heap k.vm :=
  walkBound_mono h.2

/-- Without a page for it the heap does not grow. -/
theorem Grows.endVirt_le (h : k.Grows k') (hvm : k'.vm = k.vm) :
    k'.heap.endVirt ≤ k.heap.endVirt := by
  have hreach := h.2
  unfold reach at hreach
  rw [hvm] at hreach
  omega

theorem kmalloc_returns (hs : (k.heapState live).Ready) (n : Nat)
    (hfuel : walkBound k.heap k.vm < fuel) : ∃ p k', k.kmalloc fuel n = some (p, k') := by
  rcases hs.malloc_returns k.kernelCr3 n hfuel with ⟨⟨p, heap, vm⟩, hcall⟩
  change Orchid.kmalloc k.kernelCr3 fuel n k.heap k.vm = some (p, heap, vm) at hcall
  refine ⟨p, { k with heap := heap, vm := vm }, ?_⟩
  rw [Kernel.kmalloc, hcall]
  rfl

theorem kfree_returns (hs : (k.heapState ((p, n) :: live)).Ready)
    (hfuel : walkBound k.heap k.vm < fuel) : ∃ k', k.kfree fuel p = some k' := by
  rcases hs.free_returns List.mem_cons_self hfuel with ⟨heap, hcall⟩
  change Orchid.kfree fuel p k.heap = some heap at hcall
  refine ⟨{ k with heap := heap }, ?_⟩
  rw [Kernel.kfree, hcall]
  rfl

theorem threadCreateUser_returns (entry stack pml4Phys : Nat) (proc : Option ProcPtr)
    (hs : (k.heapState live).Ready) (hfuel : walkBound k.heap k.vm < fuel) :
    ∃ r k', k.threadCreateUser fuel entry stack pml4Phys proc = some (r, k') := by
  rcases kmalloc_returns hs sizeofThread hfuel with ⟨t, k₁, hmalloc⟩
  rcases kmalloc_spec hs (by decide) hmalloc with ⟨hs₁, hgrow₁, -⟩
  simp only [Kernel.threadCreateUser, hmalloc]
  by_cases ht : t = 0
  · rw [if_pos ht]
    exact ⟨none, k₁, rfl⟩
  rw [if_neg ht] at hs₁ ⊢
  have hfuel₁ := hgrow₁.walkBound_le.trans_lt hfuel
  rcases kmalloc_returns hs₁ stackSize hfuel₁ with ⟨kstack, k₂, hstack⟩
  rcases kmalloc_spec hs₁ (by decide) hstack with ⟨hs₂, hgrow₂, -⟩
  simp only [hstack]
  by_cases hk : kstack = 0
  · -- the record has to be given back
    rw [if_pos hk] at hs₂ ⊢
    rcases kfree_returns hs₂ (hgrow₂.walkBound_le.trans_lt hfuel₁) with ⟨k₃, hfree⟩
    rw [hfree]
    exact ⟨none, k₃, rfl⟩
  · rw [if_neg hk]
    exact ⟨some t, _, rfl⟩

/-! ## With nothing in use but what is live -/

theorem kmalloc_packed (hs : (k.heapState live).Packed) (hn : n ≤ 2 ^ 20)
    (h : k.kmalloc fuel n = some (p, k')) :
    (k'.heapState (if p = 0 then live else (p, n) :: live)).Packed :=
  hs.malloc hn (kmalloc_eq_some h).1

theorem kfree_packed (hs : (k.heapState ((p, n) :: live)).Packed) (h : k.kfree fuel p = some k') :
    (k'.heapState live).Packed ∧ k' = { k with heap := k'.heap } := by
  unfold Kernel.kfree at h
  rcases Option.map_eq_some_iff.mp h with ⟨heap, hcall, rfl⟩
  have hpacked := hs.free (List.mem_cons_self : (p, n) ∈ (k.heapState ((p, n) :: live)).live) hcall
  rcases hs with ⟨-, -, bs, -, hl, -⟩
  rw [show (k.heapState ((p, n) :: live)).live = (p, n) :: live from rfl,
    filter_newest hl.nodup] at hpacked
  exact ⟨hpacked, rfl⟩

/-- If `thread_create_user` fails, it has given back what it allocated. -/
theorem threadCreateUser_failed {entry stack pml4Phys : Nat} {proc : Option ProcPtr}
    (hs : (k.heapState live).Packed)
    (h : k.threadCreateUser fuel entry stack pml4Phys proc = some (none, k')) :
    (k'.heapState live).Packed ∧ k.Grows k' ∧ k' = { k with heap := k'.heap, vm := k'.vm } := by
  cases threadCreateUser_outcome h with
  | noRecord hmalloc =>
    exact ⟨kmalloc_packed hs (by decide) hmalloc, (kmalloc_spec hs.ready (by decide) hmalloc).2⟩
  | noStack hmalloc ht hstack hfree =>
    have hs₁ := kmalloc_packed hs (by decide) hmalloc
    rw [if_neg ht] at hs₁
    have hs₂ := kmalloc_packed hs₁ (by decide) hstack
    rcases kmalloc_spec hs.ready (by decide) hmalloc with ⟨-, hgrow₁, hk₁⟩
    rcases kmalloc_spec hs₁.ready (by decide) hstack with ⟨-, hgrow₂, hk₂⟩
    rcases kfree_packed hs₂ hfree with ⟨hs₃, hk₃⟩
    refine ⟨hs₃, (hgrow₁.trans hk₁ hgrow₂).kfree hfree hk₃, ?_⟩
    rw [hk₃, hk₂, hk₁]

/-! ## With room in the heap -/

theorem kmalloc_of_spare (hs : (k.heapState live).Spare m len) (n : Nat) (hn : n ≤ 2 ^ 20)
    (hm : roundUp n + headerSize + 8 ≤ m) (hfuel : len < fuel) :
    ∃ p k', k.kmalloc fuel n = some (p, k') ∧ p ≠ 0 ∧ k' = { k with heap := k'.heap } ∧
      (k'.heapState ((p, n) :: live)).Spare (m - roundUp n - headerSize) (len + 1) := by
  obtain ⟨p, heap, hcall, hp, hspare⟩ := hs.malloc k.kernelCr3 hn hm hfuel
  change Orchid.kmalloc k.kernelCr3 fuel n k.heap k.vm = some (p, heap, k.vm) at hcall
  refine ⟨p, { k with heap := heap }, ?_, hp, rfl, hspare⟩
  rw [Kernel.kmalloc, hcall]
  rfl

/-- How much room a thread takes up. -/
def threadRoom : Nat := 2 * headerSize + sizeofThread + stackSize

theorem threadCreateUser_of_spare (entry stack pml4Phys : Nat) (proc : Option ProcPtr)
    (hs : (k.heapState live).Spare m len) (hm : threadRoom + 8 ≤ m) (hfuel : len + 1 < fuel) :
    ∃ t k' s, k.threadCreateUser fuel entry stack pml4Phys proc = some (some t, k') ∧
      k' = { k with heap := k'.heap, sched := k'.sched } ∧
      (k'.heapState ((s, stackSize) :: (t, sizeofThread) :: live)).Spare (m - threadRoom)
        (len + 2) := by
  have hroom : threadRoom = 4200 := by decide
  have hh : headerSize = 24 := rfl
  have hthread : roundUp sizeofThread = 56 := by decide
  have hstack : roundUp stackSize = 4096 := by decide
  obtain ⟨t, k₁, h₁, ht, hk₁, hs₁⟩ := kmalloc_of_spare hs sizeofThread (by decide) (by omega)
    (by omega : len < fuel)
  obtain ⟨kstack, k₂, h₂, hkstack, hk₂, hs₂⟩ := kmalloc_of_spare hs₁ stackSize (by decide)
    (by omega) hfuel
  have hwrite := hs₂.write List.mem_cons_self
    (frame_write hs₂.ready (userFrame_fits k₂.userspaceEntry entry stack))
  set frame := userFrame k₂.userspaceEntry entry stack
  set mem := storeWords k₂.heap.mem (kstack + stackSize - 8 * frame.length) frame
  set sched := Orchid.threadCreateUser t kstack pml4Phys proc k₂.sched
  have hcall : k.threadCreateUser fuel entry stack pml4Phys proc =
      some (some t, { k₂ with heap := { k₂.heap with mem := mem }, sched := sched }) := by
    simp only [Kernel.threadCreateUser, h₁, if_neg ht, h₂, if_neg hkstack]
    rfl
  refine ⟨t, _, kstack, hcall, ?_, ?_⟩
  · rw [hk₂, hk₁]
  · have hleft : m - roundUp sizeofThread - headerSize - roundUp stackSize - headerSize =
        m - threadRoom := by omega
    rw [hleft] at hwrite
    exact hwrite

end Kernel

/-! ## The free stack -/

section Popped

variable {vm vm' : Vm} {cr3 : Nat} {taken : List Nat}

/-- The frames that were taken off the free stack between `vm` and `vm'`. -/
def popped (vm vm' : Vm) : List Nat := vm.free.take (vm.free.length - vm'.free.length)

theorem popped_eq (h : vm.free = taken ++ vm'.free) : popped vm vm' = taken := by
  rw [popped, h, List.length_append, Nat.add_sub_cancel, List.take_left]

theorem popped_of_suffix (h : vm'.free <:+ vm.free) : vm.free = popped vm vm' ++ vm'.free := by
  rcases h with ⟨taken, htaken⟩
  rw [popped_eq htaken.symm, htaken]

/-- A growth of the heap gives no frame back. -/
theorem heapGrowth_suffix (h : HeapGrowth cr3 vm vm') : vm'.free <:+ vm.free := by
  induction h with
  | refl => exact List.suffix_refl _
  | @tail vm₁ vm₂ _ hstep ih =>
    apply List.IsSuffix.trans _ ih
    cases hstep with
    | failed => exact vm₁.allocPage_free
    | page => exact (vmmMap_free _ _ _ _ _).trans vm₁.allocPage_free

/-- A page is taken and mapped, anywhere below the kernel's PML4, or there is none. -/
inductive MapStep (pml4 : Nat) : Vm → Vm → Prop where
  | failed {vm : Vm} (hnone : vm.allocPage.1 = 0) : MapStep pml4 vm vm.allocPage.2
  | page {vm : Vm} (v flags : Nat) (hsome : vm.allocPage.1 ≠ 0) :
      MapStep pml4 vm (vmmMap pml4 v vm.allocPage.1 flags vm.allocPage.2)

theorem MapStep.free (h : MapStep cr3 vm vm') : vm'.free <:+ vm.free := by
  cases h with
  | failed => exact vm.allocPage_free
  | page => exact (vmmMap_free _ _ _ _ _).trans vm.allocPage_free

theorem mapSteps_free (h : ReflTransGen (MapStep cr3) vm vm') : vm'.free <:+ vm.free := by
  induction h with
  | refl => exact List.suffix_refl _
  | tail _ hstep ih => exact hstep.free.trans ih

theorem heapInitLoop_mapSteps (i n endVirt : Nat) (vm : Vm) :
    ReflTransGen (MapStep cr3) vm (heapInitLoop cr3 i n endVirt vm).2 := by
  induction n generalizing i endVirt vm with
  | zero => exact .refl
  | succ n ih =>
    rw [heapInitLoop]
    dsimp only
    split
    · next hnone => exact .single (.failed hnone)
    · next hsome => exact .head (.page _ _ hsome) (ih _ _ _)

theorem heapExpandLocked_mapStep {fuel : Nat} {b : Bool} {h h' : Heap}
    (hcall : heapExpandLocked cr3 fuel h vm = some (b, h', vm')) : MapStep cr3 vm vm' := by
  unfold heapExpandLocked at hcall
  dsimp only at hcall
  split at hcall
  · next hnone =>
    cases hcall
    exact .failed hnone
  next hsome =>
  split at hcall
  · cases hcall
    exact .page _ _ hsome
  · rcases Option.map_eq_some_iff.mp hcall with ⟨last, -, heq⟩
    rw [Prod.mk.injEq, Prod.mk.injEq] at heq
    rw [← heq.2.2]
    exact .page _ _ hsome

theorem kmallocLoop_mapSteps {walkFuel size fuel p : Nat} {h h' : Heap}
    (hcall : kmallocLoop cr3 walkFuel size fuel h vm = some (p, h', vm')) :
    ReflTransGen (MapStep cr3) vm vm' := by
  induction fuel generalizing h vm with
  | zero => cases hcall
  | succ fuel ih =>
    rw [kmallocLoop] at hcall
    split at hcall
    · cases hcall
    · cases hcall
      exact .refl
    · split at hcall
      · cases hcall
      · next hexpand =>
        cases hcall
        exact .single (heapExpandLocked_mapStep hexpand)
      · next hexpand => exact .head (heapExpandLocked_mapStep hexpand) (ih hcall)

/-- What `kmalloc` does to physical memory, whatever the heap looks like. -/
theorem Kernel.kmalloc_mapSteps {k k' : Kernel} {fuel n p : Nat}
    (hcall : k.kmalloc fuel n = some (p, k')) :
    ReflTransGen (MapStep k.kernelCr3) k.vm k'.vm := by
  have hloop := (Kernel.kmalloc_eq_some hcall).1
  unfold Orchid.kmalloc at hloop
  dsimp only at hloop
  split at hloop
  · exact kmallocLoop_mapSteps hloop
  · exact (heapInitLoop_mapSteps 0 heapInitialPages k.heap.endVirt k.vm).trans (kmallocLoop_mapSteps hloop)

/-- `kmalloc` gives no frame back. -/
theorem Kernel.kmalloc_free {k k' : Kernel} {fuel n p : Nat}
    (hcall : k.kmalloc fuel n = some (p, k')) : k'.vm.free <:+ k.vm.free :=
  mapSteps_free (Kernel.kmalloc_mapSteps hcall)

/-- `thread_create_user` only maps pages for the heap, and leaves the processes. -/
theorem Kernel.threadCreateUser_mapSteps {k k' : Kernel} {fuel entry stack pml4Phys : Nat}
    {proc : Option ProcPtr} {r : Option Tid}
    (hcall : k.threadCreateUser fuel entry stack pml4Phys proc = some (r, k')) :
    ReflTransGen (MapStep k.kernelCr3) k.vm k'.vm ∧ k'.procs = k.procs := by
  have htwo : ∀ {t kstack : Nat} {k₁ k₂ : Kernel}, k.kmalloc fuel sizeofThread = some (t, k₁) →
      k₁.kmalloc fuel stackSize = some (kstack, k₂) →
      ReflTransGen (MapStep k.kernelCr3) k.vm k₂.vm ∧ k₂.procs = k.procs := by
    intro t kstack k₁ k₂ hrecord hstack
    have hcr3 : k₁.kernelCr3 = k.kernelCr3 := by rw [(Kernel.kmalloc_eq_some hrecord).2]
    have hsteps := Kernel.kmalloc_mapSteps hstack
    rw [hcr3] at hsteps
    exact ⟨(Kernel.kmalloc_mapSteps hrecord).trans hsteps,
      (Kernel.kmalloc_procs hstack).trans (Kernel.kmalloc_procs hrecord)⟩
  cases Kernel.threadCreateUser_outcome hcall with
  | noRecord hmalloc => exact ⟨Kernel.kmalloc_mapSteps hmalloc, Kernel.kmalloc_procs hmalloc⟩
  | noStack hmalloc _ hstack hfree =>
    have hsteps := htwo hmalloc hstack
    rw [Kernel.kfree_rest hfree]
    exact hsteps
  | done hmalloc _ hstack _ =>
    have hsteps := htwo hmalloc hstack
    exact hsteps

theorem headerSize_le_of_kmallocLoop {walkFuel size fuel p : Nat} {h h' : Heap} (hp : p ≠ 0)
    (hcall : kmallocLoop cr3 walkFuel size fuel h vm = some (p, h', vm')) : headerSize ≤ p := by
  induction fuel generalizing h vm with
  | zero => cases hcall
  | succ fuel ih =>
    rw [kmallocLoop] at hcall
    split at hcall
    · cases hcall
    · cases hcall
      exact Nat.le_add_left _ _
    · split at hcall
      · cases hcall
      · cases hcall
        exact absurd rfl hp
      · exact ih hcall

/-- A block lies behind its header. -/
theorem Kernel.headerSize_le {k k' : Kernel} {fuel n p : Nat} (hp : p ≠ 0)
    (hcall : k.kmalloc fuel n = some (p, k')) : headerSize ≤ p :=
  headerSize_le_of_kmallocLoop hp (Kernel.kmalloc_eq_some hcall).1

theorem heapGrowth_popped (h : HeapGrowth cr3 vm vm') : vm.free = popped vm vm' ++ vm'.free :=
  popped_of_suffix (heapGrowth_suffix h)

end Popped

/-! ## Loading a program -/

/-- A new process record as it is made. -/
def newRecord (p : ProcPtr) (k : Kernel) : Kernel :=
  (procAllocPid k).2.modifyProc p fun r => { r with pid := (procAllocPid k).1, next := none }

theorem newRecord_pml4Phys (p : ProcPtr) (k : Kernel) (q : ProcPtr) :
    ((newRecord p k).procs q).pml4Phys = (k.procs q).pml4Phys :=
  Kernel.modifyProc_pml4Phys (procAllocPid k).2 p (by intro _; rfl) q

theorem newRecord_procs {p q : ProcPtr} (k : Kernel) (hq : q ≠ p) :
    (newRecord p k).procs q = k.procs q :=
  Kernel.modifyProc_of_ne (procAllocPid k).2 _ hq

theorem installThread_pml4Phys (p : ProcPtr) (t : Tid) (k : Kernel) (q : ProcPtr) :
    ((installThread p t k).procs q).pml4Phys = (k.procs q).pml4Phys :=
  Kernel.modifyProc_pml4Phys k p (f := fun r => { r with mainThread := some t }) (fun _ => rfl) q

section Load

variable {k : Kernel} {live : List (Nat × Nat)} {image : Nat → UInt8} {size fuel m len : Nat}

/-- The loop over the image gives no page back. -/
theorem loadCode_free (pml4Phys : Nat) (image : Nat → UInt8) (vaddr src left : Nat) (vm : Vm) :
    (loadCode pml4Phys image vaddr src left vm).2.free <:+ vm.free := by
  induction left using Nat.strong_induction_on generalizing vaddr src vm with
  | _ left ih =>
    rw [loadCode]
    by_cases hleft : left = 0
    · rw [if_pos hleft]
    rw [if_neg hleft]
    dsimp only
    split
    · exact vm.allocPage_free
    · -- one page for the code, then those of the mapping, then the rest
      refine (ih (left - min pageSize left) ?_ _ _ _).trans ?_
      · simp only [pageSize]
        omega
      · exact (vmmMapUser_free _ _ _ _ _ _).trans vm.allocPage_free

theorem loadImage_free (kernelCr3 : Nat) (image : Nat → UInt8) (size : Nat) (vm : Vm) :
    (loadImage kernelCr3 image size vm).2.free <:+ vm.free := by
  unfold loadImage
  dsimp only
  split
  · exact vm.allocPage_free
  · have hcode := (loadCode_free vm.allocPage.1 image userCodeVaddr 0 size { vm.allocPage.2 with
      mem := newPml4 kernelCr3 vm.allocPage.1 vm.allocPage.2.mem }).trans vm.allocPage_free
    split
    · next h =>
      rw [h] at hcode
      exact hcode
    · next h =>
      rw [h] at hcode
      split <;> exact (Vm.allocPage_free _).trans hcode

theorem loadSpace_free (kernelCr3 : Nat) (image : Nat → UInt8) (size : Nat) (vm : Vm) :
    (loadSpace kernelCr3 image size vm).2.free <:+ vm.free := by
  have himage := loadImage_free kernelCr3 image size vm
  unfold loadSpace
  split
  · next h =>
    rw [h] at himage
    exact himage
  · next h =>
    rw [h] at himage
    exact (vmmMapUser_free _ _ _ _ _ _).trans himage

/-- An empty image needs a page for the PML4 and one for the stack. -/
theorem loadSpace_empty {a b : Nat} {rest : List Nat} {vm : Vm} (kernelCr3 : Nat)
    (image : Nat → UInt8) (hfree : vm.free = a :: b :: rest) (ha : a ≠ 0) (hb : b ≠ 0) :
    loadSpace kernelCr3 image 0 vm = (some a, vmmMapUser a userStackVaddr b userPageFlags true
      ⟨newPml4 kernelCr3 a vm.mem, rest⟩) := by
  have hload : loadImage kernelCr3 image 0 vm =
      (some (a, b), ⟨newPml4 kernelCr3 a vm.mem, rest⟩) := by
    simp only [loadImage, Vm.allocPage, hfree, pmmAllocPage, if_neg ha]
    rw [loadCode]
    simp only [if_true, if_neg hb]
  simp only [loadSpace, hload]

/-- The record gets the new address space. -/
def loaded (proc : ProcPtr) (pml4Phys : Nat) (vm : Vm) (k : Kernel) : Kernel :=
  { k with vm := vm }.modifyProc proc fun p => { p with pml4Phys := pml4Phys }

/-- The results of `load_raw`: there is no address space, or there is one, and then all
depends on the thread. -/
inductive LoadOutcome (fuel : Nat) (image : Nat → UInt8) (size : Nat) (proc : ProcPtr) (k : Kernel) :
    Option Tid → Kernel → Prop where
  | noSpace {vm : Vm} (hspace : loadSpace k.kernelCr3 image size k.vm = (none, vm)) :
      LoadOutcome fuel image size proc k none { k with vm := vm }
  | space {pml4Phys : Nat} {vm : Vm} {r : Option Tid} {k' : Kernel}
      (hspace : loadSpace k.kernelCr3 image size k.vm = (some pml4Phys, vm))
      (hthread : (loaded proc pml4Phys vm k).threadCreateUser fuel userCodeVaddr
        (userStackVaddr + pageSize) pml4Phys (some proc) = some (r, k')) :
      LoadOutcome fuel image size proc k r k'

theorem loadRaw_outcome {proc : ProcPtr} {r : Option Tid} {k' : Kernel}
    (h : loadRaw fuel image size proc k = some (r, k')) :
    LoadOutcome fuel image size proc k r k' := by
  unfold loadRaw at h
  split at h
  · next vm hspace =>
    cases h
    exact .noSpace hspace
  · next pml4Phys vm hspace => exact .space hspace h

/-- The results of `elf_load`, by the point at which it returns. -/
inductive ElfOutcome (fuel : Nat) (image : Nat → UInt8) (size : Nat) (k : Kernel) :
    Option ProcPtr → Kernel → Prop where
  | noRecord {k₁ : Kernel} (hmalloc : k.kmalloc fuel sizeofProcess = some (0, k₁)) :
      ElfOutcome fuel image size k none k₁
  | notLoaded {p : ProcPtr} {k₁ k₂ k' : Kernel}
      (hmalloc : k.kmalloc fuel sizeofProcess = some (p, k₁)) (hp : p ≠ 0)
      (hload : loadRaw fuel image size p (newRecord p k₁) = some (none, k₂))
      (hfree : k₂.kfree fuel p = some k') : ElfOutcome fuel image size k none k'
  | done {p : ProcPtr} {t : Tid} {k₁ k₂ : Kernel}
      (hmalloc : k.kmalloc fuel sizeofProcess = some (p, k₁)) (hp : p ≠ 0)
      (hload : loadRaw fuel image size p (newRecord p k₁) = some (some t, k₂)) :
      ElfOutcome fuel image size k (some p) (installThread p t k₂)

theorem elfLoad_outcome {r : Option ProcPtr} {k' : Kernel}
    (h : elfLoad fuel image size k = some (r, k')) : ElfOutcome fuel image size k r k' := by
  unfold elfLoad at h
  split at h
  · cases h
  next p k₁ hmalloc =>
  split at h
  · next hp =>
    subst hp
    cases h
    exact .noRecord hmalloc
  next hp =>
  simp only at h
  split at h
  · cases h
  · next k₂ hload =>
    rcases Option.map_eq_some_iff.mp h with ⟨k₃, hfree, heq⟩
    cases heq
    exact .notLoaded hmalloc hp hload hfree
  · next t k₂ hload =>
    cases h
    exact .done hmalloc hp hload

/-- The results of `sys_exec`, by the point at which it returns or ends. -/
inductive ExecOutcome (fuel : Nat) (image : Nat → UInt8) (size : Nat) (k : Kernel) :
    Bool → Kernel → Prop where
  | noProcess (hcur : k.sched.currentProcess = none) : ExecOutcome fuel image size k false k
  | notLoaded {p : ProcPtr} {k' : Kernel} (hcur : k.sched.currentProcess = some p)
      (hload : loadRaw fuel image size p k = some (none, k')) :
      ExecOutcome fuel image size k false k'
  | done {p : ProcPtr} {t : Tid} {k₁ : Kernel} (hcur : k.sched.currentProcess = some p)
      (hload : loadRaw fuel image size p k = some (some t, k₁)) :
      ExecOutcome fuel image size k true (installThread p t k₁)

theorem sysExec_outcome {r : Bool} {k' : Kernel} (h : sysExec fuel image size k = some (r, k')) :
    ExecOutcome fuel image size k r k' := by
  unfold sysExec at h
  split at h
  · next hcur =>
    cases h
    exact .noProcess hcur
  next p hcur =>
  split at h
  · cases h
  · next k₁ hload =>
    cases h
    exact .notLoaded hcur hload
  · next t k₁ hload =>
    cases h
    exact .done hcur hload

/-- With an address space and room in the heap `load_raw` succeeds. -/
theorem loadRaw_of_spare {pml4Phys : Nat} {vm : Vm} (proc : ProcPtr)
    (hspace : loadSpace k.kernelCr3 image size k.vm = (some pml4Phys, vm))
    (hs : (k.heapState live).Spare m len) (hm : Kernel.threadRoom + 8 ≤ m)
    (hfuel : len + 1 < fuel) :
    ∃ t k' s, loadRaw fuel image size proc k = some (some t, k') ∧
      k' = { k.modifyProc proc fun p => { p with pml4Phys := pml4Phys } with
        vm := vm, heap := k'.heap, sched := k'.sched } ∧
      (k'.heapState ((s, stackSize) :: (t, sizeofThread) :: live)).Spare (m - Kernel.threadRoom)
        (len + 2) ∧ k'.heap.endVirt ≤ k.heap.endVirt := by
  have hlen : vm.free.length ≤ k.vm.free.length := by
    have hsuffix := loadSpace_free k.kernelCr3 image size k.vm
    rw [hspace] at hsuffix
    exact hsuffix.length_le
  have hs' : ({ k with vm := vm }.modifyProc proc fun p =>
      { p with pml4Phys := pml4Phys }).heapState live |>.Spare m len := by
    obtain ⟨hinit, hroom, hbs⟩ := hs
    exact ⟨hinit, hroom.mono hlen, hbs⟩
  obtain ⟨t, k', s, hcall, hk', hspare⟩ := Kernel.threadCreateUser_of_spare userCodeVaddr
    (userStackVaddr + pageSize) pml4Phys (some proc) hs' hm hfuel
  refine ⟨t, k', s, ?_, hk', hspare, ?_⟩
  · simp only [loadRaw, hspace]
    exact hcall
  · -- there was no need for another page
    rcases Kernel.threadCreateUser_spec hs'.ready hcall with ⟨live', hcreated⟩
    exact hcreated.growth.endVirt_le (by rw [hk'])

/-- With an address space and room in the heap `elf_load` succeeds. -/
theorem elfLoad_of_spare {pml4Phys : Nat} {vm : Vm}
    (hspace : loadSpace k.kernelCr3 image size k.vm = (some pml4Phys, vm))
    (hs : (k.heapState live).Spare m len)
    (hm : sizeofProcess + headerSize + Kernel.threadRoom + 8 ≤ m) (hfuel : len + 2 < fuel) :
    ∃ p k' live', (∃ k₁, k.kmalloc fuel sizeofProcess = some (p, k₁) ∧ p ≠ 0) ∧
      elfLoad fuel image size k = some (some p, k') ∧
      (k'.procs p).pml4Phys = pml4Phys ∧ k'.vm = vm ∧ k'.kernelCr3 = k.kernelCr3 ∧
      (k'.heapState live').Spare (m - sizeofProcess - headerSize - Kernel.threadRoom) (len + 3) ∧
      (∃ s, (s, stackSize) ∈ live' ∧ live <:+ live') ∧ k'.heap.endVirt ≤ k.heap.endVirt := by
  have hsize : roundUp sizeofProcess = sizeofProcess := by decide
  have hroom : 0 < Kernel.threadRoom := by decide
  obtain ⟨p, k₁, h₁, hp, hk₁, hs₁⟩ := Kernel.kmalloc_of_spare hs sizeofProcess (by decide)
    (by omega) (by omega : len < fuel)
  rw [hsize] at hs₁
  have hspace₂ : loadSpace (newRecord p k₁).kernelCr3 image size (newRecord p k₁).vm =
      (some pml4Phys, vm) := by
    show loadSpace k₁.kernelCr3 image size k₁.vm = (some pml4Phys, vm)
    rw [hk₁]
    exact hspace
  have hs₂ : ((newRecord p k₁).heapState ((p, sizeofProcess) :: live)).Spare
      (m - sizeofProcess - headerSize) (len + 1) := hs₁
  obtain ⟨t, k₃, s, hraw, hk₃, hspare, hend₃⟩ := loadRaw_of_spare p hspace₂ hs₂ (by omega)
    (by omega : len + 1 + 1 < fuel)
  have hend₁ : k₁.heap.endVirt ≤ k.heap.endVirt :=
    (Kernel.kmalloc_spec hs.ready (by decide) h₁).2.1.endVirt_le (by rw [hk₁])
  refine ⟨p, installThread p t k₃, _, ⟨k₁, h₁, hp⟩, ?_, ?_, ?_, ?_, hspare, ⟨s,
    List.mem_cons_self, [(s, stackSize), (t, sizeofThread), (p, sizeofProcess)], rfl⟩,
    hend₃.trans hend₁⟩
  · rw [newRecord] at hraw
    simp only [elfLoad, h₁, if_neg hp, hraw]
  · rw [hk₃]
    simp [installThread, Kernel.modifyProc]
  · show k₃.vm = vm
    rw [hk₃]
  · show k₃.kernelCr3 = k.kernelCr3
    rw [hk₃]
    show k₁.kernelCr3 = k.kernelCr3
    rw [hk₁]

end Load

/-- The heap `heap_init` leaves when it got all its pages: one free block. -/
def freshHeap : Heap where
  mem := setHeader (fun _ => 0) heapStartVirt (heapInitialPages * pageSize - headerSize) 1 0
  head := heapStartVirt
  endVirt := heapStartVirt + heapInitialPages * pageSize
  initialized := true

/-- The one block of it. -/
def freshBlock : Tiling.Block := ⟨heapInitialPages * pageSize - headerSize, true⟩

theorem freshHeap_tiled : Tiled freshHeap [freshBlock] ∧ Holds freshHeap [freshBlock] [] := by
  constructor
  · refine ⟨rfl, by simp, ⟨header_setHeader (by decide) (by decide), trivial⟩, rfl, ?_⟩
    intro b hb
    rw [List.mem_singleton.mp hb]
    decide
  · exact ⟨List.nodup_nil, fun p n hmem => absurd hmem List.not_mem_nil⟩

theorem freshHeap_room {vm : Vm} (hfree : vm.free.length ≤ maxFreeList) : HasRoom freshHeap vm := by
  have hmax : maxFreeList ≤ 2 ^ 26 := by decide
  have hpages : heapInitialPages * pageSize = 65536 := by decide
  unfold HasRoom reach freshHeap
  simp only
  omega

theorem freshHeap_spare {vm : Vm} (hfree : vm.free.length ≤ maxFreeList) :
    HeapState.Spare ⟨freshHeap, vm, []⟩ (heapInitialPages * pageSize - headerSize) 1 :=
  ⟨rfl, freshHeap_room hfree, [freshBlock], freshHeap_tiled.1, freshHeap_tiled.2, by simp,
    freshBlock, List.mem_cons_self, rfl, Nat.le_refl _⟩

theorem freshHeap_packed {vm : Vm} (hfree : vm.free.length ≤ maxFreeList) :
    HeapState.Packed ⟨freshHeap, vm, []⟩ :=
  ⟨rfl, freshHeap_room hfree, [freshBlock], freshHeap_tiled.1, freshHeap_tiled.2,
    Tiling.coalesced_singleton _, rfl⟩

/-- A kernel with a fresh heap and no process, on the given memory. -/
def bootKernel (vm : Vm) : Kernel where
  vm := vm
  heap := freshHeap
  sched := {
    threads := fun _ => ⟨0, 0, .ready, 0, 0, none, none⟩
    currentThread := none
    readyQueue := none
    idleThreadPtr := none
    threadCount := 0
    currentProcess := none
    rsp0 := 0 }
  procs := fun _ => ⟨0, 0, none, none⟩
  processList := none
  nextPid := 1
  kernelCr3 := 0x1000
  savedUserRip := 0
  userspaceEntry := 0

end Orchid
