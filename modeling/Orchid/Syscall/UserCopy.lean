import Orchid.Memory.AddressSpace

/-! # Copying between the kernel and user memory

A model of `copy_to_user` and `copy_from_user` of `kernel/syscalls.c`. Both walk
the pages of `[uaddr, uaddr + len)` in the tables of the current process, and
move the bytes through the direct map.

* `visits` is a ghost: for each round of the loop the virtual addresses it moves,
  with the leaf entry that the walk found for them.
* The loops accept any page that is present. They look neither at the bits of
  the entries nor at the half of the address space the page is in
  (`copyFromUser_reads_kernel`).
-/

namespace Orchid

open ByteMem Radix AddressSpace

/-! ## The functions -/

/-- `(uint64_t)-1`, the result of a system call whose copy fails. -/
def minusOne : Nat := 2 ^ 64 - 1

/-- The addresses moved in one round, and the leaf entry of their page. -/
structure Visit where
  virt : Nat
  len : Nat
  leaf : Option Nat

/-- What a copy works on: physical memory, the kernel's own memory with the
buffer in it, and the rounds so far, the last one first. -/
structure CopyState where
  mem : ByteMem
  kernel : ByteMem
  visits : List Visit

/-- The common loop. `move phys kptr n` moves `n` bytes between the physical
address `phys` and the kernel address `kptr`. -/
def copyUser (move : Nat → Nat → Nat → CopyState → CopyState) (pml4Phys uaddr kptr len : Nat)
    (s : CopyState) : Bool × CopyState :=
  if len = 0 then (true, s) else
  let page := pageFloor uaddr
  let off := uaddr &&& 0xFFF
  let chunk := min (pageSize - off) len
  let phys := userVirtToPhys s.mem pml4Phys page
  if phys = 0 then (false, s) else
  let visit : Visit := ⟨uaddr, chunk, leafEntry s.mem pml4Phys page⟩
  let s := move (phys + off) kptr chunk { s with visits := visit :: s.visits }
  copyUser move pml4Phys ((uaddr + chunk) % 2 ^ 64) (kptr + chunk) (len - chunk) s
termination_by len
decreasing_by
  have hoff : uaddr &&& 0xFFF = uaddr % 4096 := Nat.and_two_pow_sub_one_eq_mod uaddr 12
  simp only [pageSize, hoff]
  omega

/-- The inner loop of `copy_to_user`. -/
def moveOut (phys kptr n : Nat) (s : CopyState) : CopyState :=
  { s with mem := store s.mem phys (fun i => s.kernel (kptr + i)) n }

/-- The inner loop of `copy_from_user`. -/
def moveIn (phys kptr n : Nat) (s : CopyState) : CopyState :=
  { s with kernel := store s.kernel kptr (fun i => s.mem (phys + i)) n }

/-- `copy_to_user`, with `current_process->pml4_phys` passed in (`none` if there
is no current process); the flag says whether it returned 0. -/
def copyToUser (pml4Phys : Option Nat) (uaddr kdata len : Nat) (s : CopyState) :
    Bool × CopyState :=
  match pml4Phys with
  | none => (false, s)
  | some a => copyUser moveOut a uaddr kdata len s

/-- `copy_from_user`, likewise. -/
def copyFromUser (pml4Phys : Option Nat) (kdest uaddr len : Nat) (s : CopyState) :
    Bool × CopyState :=
  match pml4Phys with
  | none => (false, s)
  | some a => copyUser moveIn a uaddr kdest len s

/-! ## Which addresses a copy touches -/

/-- The entry has all the bits of `flags`. -/
def HasFlags (flags : Nat) (leaf : Option Nat) : Prop := ∃ e ∈ leaf, e &&& flags = flags

/-- Every byte moved is in the lower half, on a page with the bits of `flags`. -/
def UserOnly (flags : Nat) (visits : List Visit) : Prop :=
  ∀ v ∈ visits, ∀ j < v.len, v.virt + j < 2 ^ 47 ∧ HasFlags flags v.leaf

section Loop

variable {move : Nat → Nat → Nat → CopyState → CopyState} {a uaddr kptr len : Nat} {s : CopyState}

/-- One round of the loop: it is done, the page is not there, or a chunk that
ends with the range or with its page is moved to or from its place in the frame. -/
theorem copyUser_cases (move : Nat → Nat → Nat → CopyState → CopyState) (a uaddr kptr len : Nat)
    (s : CopyState) :
    (len = 0 ∧ copyUser move a uaddr kptr len s = (true, s)) ∨
    (len ≠ 0 ∧ userVirtToPhys s.mem a (pageFloor uaddr) = 0 ∧
      copyUser move a uaddr kptr len s = (false, s)) ∨
    ∃ chunk phys, 0 < chunk ∧ chunk ≤ len ∧ uaddr % 4096 + chunk ≤ 4096 ∧
      (chunk < len → uaddr % 4096 + chunk = 4096) ∧
      userVirtToPhys s.mem a (pageFloor uaddr) ≠ 0 ∧
      phys = userVirtToPhys s.mem a (pageFloor uaddr) + uaddr % 4096 ∧
      copyUser move a uaddr kptr len s =
        copyUser move a ((uaddr + chunk) % 2 ^ 64) (kptr + chunk) (len - chunk)
          (move phys kptr chunk { s with
            visits := ⟨uaddr, chunk, leafEntry s.mem a (pageFloor uaddr)⟩ :: s.visits }) := by
  have hoff : uaddr &&& 0xFFF = uaddr % 4096 := Nat.and_two_pow_sub_one_eq_mod uaddr 12
  by_cases hlen : len = 0
  · refine Or.inl ⟨hlen, ?_⟩
    rw [copyUser, if_pos hlen]
  by_cases hphys : userVirtToPhys s.mem a (pageFloor uaddr) = 0
  · refine Or.inr (Or.inl ⟨hlen, hphys, ?_⟩)
    rw [copyUser, if_neg hlen]
    simp only [hphys, if_true]
  · refine Or.inr (Or.inr ⟨min (4096 - uaddr % 4096) len,
      userVirtToPhys s.mem a (pageFloor uaddr) + uaddr % 4096, by omega, by omega, by omega,
      by omega, hphys, rfl, ?_⟩)
    rw [copyUser, if_neg hlen]
    simp only [if_neg hphys, hoff, pageSize]

/-- The rounds of a copy that succeeds: they stay in the lower half exactly if
the range does. -/
theorem copyUser_lower (hmove : ∀ p q n s, (move p q n s).visits = s.visits) :
    ∃ new, (copyUser move a uaddr kptr len s).2.visits = new ++ s.visits ∧
      (∀ v ∈ new, 0 < v.len) ∧
      ((copyUser move a uaddr kptr len s).1 = true →
        ((∀ v ∈ new, ∀ j < v.len, v.virt + j < 2 ^ 47) ↔ len = 0 ∨ uaddr + len ≤ 2 ^ 47)) := by
  -- induction on the bytes to go
  induction len using Nat.strong_induction_on generalizing uaddr kptr s with
  | _ len ih =>
    rcases copyUser_cases move a uaddr kptr len s with
      ⟨hlen, heq⟩ | ⟨-, -, heq⟩ | ⟨chunk, phys, hpos, hle, hpage, hfull, -, -, heq⟩
    · rw [heq]
      refine ⟨[], rfl, by simp, ?_⟩
      simp [hlen]
    · rw [heq]
      refine ⟨[], rfl, by simp, ?_⟩
      simp
    · set visit : Visit := ⟨uaddr, chunk, leafEntry s.mem a (pageFloor uaddr)⟩
      set s₁ := move phys kptr chunk { s with visits := visit :: s.visits }
      rcases @ih (len - chunk) (by omega) ((uaddr + chunk) % 2 ^ 64) (kptr + chunk) s₁ with
        ⟨new, hvisits, hlong, hiff⟩
      rw [heq]
      refine ⟨new ++ [visit], ?_, ?_, ?_⟩
      · rw [hvisits, hmove]
        simp
      · intro v hv
        rcases List.mem_append.mp hv with hv | hv
        · exact hlong v hv
        · rw [List.mem_singleton.mp hv]
          exact hpos
      · intro htrue
        have hrest := hiff htrue
        have hfirst : (∀ j < chunk, uaddr + j < 2 ^ 47) ↔ uaddr + chunk ≤ 2 ^ 47 := by
          constructor
          · intro hall
            have := hall (chunk - 1) (by omega)
            omega
          · intro hle j hj
            omega
        simp only [List.mem_append, List.mem_singleton, or_imp, forall_and, forall_eq, hrest]
        rw [show visit.len = chunk from rfl, show visit.virt = uaddr from rfl, hfirst]
        -- below 2^47 the address of the next round does not wrap
        omega

theorem userOnly_iff {flags : Nat} {visits : List Visit} (hlong : ∀ v ∈ visits, 0 < v.len) :
    UserOnly flags visits ↔ (∀ v ∈ visits, ∀ j < v.len, v.virt + j < 2 ^ 47) ∧
      ∀ v ∈ visits, HasFlags flags v.leaf := by
  constructor
  · intro h
    exact ⟨fun v hv j hj => (h v hv j hj).1, fun v hv => (h v hv 0 (hlong v hv)).2⟩
  · rintro ⟨hlow, hflags⟩ v hv j hj
    exact ⟨hlow v hv j hj, hflags v hv⟩

/-- A copy touches user memory only, if it succeeds, exactly if the range is in
the lower half and every page it came to has the bits. -/
theorem copyUser_userOnly_iff (hmove : ∀ p q n s, (move p q n s).visits = s.visits) (flags : Nat)
    (hnew : s.visits = []) :
    ((copyUser move a uaddr kptr len s).1 = true →
        UserOnly flags (copyUser move a uaddr kptr len s).2.visits) ↔
      (copyUser move a uaddr kptr len s).1 = false ∨ len = 0 ∨ (uaddr + len ≤ 2 ^ 47 ∧
        ∀ v ∈ (copyUser move a uaddr kptr len s).2.visits, HasFlags flags v.leaf) := by
  rcases @copyUser_lower move a uaddr kptr len s hmove with ⟨new, hvisits, hlong, hiff⟩
  rw [hnew, List.append_nil] at hvisits
  rw [hvisits, userOnly_iff hlong]
  cases hres : (copyUser move a uaddr kptr len s).1 with
  | false => simp
  | true =>
    rw [hiff hres]
    simp only [true_implies, Bool.true_eq_false, false_or]
    constructor
    · rintro ⟨hlen | hlow, hflags⟩
      · exact Or.inl hlen
      · exact Or.inr ⟨hlow, hflags⟩
    · rintro (hlen | ⟨hlow, hflags⟩)
      · refine ⟨Or.inl hlen, ?_⟩
        -- nothing was moved
        have hdone : copyUser move a uaddr kptr len s = (true, s) := by
          rw [copyUser, if_pos hlen]
        rw [hdone, hnew] at hvisits
        simp [← hvisits]
      · exact ⟨Or.inr hlow, hflags⟩

theorem pageOf_pageFloor (hu : uaddr < 2 ^ 64) {j : Nat} (hj : uaddr % 4096 + j < 4096) :
    pageOf (uaddr + j) = pageOf (pageFloor uaddr) := by
  rw [pageFloor_of_lt hu, pageOf, pageOf]
  omega

/-- A copy into the kernel writes nothing but the buffer. -/
theorem copyUser_moveIn (pml4Phys uaddr kptr len : Nat) (s : CopyState) :
    (copyUser moveIn pml4Phys uaddr kptr len s).2.mem = s.mem ∧
      ∀ x, x < kptr ∨ kptr + len ≤ x →
        (copyUser moveIn pml4Phys uaddr kptr len s).2.kernel x = s.kernel x := by
  -- induction on the bytes to go
  induction len using Nat.strong_induction_on generalizing uaddr kptr s with
  | _ len ih =>
    rcases copyUser_cases moveIn pml4Phys uaddr kptr len s with
      ⟨-, heq⟩ | ⟨-, -, heq⟩ | ⟨chunk, phys, hpos, hle, -, -, -, -, heq⟩
    · rw [heq]
      exact ⟨rfl, fun _ _ => rfl⟩
    · rw [heq]
      exact ⟨rfl, fun _ _ => rfl⟩
    · rw [heq]
      set s₁ := moveIn phys kptr chunk { s with
        visits := ⟨uaddr, chunk, leafEntry s.mem pml4Phys (pageFloor uaddr)⟩ :: s.visits }
      rcases ih (len - chunk) (by omega) ((uaddr + chunk) % 2 ^ 64) (kptr + chunk) s₁ with
        ⟨hmem, hkernel⟩
      refine ⟨hmem, fun x hx => ?_⟩
      rw [hkernel x (by omega)]
      show store s.kernel kptr _ chunk x = s.kernel x
      rw [store_apply, if_neg (by omega)]

end Loop

/-! ## A kernel page -/

/-- An address space with one kernel page, at the start of the heap's window. -/
def kernelPageVm : Vm := vmmMap 0x1000 0xFFFFF00000000000 0x6000 vmmWritable blankVm

theorem lookup_kernelPageVm : userVirtToPhys kernelPageVm.mem 0x1000 0xFFFFF00000000000 = 0x6000 := by
  have hvalid : (MapCall.map 0xFFFFF00000000000 0x6000 vmmWritable).Valid := by
    intro phys hphys
    cases hphys
    decide
  have hrun := MapCall.run_lookup wellFormed_blankVm hvalid 0xFFFFF00000000000
  have hneed := @MapCall.need_le_three 0x1000 blankVm (.map 0xFFFFF00000000000 0x6000 vmmWritable)
  rw [if_pos ⟨hneed.trans (by decide), rfl⟩] at hrun
  exact hrun

/-- A program that names a kernel address gets its byte. -/
theorem copyFromUser_reads_kernel :
    ∃ mem kernel, (copyFromUser (some 0x1000) 0 0xFFFFF00000000000 1 ⟨mem, kernel, []⟩).1 = true ∧
      ¬ UserOnly vmmUser
        (copyFromUser (some 0x1000) 0 0xFFFFF00000000000 1 ⟨mem, kernel, []⟩).2.visits := by
  refine ⟨kernelPageVm.mem, fun _ => 0, ?_⟩
  have hpage : pageFloor 0xFFFFF00000000000 = 0xFFFFF00000000000 := by decide
  have hcall : ∃ s visit, copyFromUser (some 0x1000) 0 0xFFFFF00000000000 1
      ⟨kernelPageVm.mem, fun _ => 0, []⟩ = (true, s) ∧ s.visits = [visit] ∧
      visit.virt = 0xFFFFF00000000000 ∧ visit.len = 1 := by
    rw [copyFromUser, copyUser, if_neg (by decide)]
    simp only [hpage, lookup_kernelPageVm]
    rw [if_neg (by decide), copyUser, if_pos (by decide)]
    exact ⟨_, _, rfl, rfl, rfl, rfl⟩
  rcases hcall with ⟨s, visit, heq, hvisits, hvirt, hlen⟩
  rw [heq]
  refine ⟨rfl, fun honly => ?_⟩
  have hlow := (honly visit (by simp [hvisits]) 0 (by omega)).1
  rw [hvirt] at hlow
  exact absurd hlow (by decide)

end Orchid
