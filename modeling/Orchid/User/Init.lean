import Orchid.Core.UserCode
import Orchid.Process.UserEntry

/-! # The first program

A model of `user/init.S`: it asks for the image of the shell, forks, and lets the
child execute the image, while the parent yields for ever.

* For every kernel, whatever it returns, the calls are those of `initClient`
  (`init_follows`). In particular the image is executed only where `fork` returned 0,
  and with the size that `get_binary` gave, which fits the buffer.
* With this kernel's `fork` there is no such place: the parent has a pid in `rax` and
  the child the address of its page table (`init_never_execs`).
-/

namespace Orchid

open Machine X86 Function

/-! ## Model -/

/-- Where the linker puts `shell_name` and `shell_buf`. -/
structure InitLayout where
  shellName : UInt64
  shellBuf : UInt64

/-- `_start` is at 0 and `loop_forever` at 21. -/
def initCode (l : InitLayout) : List UserOp :=
  [ -- sys_get_binary("shell", buf, 4096)
    .movImm l.shellName .rdi,
    .movImm l.shellBuf .rsi,
    .movImm 4096 .rdx,
    .movImm 11 .rax,
    .syscall,
    .mov .rax .r12,
    .test .rax,
    .jcc .zero 21,
    .cmpImm 4096 .rax,
    .jcc .above 21,
    -- fork
    .movImm 7 .rax,
    .syscall,
    .test .rax,
    .jcc .notZero 21,
    -- child: exec(shell_buf, size)
    .movImm l.shellBuf .rdi,
    .mov .r12 .rsi,
    .movImm 10 .rax,
    .syscall,
    -- fallback exit
    .movImm 60 .rax,
    .clear .rdi,
    .syscall,
    .movImm 158 .rax,
    .syscall,
    .jmp 21 ]

/-- What the program is about to ask for; `size` is what `get_binary` returned. -/
inductive InitState where
  | getBinary
  | fork (size : UInt64)
  | exec (size : UInt64)
  | exit
  | yield

/-- The calls of the program. -/
def initClient (l : InitLayout) : Client InitState where
  request
    | .getBinary => [(.rax, 11), (.rdi, l.shellName), (.rsi, l.shellBuf), (.rdx, 4096)]
    | .fork _ => [(.rax, 7)]
    | .exec size => [(.rax, 10), (.rdi, l.shellBuf), (.rsi, size)]
    | .exit => [(.rax, 60), (.rdi, 0)]
    | .yield => [(.rax, 158)]
  next
    -- the negative results are large unsigned numbers
    | .getBinary, ret => if ret = 0 ∨ 4096 < ret then .yield else .fork ret
    | .fork size, ret => if ret = 0 then .exec size else .yield
    | .exec _, _ => .exit
    | .exit, _ => .yield
    | .yield, _ => .yield

/-! ## The blocks -/

/-- The program at the start of a block. -/
def InitStart : InitState → User → Prop
  | .getBinary, u => u.pc = 0
  | .fork size, u => u.pc = 5 ∧ u.gpr .rax = size ∧ size ≠ 0 ∧ ¬ 4096 < size
  | .exec size, u => u.pc = 12 ∧ u.gpr .rax = 0 ∧ u.gpr .r12 = size
  | .exit, u => u.pc = 18
  | .yield, u => (u.pc = 5 ∧ (u.gpr .rax = 0 ∨ 4096 < u.gpr .rax)) ∨
      (u.pc = 12 ∧ u.gpr .rax ≠ 0) ∨ u.pc = 21 ∨ u.pc = 23

section Blocks

variable (l : InitLayout) {u : User} {size : UInt64}

theorem ahead_getBinary (hpc : u.pc = 0) :
    Ahead (initClient l) (initCode l) InitStart .getBinary u := by
  rcases u with ⟨pc, gpr, flags⟩
  subst hpc
  refine ⟨4, _, rfl, rfl, ?_, ?_⟩
  · simp [initClient, Request.Asks]
  · intro ret u' h
    show InitStart (if ret = 0 ∨ 4096 < ret then .yield else .fork ret) u'
    split
    · next hbad =>
      rw [← h.rax] at hbad
      exact .inl ⟨h.pc, hbad⟩
    · next hgood =>
      rw [not_or] at hgood
      exact ⟨h.pc, h.rax, hgood⟩

/-- From the result of `get_binary` to the call of `fork`; the size goes to `r12`. -/
theorem ahead_fork (h : InitStart (.fork size) u) :
    Ahead (initClient l) (initCode l) InitStart (.fork size) u := by
  rcases u with ⟨pc, gpr, flags⟩
  rcases h with ⟨hpc, hrax, hne, hle⟩
  change pc = 5 at hpc
  change gpr .rax = size at hrax
  subst hpc
  have hzero := Bool.eq_false_of_not_eq_true (mt zero_ofBits.mp hne)
  have habove := Bool.eq_false_of_not_eq_true (mt above_ofSub.mp hle)
  refine ⟨6, ⟨11, update (update gpr .r12 size) .rax 7, .ofSub size 4096⟩,
    ?_, rfl, ?_, ?_⟩
  · simp [User.run, User.step, initCode, UserOp.exec, hrax, hzero, habove]
  · simp [initClient, Request.Asks]
  · intro ret u' h
    have hr12 : u'.gpr .r12 = size := h.saved .r12 (by simp [calleeSaved])
    show InitStart (if ret = 0 then .exec size else .yield) u'
    split
    · next hret => exact ⟨h.pc, h.rax.trans hret, hr12⟩
    · next hret =>
      right
      left
      refine ⟨h.pc, ?_⟩
      rw [h.rax]
      exact hret

theorem ahead_exec (h : InitStart (.exec size) u) :
    Ahead (initClient l) (initCode l) InitStart (.exec size) u := by
  rcases u with ⟨pc, gpr, flags⟩
  rcases h with ⟨hpc, hrax, hr12⟩
  change pc = 12 at hpc
  change gpr .rax = 0 at hrax
  change gpr .r12 = size at hr12
  subst hpc
  have hzero : Cond.notZero.holds (.ofBits 0) = false :=
    Bool.eq_false_of_not_eq_true (mt notZero_ofBits.mp (not_not_intro rfl))
  refine ⟨5, ⟨17, update (update (update gpr .rdi l.shellBuf) .rsi size)
    .rax 10, .ofBits 0⟩, ?_, rfl, ?_, ?_⟩
  · simp [User.run, User.step, initCode, UserOp.exec, hrax, hr12, hzero]
  · simp [initClient, Request.Asks]
  · intro ret u' h
    exact h.pc

theorem ahead_exit (hpc : u.pc = 18) : Ahead (initClient l) (initCode l) InitStart .exit u := by
  rcases u with ⟨pc, gpr, flags⟩
  subst hpc
  refine ⟨2, _, rfl, rfl, ?_, ?_⟩
  · simp [initClient, Request.Asks]
  · intro ret u' h
    exact .inr (.inr (.inl h.pc))

/-- The way from the four places to the call of `yield`. -/
theorem run_yield (h : InitStart .yield u) :
    ∃ n c, u.run (initCode l) n = some c ∧ c.pc = 22 ∧ c.gpr .rax = 158 := by
  rcases u with ⟨pc, gpr, flags⟩
  rcases h with ⟨hpc, hbad⟩ | ⟨hpc, hne⟩ | hpc | hpc
  · change pc = 5 at hpc
    change gpr .rax = 0 ∨ 4096 < gpr .rax at hbad
    subst hpc
    by_cases hrax : gpr .rax = 0
    · have hzero : Cond.zero.holds (.ofBits 0) = true := zero_ofBits.mpr rfl
      refine ⟨4, ⟨22, update (update gpr .r12 0) .rax 158, .ofBits 0⟩,
        ?_, rfl, ?_⟩
      · simp [User.run, User.step, initCode, UserOp.exec, hrax, hzero]
      · simp
    · have hzero := Bool.eq_false_of_not_eq_true (mt zero_ofBits.mp hrax)
      have habove := above_ofSub.mpr (hbad.resolve_left hrax)
      refine ⟨6, ⟨22, update (update gpr .r12 (gpr .rax)) .rax 158,
        .ofSub (gpr .rax) 4096⟩, ?_, rfl, ?_⟩
      · simp [User.run, User.step, initCode, UserOp.exec, hzero, habove]
      · simp
  · change pc = 12 at hpc
    change gpr .rax ≠ 0 at hne
    subst hpc
    have hzero := notZero_ofBits.mpr hne
    refine ⟨3, ⟨22, update gpr .rax 158, .ofBits (gpr .rax)⟩, ?_, rfl, ?_⟩
    · simp [User.run, User.step, initCode, UserOp.exec, hzero]
    · simp
  · change pc = 21 at hpc
    subst hpc
    exact ⟨1, _, rfl, rfl, by simp⟩
  · change pc = 23 at hpc
    subst hpc
    exact ⟨2, _, rfl, rfl, by simp⟩

theorem ahead_yield (h : InitStart .yield u) :
    Ahead (initClient l) (initCode l) InitStart .yield u := by
  rcases run_yield l h with ⟨n, c, hrun, hpc, hrax⟩
  refine ⟨n, c, hrun, ?_, ⟨hrax, trivial⟩, ?_⟩
  · unfold User.AtCall
    rw [hpc]
    rfl
  · intro ret u' h
    refine .inr (.inr (.inr ?_))
    rw [h.pc, hpc]

theorem implements_init : Implements (initClient l) (initCode l) InitStart := by
  intro a u h
  cases a with
  | getBinary => exact ahead_getBinary l h
  | fork size => exact ahead_fork l h
  | exec size => exact ahead_exec l h
  | exit => exact ahead_exit l h
  | yield => exact ahead_yield l h

end Blocks

/-! ## Runs -/

/-- For every kernel that keeps to the calling convention and whatever it returns: each call of
the program is the one that its client asks for after the results so far, and from every point
of a run the program gets to its next call. -/
theorem init_follows (l : InitLayout) {s : Calling}
    (h : Reachable (fun s => s.user.pc = 0 ∧ s.calls = []) (Calling.Next (initCode l)) s) :
    (initClient l).Follows .getBinary s.calls ∧
      ∃ n c, s.user.run (initCode l) n = some c ∧ c.AtCall (initCode l) ∧
        ((initClient l).request ((initClient l).after .getBinary s.calls)).Asks c.gpr := by
  have hinv : s.Inv (initClient l) (initCode l) InitStart .getBinary :=
    (implements_init l).calling h
  rcases hinv.ahead with ⟨n, c, hrun, hat, hasks, -⟩
  exact ⟨hinv.follows, n, c, hrun, hat, hasks⟩

def initLayout : InitLayout := ⟨0x400080, 0x401000⟩

/-- An image of 80 bytes was found, and the program goes on to its fork. -/
theorem init_follows_found : ∃ s, Reachable (fun s => s.user.pc = 0 ∧ s.calls = [])
      (Calling.Next (initCode initLayout)) s ∧ (s.calls.map CallRecord.ret) = [80] ∧
    ∃ n c, s.user.run (initCode initLayout) n = some c ∧ c.gpr .rax = 7 := by
  have h₀ : Reachable (fun s => s.user.pc = 0 ∧ s.calls = []) (Calling.Next (initCode initLayout))
      ⟨⟨0, fun _ => 0, .ofBits 0⟩, []⟩ := .init ⟨rfl, rfl⟩
  have h₄ := (((h₀.step (.op rfl)).step (.op rfl)).step (.op rfl)).step (.op rfl)
  have h₅ := h₄.step (.call rfl (resumed_update _ 80))
  rcases init_follows initLayout h₅ with ⟨-, n, c, hrun, -, hrax, -⟩
  exact ⟨_, h₅, rfl, n, c, hrun, hrax⟩

/-- What the parent's call of `sys_fork` returns. -/
def forkRetval (k' : Kernel) : Option ProcPtr → UInt64
  | none => UInt64.ofNat (2 ^ 64 - 1)
  | some p => UInt64.ofNat (k'.procs p).pid

/-- A result of `sys_fork` in some kernel. -/
def ForkReturns (ret : UInt64) : Prop :=
  ∃ fuel k r k', 0 < k.nextPid ∧ k.nextPid < 2 ^ 64 ∧ sysFork fuel k = some (r, k') ∧
    ret = forkRetval k' r

/-- The start of `init`, and of a child that it forked: the child has its page table in `rax` and
zero in the registers that `__switch_to` loads. It is taken to start behind the call, where
`sys_fork` asks for it. -/
inductive InitProcess : StatePred Calling where
  | loaded {u : User} (hpc : u.pc = 0) : InitProcess ⟨u, []⟩
  | forked {u : User} {fuel : Nat} {k k' : Kernel} {p : ProcPtr} {t : Tid}
      (hframes : ∀ f ∈ k.vm.free, f < 2 ^ 64) (hfork : sysFork fuel k = some (some p, k'))
      (ht : (k'.procs p).mainThread = some t) (hpc : u.pc = 12)
      (hrax : u.gpr .rax = UInt64.ofNat (k'.procs p).pml4Phys)
      (hsaved : ∀ r ∈ calleeSaved, u.gpr r = 0) : InitProcess ⟨u, []⟩

/-- A step of the program where `fork` returns what `sys_fork` does. -/
def InitNext (l : InitLayout) : Action Calling := fun s s' =>
  Calling.Next (initCode l) s s' ∧
    ∀ t, s'.calls = s.calls ++ [t] → t.gpr .rax = 7 → ForkReturns t.ret

section Fork

variable {fuel : Nat} {k k' : Kernel} {p : ProcPtr}

/-- The pid that a fork returns is the next one. -/
theorem sysFork_pid (hfork : sysFork fuel k = some (some p, k')) :
    (k'.procs p).pid = k.nextPid := by
  cases sysFork_outcome hfork with
  | @done cur _ t k₁ k₂ vm _ hmalloc _ _ _ hthread =>
    rcases threadCreateUser_frame hthread with ⟨-, -, -, hprocs, -⟩
    have hk₁ : k₁.nextPid = k.nextPid := by rw [(Kernel.kmalloc_eq_some hmalloc).2]
    simp only [Kernel.modifyProc, hprocs, update_self]
    simp only [forkChild, newRecord, procAllocPid, Kernel.modifyProc, update_self]
    exact hk₁

theorem ForkReturns.ne_zero {ret : UInt64} (h : ForkReturns ret) : ret ≠ 0 := by
  rcases h with ⟨fuel, k, r, k', hpos, hlt, hfork, rfl⟩
  cases r with
  | none =>
    show UInt64.ofNat (2 ^ 64 - 1) ≠ 0
    decide
  | some p =>
    intro hzero
    have hnat := congrArg UInt64.toNat hzero
    change (UInt64.ofNat (k'.procs p).pid).toNat = 0 at hnat
    rw [sysFork_pid hfork, UInt64.toNat_ofNat', Nat.mod_eq_of_lt hlt] at hnat
    omega

end Fork

/-- Before anything is executed. -/
def InitState.Quiet : InitState → Prop
  | .exec _ => False
  | .exit => False
  | _ => True

section Processes

variable {l : InitLayout} {a : InitState} {gpr : Gpr → UInt64} {ret : UInt64} {s s' : Calling}

theorem InitState.Quiet.asks (h : a.Quiet) (hasks : ((initClient l).request a).Asks gpr) :
    gpr .rax = 11 ∨ gpr .rax = 7 ∨ gpr .rax = 158 := by
  cases a with
  | getBinary => exact .inl hasks.1
  | fork size => exact .inr (.inl hasks.1)
  | exec size => exact h.elim
  | exit => exact h.elim
  | yield => exact .inr (.inr hasks.1)

theorem InitState.Quiet.next (h : a.Quiet) (hasks : ((initClient l).request a).Asks gpr)
    (hfork : gpr .rax = 7 → ret ≠ 0) : ((initClient l).next a ret).Quiet := by
  cases a with
  | getBinary =>
    show InitState.Quiet (if ret = 0 ∨ 4096 < ret then .yield else .fork ret)
    split <;> trivial
  | fork size =>
    show InitState.Quiet (if ret = 0 then .exec size else .yield)
    rw [if_neg (hfork hasks.1)]
    trivial
  | exec size => exact h.elim
  | exit => exact h.elim
  | yield => trivial

/-- A process that has executed nothing and will not. -/
structure QuietRun (l : InitLayout) (start : InitState) (s : Calling) : Prop where
  inv : s.Inv (initClient l) (initCode l) InitStart start
  quiet : ((initClient l).after start s.calls).Quiet
  calls : ∀ t ∈ s.calls, t.gpr .rax = 11 ∨ t.gpr .rax = 7 ∨ t.gpr .rax = 158

theorem QuietRun.next {start : InitState} (h : QuietRun l start s) (hnext : InitNext l s s') :
    QuietRun l start s' := by
  rcases hnext with ⟨hnext, hfork⟩
  have hinv := h.inv.next (implements_init l) hnext
  rcases hnext with hstep | @⟨u, u', calls, ret, hat, hresumed⟩
  · exact ⟨hinv, h.quiet, h.calls⟩
  · have hasks := (h.inv.ahead.call hat).1
    refine ⟨hinv, ?_, ?_⟩
    · rw [Client.after_concat]
      exact h.quiet.next hasks fun hrax => (hfork _ rfl hrax).ne_zero
    · intro t ht
      rcases List.mem_append.mp ht with hold | hnew
      · exact h.calls t hold
      · rw [List.mem_singleton.mp hnew]
        exact h.quiet.asks hasks

theorem InitProcess.quietRun (h : InitProcess s) : ∃ start, QuietRun l start s := by
  have hnone : ∀ t ∈ ([] : List CallRecord),
      t.gpr .rax = 11 ∨ t.gpr .rax = 7 ∨ t.gpr .rax = 158 := by
    intro t ht
    cases ht
  rcases h with hpc | ⟨hframes, hfork, ht, hpc, hrax, -⟩
  · exact ⟨.getBinary, ⟨trivial, ahead_getBinary l hpc⟩, trivial, hnone⟩
  · -- the child takes itself for the parent
    rcases sysFork_frame hfork ht with ⟨-, -, -, hne, hfree, -⟩
    refine ⟨.yield, ⟨trivial, ahead_yield l (.inr (.inl ⟨hpc, ?_⟩))⟩, trivial, hnone⟩
    rw [hrax]
    intro hzero
    have hnat := congrArg UInt64.toNat hzero
    rw [UInt64.toNat_ofNat', Nat.mod_eq_of_lt (hframes _ hfree)] at hnat
    exact hne hnat

/-- In every run of `init` and of every child that it forks, as long as the pids do not wrap:
the only calls are `get_binary`, `fork` and `yield`. The image is executed nowhere. -/
theorem init_never_execs (l : InitLayout) (h : Reachable InitProcess (InitNext l) s) :
    ∀ t ∈ s.calls, t.gpr .rax = 11 ∨ t.gpr .rax = 7 ∨ t.gpr .rax = 158 := by
  have hrun : ∃ start, QuietRun l start s := by
    refine h.invariant (fun _ hinit => hinit.quietRun) ?_
    rintro s s' hnext ⟨start, hquiet⟩
    exact ⟨start, hquiet.next hnext⟩
  rcases hrun with ⟨start, hquiet⟩
  exact hquiet.calls

/-- The child of a fork yields. -/
theorem init_never_execs_child : ∃ s, Reachable InitProcess (InitNext initLayout) s ∧
    s.calls.length = 1 ∧ ∀ t ∈ s.calls, t.gpr .rax = 11 ∨ t.gpr .rax = 7 ∨ t.gpr .rax = 158 := by
  rcases forkedBy_switches 0x400020 with ⟨p, k', t, m, m₃, hfork, hpml4, ht, -⟩
  have hop : ∀ {u u' : User}, u.step (initCode initLayout) = some u' →
      InitNext initLayout ⟨u, []⟩ ⟨u', []⟩ := by
    intro u u' hstep
    refine ⟨.op hstep, ?_⟩
    intro t hcalls
    cases hcalls
  have h₀ : Reachable InitProcess (InitNext initLayout)
      ⟨⟨12, update (fun _ => 0) .rax 0x10000, .ofBits 0⟩, []⟩ := by
    refine .init (.forked (free_forkedBy 0x400020) hfork ht rfl ?_ ?_)
    · rw [hpml4]
      rfl
    · intro r hr
      simp only [calleeSaved, List.mem_cons, List.not_mem_nil, or_false] at hr
      rcases hr with rfl | rfl | rfl | rfl | rfl | rfl <;> rfl
  have h₃ := ((h₀.step (hop rfl)).step (hop rfl)).step (hop rfl)
  have hyield : ∀ {u : User}, u.AtCall (initCode initLayout) → u.gpr .rax ≠ 7 →
      InitNext initLayout ⟨u, []⟩ ⟨⟨u.pc + 1, update u.gpr .rax 0, u.flags⟩, [⟨u.gpr, 0⟩]⟩ := by
    intro u hat hrax
    refine ⟨.call hat (resumed_update u 0), ?_⟩
    intro t hcalls hfork
    rw [← List.singleton_inj.mp hcalls] at hfork
    exact absurd hfork hrax
  have h₄ := h₃.step (hyield rfl (by decide))
  exact ⟨_, h₄, rfl, init_never_execs initLayout h₄⟩

end Processes

end Orchid
