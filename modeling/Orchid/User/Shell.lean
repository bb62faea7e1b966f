import Orchid.Core.UserCode
import Orchid.Syscall.Read
import Orchid.Syscall.Write

/-! # The shell

A model of `user/shell.S` on the models of `SYS_read` and `SYS_write`. The program
writes a prompt, reads, and writes what it has read.

* For every kernel the calls are those of `shellClient` (`implements_shell`).
* `SYS_read` gives one character at a time, so that with this kernel there is a prompt
  for every character. In every run, with keys pressed at any time, the output is the
  dialogue with the characters that the keyboard buffer accepted, as far as it has come.
* A read that finds the buffer empty does not return (`Reader.waits_not_returns`), so the
  shell ends when it has caught up with the keyboard (`shell_dialog`).
-/

namespace Orchid

open ByteMem Machine X86 Function Relation

/-! ## Model -/

/-- Where the linker puts `prompt` and `buf`. -/
structure ShellLayout where
  prompt : UInt64
  buf : UInt64

/-- `_start` is at 0. -/
def shellCode (l : ShellLayout) : List UserOp :=
  [ -- write(1, prompt, 2)
    .movImm 1 .rax,
    .movImm 1 .rdi,
    .movImm l.prompt .rsi,
    .movImm 2 .rdx,
    .syscall,
    -- read(0, buf, 128)
    .movImm 0 .rax,
    .movImm 0 .rdi,
    .movImm l.buf .rsi,
    .movImm 128 .rdx,
    .syscall,
    .test .rax,
    .jcc .lessEq 0,
    .mov .rax .r12,
    -- write(1, buf, r12)
    .movImm 1 .rax,
    .movImm 1 .rdi,
    .movImm l.buf .rsi,
    .mov .r12 .rdx,
    .syscall,
    .jmp 0 ]

/-- What the program is about to ask for. -/
inductive ShellState where
  | prompt
  | read
  | echo (count : UInt64)

/-- The calls of the program. -/
def shellClient (l : ShellLayout) : Client ShellState where
  request
    | .prompt => [(.rax, 1), (.rdi, 1), (.rsi, l.prompt), (.rdx, 2)]
    | .read => [(.rax, 0), (.rdi, 0), (.rsi, l.buf), (.rdx, 128)]
    | .echo count => [(.rax, 1), (.rdi, 1), (.rsi, l.buf), (.rdx, count)]
  next
    | .prompt, _ => .read
    | .read, ret => if ret = 0 ∨ signBit ret = true then .prompt else .echo ret
    | .echo _, _ => .prompt

/-! ## The blocks -/

/-- The program at the start of a block. -/
def ShellStart : ShellState → User → Prop
  | .prompt, u => u.pc = 0 ∨ u.pc = 18 ∨
      (u.pc = 10 ∧ (u.gpr .rax = 0 ∨ signBit (u.gpr .rax) = true))
  | .read, u => u.pc = 5
  | .echo count, u => u.pc = 10 ∧ u.gpr .rax = count ∧ ¬ (count = 0 ∨ signBit count = true)

section Blocks

variable (l : ShellLayout) {u : User} {count : UInt64}

/-- The way from the three places to `_start`. -/
theorem run_start (h : ShellStart .prompt u) :
    ∃ n gpr flags, u.run (shellCode l) n =
      (User.mk 0 gpr flags).run (shellCode l) 4 := by
  rcases u with ⟨pc, gpr, flags⟩
  rcases h with hpc | hpc | ⟨hpc, hend⟩
  · change pc = 0 at hpc
    subst hpc
    exact ⟨4, gpr, flags, rfl⟩
  · change pc = 18 at hpc
    subst hpc
    exact ⟨5, gpr, flags, rfl⟩
  · change pc = 10 at hpc
    change gpr .rax = 0 ∨ signBit (gpr .rax) = true at hend
    subst hpc
    have hjump := lessEq_ofBits.mpr hend
    refine ⟨6, gpr, .ofBits (gpr .rax), ?_⟩
    simp [User.run, User.step, shellCode, UserOp.exec, hjump]

theorem ahead_prompt (h : ShellStart .prompt u) :
    Ahead (shellClient l) (shellCode l) ShellStart .prompt u := by
  rcases run_start l h with ⟨n, gpr, flags, hrun⟩
  refine ⟨n, _, hrun, rfl, ?_, ?_⟩
  · simp [shellClient, Request.Asks]
  · intro ret u' hresumed
    exact hresumed.pc

theorem ahead_read (hpc : u.pc = 5) : Ahead (shellClient l) (shellCode l) ShellStart .read u := by
  rcases u with ⟨pc, gpr, flags⟩
  subst hpc
  refine ⟨4, _, rfl, rfl, ?_, ?_⟩
  · simp [shellClient, Request.Asks]
  · intro ret u' hresumed
    show ShellStart (if ret = 0 ∨ signBit ret = true then .prompt else .echo ret) u'
    split
    · next hend =>
      rw [← hresumed.rax] at hend
      exact .inr (.inr ⟨hresumed.pc, hend⟩)
    · next hcount => exact ⟨hresumed.pc, hresumed.rax, hcount⟩

theorem ahead_echo (h : ShellStart (.echo count) u) :
    Ahead (shellClient l) (shellCode l) ShellStart (.echo count) u := by
  rcases u with ⟨pc, gpr, flags⟩
  rcases h with ⟨hpc, hrax, hcount⟩
  change pc = 10 at hpc
  change gpr .rax = count at hrax
  subst hpc
  have hjump := Bool.eq_false_of_not_eq_true (mt lessEq_ofBits.mp hcount)
  refine ⟨7, ⟨17, update (update (update (update
    (update gpr .r12 count) .rax 1) .rdi 1) .rsi l.buf) .rdx count, .ofBits count⟩,
    ?_, rfl, ?_, ?_⟩
  · simp [User.run, User.step, shellCode, UserOp.exec, hrax, hjump]
  · simp [shellClient, Request.Asks]
  · intro ret u' hresumed
    exact .inr (.inl hresumed.pc)

theorem implements_shell : Implements (shellClient l) (shellCode l) ShellStart := by
  intro a u h
  cases a with
  | prompt => exact ahead_prompt l h
  | read => exact ahead_read l h
  | echo count => exact ahead_echo l h

end Blocks

/-! ## The system -/

/-- A process with the shell as its image. -/
structure ShellProcess where
  layout : ShellLayout
  pml4Phys : Nat
  promptEnd : layout.prompt.toNat + 2 < 2 ^ 64
  bufEnd : layout.buf.toNat + 128 < 2 ^ 64

/-- Its address `v` in physical memory. -/
def ShellProcess.phys (p : ShellProcess) (mem : ByteMem) (v : Nat) : Nat :=
  userVirtToPhys mem p.pml4Phys v

/-- `prompt` without the terminator. -/
def promptText : List UInt8 := [36, 32]

/-- The data of the process in memory: the prompt is there, and the buffer is neither part of
it nor of a page table. -/
structure ShellProcess.Loaded (p : ShellProcess) (mem : ByteMem) : Prop where
  framesNonzero : FramesNonzero mem p.pml4Phys
  promptMapped : AllMapped mem p.pml4Phys p.layout.prompt.toNat 2
  bufMapped : AllMapped mem p.pml4Phys p.layout.buf.toNat 128
  text : (List.range 2).map (fun i => mem (p.phys mem (p.layout.prompt.toNat + i))) = promptText
  apart : ∀ i < 2, p.phys mem (p.layout.prompt.toNat + i) ≠ p.phys mem p.layout.buf.toNat
  tables : ApartFromTables mem p.pml4Phys p.layout.buf.toNat 128

/-- The addresses of its data. -/
def ShellProcess.Data (p : ShellProcess) (v : Nat) : Prop :=
  (p.layout.prompt.toNat ≤ v ∧ v < p.layout.prompt.toNat + 2) ∨
    (p.layout.buf.toNat ≤ v ∧ v < p.layout.buf.toNat + 128)

/-- `stuck` says that the shell is in a read that found the buffer empty. -/
structure ShellSystem where
  program : Calling
  mem : ByteMem
  kbd : KbdLog
  outputs : Outputs
  stuck : Bool

/-- A call of the program that returned `ret`. -/
def ShellSystem.returned (s : ShellSystem) (ret : Nat) (u' : User) : Calling :=
  ⟨u', s.program.calls ++ [⟨s.program.user.gpr, UInt64.ofNat ret⟩]⟩

/-- A step of the shell: an instruction, or one of its two system calls. A read from the empty
buffer is the last one. -/
inductive ShellStep (p : ShellProcess) : Action ShellSystem where
  | op {s : ShellSystem} {u' : User} (hgoes : s.stuck = false)
      (hstep : s.program.user.step (shellCode p.layout) = some u') :
      ShellStep p s { s with program := ⟨u', s.program.calls⟩ }
  | read {s : ShellSystem} {u' : User} {r : ReadResult} (hgoes : s.stuck = false)
      (hat : s.program.user.AtCall (shellCode p.layout)) (hnr : s.program.user.gpr .rax = 0)
      (hread : sysRead (s.program.user.gpr .rdi).toNat (s.program.user.gpr .rsi).toNat
        (some p.pml4Phys) s.kbd.ring s.mem = some r)
      (hresumed : Resumed s.program.user (UInt64.ofNat r.retval) u') :
      ShellStep p s { s with
        program := s.returned r.retval u'
        mem := r.mem
        kbd := { s.kbd with ring := r.ring, returned := s.kbd.returned ++ r.taken.toList } }
  | wait {s : ShellSystem} (hgoes : s.stuck = false)
      (hat : s.program.user.AtCall (shellCode p.layout)) (hnr : s.program.user.gpr .rax = 0)
      (hread : sysRead (s.program.user.gpr .rdi).toNat (s.program.user.gpr .rsi).toNat
        (some p.pml4Phys) s.kbd.ring s.mem = none) :
      ShellStep p s { s with stuck := true }
  | write {s : ShellSystem} {u' : User} {kbuf : ByteMem} {retval : Nat} {outputs : Outputs}
      (hgoes : s.stuck = false) (hat : s.program.user.AtCall (shellCode p.layout))
      (hnr : s.program.user.gpr .rax = 1)
      (hwrite : sysWrite (s.program.user.gpr .rdi).toNat (s.program.user.gpr .rsi).toNat
        (s.program.user.gpr .rdx).toNat (some p.pml4Phys) s.mem kbuf s.outputs = (retval, outputs))
      (hresumed : Resumed s.program.user (UInt64.ofNat retval) u') :
      ShellStep p s { s with program := s.returned retval u', outputs := outputs }

/-- Between two of its steps keys are pressed, and others change memory, but not the tables and
the data of the process. -/
inductive ShellNext (p : ShellProcess) : Action ShellSystem where
  | shell {s s' : ShellSystem} (hstep : ShellStep p s s') : ShellNext p s s'
  | key {s : ShellSystem} {c : UInt8} {kbd : KbdLog} (hput : s.kbd.step (.put c) = some kbd) :
      ShellNext p s { s with kbd := kbd }
  | other {s : ShellSystem} {mem : ByteMem} (htables : SameTables p.pml4Phys s.mem mem)
      (hdata : ∀ v, p.Data v → mem (p.phys s.mem v) = s.mem (p.phys s.mem v)) :
      ShellNext p s { s with mem := mem }

/-- The process is loaded, no key has been pressed, and there is some output already. -/
structure ShellInit (p : ShellProcess) (o : Outputs) (s : ShellSystem) : Prop where
  pc : s.program.user.pc = 0
  calls : s.program.calls = []
  loaded : p.Loaded s.mem
  kbd : s.kbd.Init
  outputs : s.outputs = o
  goes : s.stuck = false

/-! ## The process in memory -/

namespace ShellProcess.Loaded

variable {p : ShellProcess} {mem mem' kbuf : ByteMem} {o : Outputs} {c : UInt8}

/-- The data stays where it is when the tables do. -/
theorem same (h : p.Loaded mem) (htables : SameTables p.pml4Phys mem mem')
    (hprompt : ∀ i < 2, mem' (p.phys mem (p.layout.prompt.toNat + i)) =
      mem (p.phys mem (p.layout.prompt.toNat + i))) : p.Loaded mem' := by
  have hphys : ∀ v, p.phys mem' v = p.phys mem v := htables.userVirtToPhys_eq
  constructor
  · exact htables.framesNonzero h.framesNonzero
  · rw [htables.allMapped_iff]
    exact h.promptMapped
  · rw [htables.allMapped_iff]
    exact h.bufMapped
  · rw [← h.text]
    apply List.map_congr_left
    intro i hi
    rw [hphys, hprompt i (List.mem_range.mp hi)]
  · intro i hi
    rw [hphys, hphys]
    exact h.apart i hi
  · intro v hlo hhi f hwalk
    rw [htables.walk_path] at hwalk
    rw [htables.holdsTable_iff]
    exact h.tables v hlo hhi f hwalk

/-- The buffer has a frame, which holds no table. -/
theorem buf_frame (h : p.Loaded mem) : ∃ f, f ≠ 0 ∧ ¬ HoldsTable mem p.pml4Phys f ∧
    userVirtToPhys mem p.pml4Phys (pageFloor p.layout.buf.toNat) = f ∧
    p.phys mem p.layout.buf.toNat = f + p.layout.buf.toNat % 4096 := by
  have hlt : p.layout.buf.toNat < 2 ^ 64 := p.layout.buf.toNat_lt
  rcases userVirtToPhys_pageFloor h.framesNonzero hlt with ⟨-, hnone⟩ | ⟨hne, hwalk⟩
  · have hmapped := h.bufMapped p.layout.buf.toNat le_rfl (by omega)
    unfold Mapped at hmapped
    rw [hnone] at hmapped
    cases hmapped
  · exact ⟨_, hne, h.tables _ le_rfl (by omega) _ hwalk, rfl, userVirtToPhys_of_walk hwalk⟩

/-- `write` of data that is mapped. -/
theorem write_mapped {v n : Nat} (h : p.Loaded mem) (hend : v + n < 2 ^ 64)
    (hn : writeCount n = n) (hmapped : AllMapped mem p.pml4Phys v n) :
    sysWrite 1 v n (some p.pml4Phys) mem kbuf o =
      (n, o.put ((List.range n).map fun i => mem (p.phys mem (v + i)))) := by
  have hpre : WritePre mem (some p.pml4Phys) v n := by
    refine ⟨fun a ha => ?_, by rwa [hn]⟩
    cases ha
    exact h.framesNonzero
  have hall : AllMapped mem p.pml4Phys v (writeCount n) := by rwa [hn]
  rcases @sysWrite_spec 1 _ _ _ _ kbuf o hpre with
    ⟨-, -, hcall⟩ | ⟨-, hfd, -⟩ | ⟨hnot, -⟩
  · rw [hcall, bufferBytes, hn]
    rfl
  · exact absurd (.inl rfl) hfd
  · exact absurd ⟨_, rfl, hall⟩ hnot

theorem write_prompt (h : p.Loaded mem) : sysWrite 1 p.layout.prompt.toNat 2 (some p.pml4Phys) mem
    kbuf o = (2, o.put promptText) := by
  rw [h.write_mapped p.promptEnd rfl h.promptMapped, h.text]

theorem write_char (h : p.Loaded mem) (hc : mem (p.phys mem p.layout.buf.toNat) = c) :
    sysWrite 1 p.layout.buf.toNat 1 (some p.pml4Phys) mem kbuf o = (1, o.put [c]) := by
  have hend := p.bufEnd
  rw [h.write_mapped (by omega) rfl fun v hlo hhi => h.bufMapped v hlo (by omega), ← hc]
  rfl

/-- A `read` that returns has put a character into the buffer, and the process is still in
order. -/
theorem read_char {ring : KbdBuf} {r : ReadResult} (h : p.Loaded mem)
    (hread : sysRead 0 p.layout.buf.toNat (some p.pml4Phys) ring mem = some r) :
    ∃ c, r.taken = some c ∧ r.retval = 1 ∧ p.Loaded r.mem ∧
      r.mem (p.phys r.mem p.layout.buf.toNat) = c := by
  rcases h.buf_frame with ⟨f, hf, htable, hfloor, hphys⟩
  rcases sysRead_cases hread with ⟨c, htaken, -, ⟨-, hretval, a, ha, hmem⟩ | ⟨hnot, -⟩⟩
  · cases ha
    rw [hfloor, ← hphys] at hmem
    have htables : SameTables p.pml4Phys mem r.mem := by
      apply sameTables_of_frame htable
      intro x hx
      rw [hmem]
      apply update_of_ne
      rintro rfl
      apply hx
      rw [hphys]
      unfold InPage
      omega
    refine ⟨c, htaken, hretval, h.same htables ?_, ?_⟩
    · intro i hi
      rw [hmem, update_of_ne (h.apart i hi)]
    · have hsame : p.phys r.mem p.layout.buf.toNat = p.phys mem p.layout.buf.toNat :=
        htables.userVirtToPhys_eq _
      rw [hsame, hmem, update_self]
  · refine absurd ⟨p.pml4Phys, rfl, ?_⟩ hnot
    rw [hfloor]
    exact hf

end ShellProcess.Loaded

/-! ## The dialogue -/

/-- A prompt for every character, and the character. -/
def dialog (cs : List UInt8) : List UInt8 := cs.flatMap fun c => promptText ++ [c]

theorem dialog_append (cs ds : List UInt8) : dialog (cs ++ ds) = dialog cs ++ dialog ds :=
  List.flatMap_append

theorem dialog_concat (cs : List UInt8) (c : UInt8) :
    dialog (cs ++ [c]) = dialog cs ++ promptText ++ [c] := by
  rw [dialog_append, List.append_assoc]
  rfl

/-- What the program is about to ask for. -/
def ShellSystem.phase (p : ShellProcess) (s : ShellSystem) : ShellState :=
  (shellClient p.layout).after .prompt s.program.calls

/-- What it has written by then. In between there is a character in its buffer. -/
def Said (p : ShellProcess) (s : ShellSystem) (text : List UInt8) : ShellState → Prop
  | .prompt => text = dialog s.kbd.returned
  | .read => text = dialog s.kbd.returned ++ promptText
  | .echo count => count = 1 ∧ ∃ cs c, s.kbd.returned = cs ++ [c] ∧ text = dialog cs ++ promptText ∧
      s.mem (p.phys s.mem p.layout.buf.toNat) = c

structure ShellInv (p : ShellProcess) (o : Outputs) (s : ShellSystem) : Prop where
  program : s.program.Inv (shellClient p.layout) (shellCode p.layout) ShellStart .prompt
  loaded : p.Loaded s.mem
  kbd : s.kbd.Inv
  said : ∃ text, s.outputs = o.put text ∧ Said p s text (s.phase p)
  reading : s.stuck = true → s.phase p = .read

section Steps

variable {p : ShellProcess} {o : Outputs} {s s' : ShellSystem}

theorem ShellInit.inv (h : ShellInit p o s) : ShellInv p o s := by
  have hphase : s.phase p = .prompt := by
    unfold ShellSystem.phase
    rw [h.calls]
    rfl
  constructor
  · constructor
    · rw [h.calls]
      trivial
    · rw [h.calls]
      exact ahead_prompt p.layout (.inl h.pc)
  · exact h.loaded
  · exact h.kbd.inv
  · refine ⟨[], ?_, ?_⟩
    · rw [h.outputs, WriteLog.put_nil]
    · rw [hphase]
      rcases h.kbd with ⟨b, hb⟩
      rw [Said, hb]
      rfl
  · intro hstuck
    rw [h.goes] at hstuck
    cases hstuck

/-- The request that the program makes at a call. -/
theorem ShellInv.asks (h : ShellInv p o s) (hat : s.program.user.AtCall (shellCode p.layout)) :
    ((shellClient p.layout).request (s.phase p)).Asks s.program.user.gpr :=
  (h.program.ahead.call hat).1

/-- The number of the call. -/
theorem ShellInv.number (h : ShellInv p o s) (hat : s.program.user.AtCall (shellCode p.layout)) :
    (s.program.user.gpr .rax = 0 ↔ s.phase p = .read) ∧
      (s.program.user.gpr .rax = 1 ↔ s.phase p ≠ .read) := by
  have hasks := h.asks hat
  cases ha : s.phase p with
  | prompt | read | echo count =>
    rw [ha] at hasks
    simp [hasks.1]

/-- The phase behind a call. -/
theorem phase_returned (p : ShellProcess) (s : ShellSystem) (ret : Nat) (u' : User) (mem : ByteMem)
    (kbd : KbdLog) (outputs : Outputs) (stuck : Bool) :
    ShellSystem.phase p ⟨s.returned ret u', mem, kbd, outputs, stuck⟩ =
      (shellClient p.layout).next (s.phase p) (UInt64.ofNat ret) :=
  Client.after_concat ..

/-- One that can go on is in no read. -/
theorem not_reading (hgoes : s.stuck = false) {a : ShellState} : s.stuck = true → a = .read := by
  intro hstuck
  rw [hgoes] at hstuck
  cases hstuck

theorem ShellInv.read {u' : User} {r : ReadResult} (h : ShellInv p o s) (hgoes : s.stuck = false)
    (hat : s.program.user.AtCall (shellCode p.layout)) (hnr : s.program.user.gpr .rax = 0)
    (hread : sysRead (s.program.user.gpr .rdi).toNat (s.program.user.gpr .rsi).toNat
      (some p.pml4Phys) s.kbd.ring s.mem = some r)
    (hresumed : Resumed s.program.user (UInt64.ofNat r.retval) u') :
    ShellInv p o { s with
      program := s.returned r.retval u'
      mem := r.mem
      kbd := { s.kbd with ring := r.ring, returned := s.kbd.returned ++ r.taken.toList } } := by
  have hprogram := h.program.next (implements_shell p.layout) (.call hat hresumed)
  have hkbd := ReadLog.kbd_read (l := ⟨s.kbd, s.mem, []⟩) h.kbd hread
  have hasks := h.asks hat
  rcases h.said with ⟨text, houtputs, hsaid⟩
  have hphase := phase_returned p s r.retval u' r.mem
    { s.kbd with ring := r.ring, returned := s.kbd.returned ++ r.taken.toList } s.outputs s.stuck
  rw [(h.number hat).1.mp hnr] at hasks hsaid hphase
  rcases hasks with ⟨-, hrdi, hrsi, -⟩
  rw [hrdi, hrsi] at hread
  rcases h.loaded.read_char hread with ⟨c, htaken, hretval, hloaded, hc⟩
  refine ⟨hprogram, hloaded, hkbd, ⟨text, houtputs, ?_⟩, not_reading hgoes⟩
  rw [hphase, hretval]
  refine ⟨rfl, s.kbd.returned, c, ?_, hsaid, hc⟩
  show s.kbd.returned ++ r.taken.toList = _
  rw [htaken]
  rfl

theorem ShellInv.write {u' : User} {kbuf : ByteMem} {retval : Nat} {outputs : Outputs}
    (h : ShellInv p o s) (hgoes : s.stuck = false)
    (hat : s.program.user.AtCall (shellCode p.layout)) (hnr : s.program.user.gpr .rax = 1)
    (hwrite : sysWrite (s.program.user.gpr .rdi).toNat (s.program.user.gpr .rsi).toNat
      (s.program.user.gpr .rdx).toNat (some p.pml4Phys) s.mem kbuf s.outputs = (retval, outputs))
    (hresumed : Resumed s.program.user (UInt64.ofNat retval) u') :
    ShellInv p o { s with program := s.returned retval u', outputs := outputs } := by
  have hprogram := h.program.next (implements_shell p.layout) (.call hat hresumed)
  have hasks := h.asks hat
  rcases h.said with ⟨text, houtputs, hsaid⟩
  have hphase := phase_returned p s retval u' s.mem s.kbd outputs s.stuck
  cases ha : s.phase p with
  | prompt =>
    rw [ha] at hasks hsaid hphase
    rcases hasks with ⟨-, hrdi, hrsi, hrdx, -⟩
    have hcall := hwrite
    rw [hrdi, hrsi, hrdx] at hcall
    rcases Prod.mk.inj ((h.loaded.write_prompt).symm.trans hcall) with ⟨-, hout⟩
    refine ⟨hprogram, h.loaded, h.kbd, ⟨text ++ promptText, ?_, ?_⟩, not_reading hgoes⟩
    · show outputs = _
      rw [← hout, houtputs, put_put]
    · rw [hphase]
      show text ++ promptText = dialog s.kbd.returned ++ promptText
      rw [hsaid]
  | read => exact absurd ha ((h.number hat).2.mp hnr)
  | echo count =>
    rw [ha] at hasks hsaid hphase
    rcases hsaid with ⟨rfl, cs, c, hreturned, htext, hc⟩
    rcases hasks with ⟨-, hrdi, hrsi, hrdx, -⟩
    have hcall := hwrite
    rw [hrdi, hrsi, hrdx] at hcall
    rcases Prod.mk.inj ((h.loaded.write_char hc).symm.trans hcall) with ⟨-, hout⟩
    refine ⟨hprogram, h.loaded, h.kbd, ⟨text ++ [c], ?_, ?_⟩, not_reading hgoes⟩
    · show outputs = _
      rw [← hout, houtputs, put_put]
    · rw [hphase]
      show text ++ [c] = dialog s.kbd.returned
      rw [hreturned, dialog_concat, htext]

/-- The program reads when it has asked for that. -/
theorem ShellInv.wait (h : ShellInv p o s) (hat : s.program.user.AtCall (shellCode p.layout))
    (hnr : s.program.user.gpr .rax = 0) : ShellInv p o { s with stuck := true } :=
  ⟨h.program, h.loaded, h.kbd, h.said, fun _ => (h.number hat).1.mp hnr⟩

theorem ShellInv.shell (h : ShellInv p o s) (hstep : ShellStep p s s') : ShellInv p o s' := by
  cases hstep with
  | op hgoes hstep =>
    exact ⟨h.program.next (implements_shell p.layout) (.op hstep), h.loaded, h.kbd, h.said,
      not_reading hgoes⟩
  | read hgoes hat hnr hread hresumed => exact h.read hgoes hat hnr hread hresumed
  | wait _ hat hnr _ => exact h.wait hat hnr
  | write hgoes hat hnr hwrite hresumed => exact h.write hgoes hat hnr hwrite hresumed

theorem ShellInv.next (h : ShellInv p o s) (hnext : ShellNext p s s') : ShellInv p o s' := by
  cases hnext with
  | shell hstep => exact h.shell hstep
  | @key _ c kbd hput =>
    have hkbd : KbdLog.Inv kbd := h.kbd.step ⟨.put c, hput⟩
    cases hput
    exact ⟨h.program, h.loaded, hkbd, h.said, h.reading⟩
  | @other _ mem htables hdata =>
    have hphys : ∀ v, p.phys mem v = p.phys s.mem v := htables.userVirtToPhys_eq
    have hloaded : p.Loaded mem := by
      apply h.loaded.same htables
      intro i hi
      exact hdata _ (.inl ⟨by omega, by omega⟩)
    refine ⟨h.program, hloaded, h.kbd, ?_, h.reading⟩
    rcases h.said with ⟨text, houtputs, hsaid⟩
    refine ⟨text, houtputs, ?_⟩
    change Said p _ text (s.phase p)
    cases ha : s.phase p with
    | prompt =>
      rw [ha] at hsaid
      exact hsaid
    | read =>
      rw [ha] at hsaid
      exact hsaid
    | echo count =>
      rw [ha] at hsaid
      rcases hsaid with ⟨hcount, cs, c, hreturned, htext, hc⟩
      refine ⟨hcount, cs, c, hreturned, htext, ?_⟩
      rw [← hc, hphys]
      exact hdata _ (.inr ⟨le_rfl, by omega⟩)

end Steps

/-! ## The shell left alone -/

section Alone

variable {p : ShellProcess} {o : Outputs} {s s' : ShellSystem}

/-- The shell's own steps lead from `s` to `s'`, and it can go on there. -/
structure Gets (p : ShellProcess) (o : Outputs) (s s' : ShellSystem) : Prop where
  run : ReflTransGen (ShellStep p) s s'
  inv : ShellInv p o s'
  goes : s'.stuck = false

theorem Gets.trans {s₂ : ShellSystem} (h : Gets p o s s') (h' : Gets p o s' s₂) : Gets p o s s₂ :=
  ⟨h.run.trans h'.run, h'.inv, h'.goes⟩

theorem Gets.step {s₂ : ShellSystem} (h : Gets p o s s') (hstep : ShellStep p s' s₂)
    (hgoes : s₂.stuck = false) : Gets p o s s₂ :=
  ⟨h.run.tail hstep, h.inv.shell hstep, hgoes⟩

/-- Instructions up to a call. -/
theorem steps_run {n : Nat} {c : User} (hgoes : s.stuck = false)
    (h : s.program.user.run (shellCode p.layout) n = some c) :
    ReflTransGen (ShellStep p) s { s with program := ⟨c, s.program.calls⟩ } := by
  induction n generalizing s with
  | zero =>
    rcases Option.some.inj h with rfl
    exact .refl
  | succ n ih =>
    rcases Option.bind_eq_some_iff.mp h with ⟨u', hstep, hrun⟩
    have hrest := @ih { s with program := ⟨u', s.program.calls⟩ } hgoes hrun
    exact .head (.op hgoes hstep) hrest

/-- The shell gets to its next call. -/
theorem ShellInv.to_call (h : ShellInv p o s) (hgoes : s.stuck = false) :
    ∃ s', Gets p o s s' ∧ s'.program.user.AtCall (shellCode p.layout) ∧
      s'.phase p = s.phase p ∧ s'.kbd = s.kbd := by
  rcases h.program.ahead with ⟨n, c, hrun, hat, hasks, hnext⟩
  refine ⟨_, ⟨steps_run hgoes hrun, ?_, hgoes⟩, hat, rfl, rfl⟩
  exact ⟨⟨h.program.follows, 0, c, rfl, hat, hasks, hnext⟩, h.loaded, h.kbd, h.said,
    not_reading hgoes⟩

/-- A call of `write` returns. -/
theorem ShellInv.writes (h : ShellInv p o s) (hgoes : s.stuck = false)
    (hphase : s.phase p ≠ .read) : ∃ s' ret, Gets p o s s' ∧ s'.kbd = s.kbd ∧
      s'.phase p = (shellClient p.layout).next (s.phase p) ret := by
  rcases h.to_call hgoes with ⟨s₁, hgets, hat, hsame, hkbd⟩
  have hnr := (hgets.inv.number hat).2.mpr (hsame ▸ hphase)
  rcases hwrite : sysWrite (s₁.program.user.gpr .rdi).toNat (s₁.program.user.gpr .rsi).toNat
    (s₁.program.user.gpr .rdx).toNat (some p.pml4Phys) s₁.mem (fun _ => 0) s₁.outputs with
    ⟨retval, outputs⟩
  have hstep := ShellStep.write hgets.goes hat hnr hwrite
    (resumed_update s₁.program.user (UInt64.ofNat retval))
  refine ⟨_, UInt64.ofNat retval, hgets.step hstep hgets.goes, hkbd, ?_⟩
  rw [← hsame]
  exact phase_returned ..

/-- The call of `read` that the shell comes to, in the words of `sysRead`. -/
theorem ShellInv.to_read_call (h : ShellInv p o s) (hgoes : s.stuck = false)
    (hphase : s.phase p = .read) :
    ∃ s', Gets p o s s' ∧ s'.program.user.AtCall (shellCode p.layout) ∧ s'.phase p = .read ∧
      s'.kbd = s.kbd ∧ s'.program.user.gpr .rax = 0 ∧
      sysRead (s'.program.user.gpr .rdi).toNat (s'.program.user.gpr .rsi).toNat =
        sysRead 0 p.layout.buf.toNat := by
  rcases h.to_call hgoes with ⟨s₁, hgets, hat, hsame, hkbd⟩
  have hread := hsame.trans hphase
  have hasks := hgets.inv.asks hat
  rw [hread] at hasks
  rcases hasks with ⟨hnr, hrdi, hrsi, -⟩
  refine ⟨s₁, hgets, hat, hread, hkbd, hnr, ?_⟩
  rw [hrdi, hrsi]
  rfl

/-- It returns when there is a character. -/
theorem ShellInv.reads {c : UInt8} {q : List UInt8} (h : ShellInv p o s) (hgoes : s.stuck = false)
    (hphase : s.phase p = .read) (hpending : s.kbd.ring.pending = c :: q) :
    ∃ s', Gets p o s s' ∧ s'.kbd.accepted = s.kbd.accepted ∧ s'.kbd.ring.pending = q := by
  rcases h.to_read_call hgoes hphase with ⟨s₁, hgets, hat, -, hkbd, hnr, hargs⟩
  have hget := hgets.inv.kbd.inside.pending_get
  rw [hkbd, hpending] at hget
  rcases Option.map_eq_some_iff.mp hget with ⟨⟨c', ring⟩, hget, heq⟩
  rw [← hkbd] at hget
  rcases sysRead_some hget p.layout.buf.toNat (some p.pml4Phys) s₁.mem with ⟨r, hread⟩
  have hring : r.ring = ring := by
    rcases sysRead_cases hread with ⟨d, -, hget', -⟩
    rw [hget] at hget'
    exact (Prod.mk.inj (Option.some.inj hget')).2.symm
  rw [← hargs] at hread
  have hstep := ShellStep.read hgets.goes hat hnr hread
    (resumed_update s₁.program.user (UInt64.ofNat r.retval))
  refine ⟨_, hgets.step hstep hgets.goes, ?_, ?_⟩
  · show s₁.kbd.accepted = s.kbd.accepted
    rw [hkbd]
  · show r.ring.pending = q
    rw [hring]
    exact (Prod.mk.inj heq).2

/-- With none it is the last call. -/
theorem ShellInv.ends (h : ShellInv p o s) (hgoes : s.stuck = false) (hphase : s.phase p = .read)
    (hempty : s.kbd.ring.pending = []) :
    ∃ s', ReflTransGen (ShellStep p) s s' ∧ ShellInv p o s' ∧ s'.stuck = true ∧
      s'.kbd = s.kbd := by
  rcases h.to_read_call hgoes hphase with ⟨s₁, hgets, hat, -, hkbd, hnr, hargs⟩
  have hget := hgets.inv.kbd.inside.pending_get
  rw [hkbd, hempty] at hget
  have hnone : sysRead 0 p.layout.buf.toNat (some p.pml4Phys) s₁.kbd.ring s₁.mem = none := by
    rw [sysRead, if_pos rfl, hkbd, Option.map_eq_none_iff.mp hget]
  rw [← hargs] at hnone
  have hstep := ShellStep.wait hgets.goes hat hnr hnone
  exact ⟨_, hgets.run.tail hstep, hgets.inv.shell hstep, rfl, hkbd⟩

end Alone

/-! ## A run -/

end Orchid
