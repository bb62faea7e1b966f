import Orchid.Core.Turns
import Orchid.Ipc.Rendezvous

/-! # In which order waiting threads are served

`ipc_send` and `ipc_recv` put a node of a caller that has to wait in front of its
list, and take the first node off the other list. So of two senders, or two
receivers, that wait on a port at the same time the one that came last is served
first (`served_inOrder_iff`).

The machine makes the calls in any order, by any threads; `kmalloc` may fail. Its
log of a list has the numbers of the calls that were put on it and taken off it.
-/

namespace Orchid

open Machine Turns

/-! ## The machine -/

/-- The two lists of a port. -/
inductive Side where
  | senders
  | recvers
  deriving DecidableEq, Repr

/-- The numbers of the calls that wait in a list. -/
def Ipc.waiting (s : Ipc) (port : Nat) : Side → List Nat
  | .senders => (s.ports port).senders.map (·.call)
  | .recvers => (s.ports port).recvers.map (·.call)

/-- A call of a function of `ipc.c`, with what `kmalloc` would give it. -/
inductive PortCall where
  | send (node : Option IpcMessage) (cur : Tid) (port : Nat) (msg : IpcMessage)
  | kernelSend (port : Nat) (msg : IpcMessage)
  | recv (alloc : Bool) (cur : Tid) (port msg : Nat)

def PortCall.run (call : Nat) : PortCall → Ipc → Tail × Ipc
  | .send node cur port msg => ipcSendLocked node call cur port msg
  | .kernelSend port msg => ipcKernelSendLocked port msg
  | .recv alloc cur port msg => ipcRecvLocked alloc call cur port msg

/-- Who was in the list before and is not afterwards, and the other way round. -/
def recorded (before after : List Nat) : List (Event Nat) :=
  (before.filter (· ∉ after)).map (.turn · none) ++ (after.filter (· ∉ before)).map .front

/-- The ports, the number of the next call, and a log for each list. -/
structure Served where
  ipc : Ipc
  calls : Nat
  log : Nat → Side → List (Event Nat)

namespace Served

def step (w : Served) (c : PortCall) : Served :=
  let ipc := (c.run w.calls w.ipc).2
  { ipc := ipc
    calls := w.calls + 1
    log := fun port side =>
      w.log port side ++ recorded (w.ipc.waiting port side) (ipc.waiting port side) }

def Init (w : Served) : Prop :=
  (∀ p, w.ipc.ports p = ⟨[], []⟩) ∧ ∀ port side, w.log port side = []

def Next (w w' : Served) : Prop := ∃ c, w' = w.step c

end Served

/-! ## The lists -/

section Lists

variable {s : Ipc} {call port : Nat} {q q' : List Nat}

/-- A list stays as it is, the call is put in front of it, or its first node is taken off. -/
def Shift (call : Nat) (q q' : List Nat) : Prop :=
  q' = q ∨ q' = call :: q ∨ ∃ c, q = c :: q'

/-- Replacing one port, if its two lists are shifted. -/
theorem Ipc.Changes.shift {s' : Ipc} {new : Port} (h : s.Changes port new s')
    (hsend : Shift call ((s.ports port).senders.map (·.call)) (new.senders.map (·.call)))
    (hrecv : Shift call ((s.ports port).recvers.map (·.call)) (new.recvers.map (·.call)))
    (p : Nat) (side : Side) : Shift call (s.waiting p side) (s'.waiting p side) := by
  by_cases hp : p = port
  · subst hp
    cases side with
    | senders =>
      show Shift call _ ((s'.ports p).senders.map (·.call))
      rw [h.self]
      exact hsend
    | recvers =>
      show Shift call _ ((s'.ports p).recvers.map (·.call))
      rw [h.self]
      exact hrecv
  · left
    cases side <;> simp only [Ipc.waiting, h.others p hp]

/-- The results of the calls: nothing changes, a receiver gets the message, the sender
waits, a sender's message is taken, or the receiver waits. -/
inductive PortCall.Outcome (call : Nat) (s : Ipc) : PortCall → Tail → Ipc → Prop where
  | nothing {c : PortCall} {s' : Ipc} : s'.ports = s.ports → s'.Blank → Outcome call s c .done s'
  | serve {c : PortCall} {port : Nat} {msg : IpcMessage} {s' : Ipc} {node : RecvNode}
      {rest : List RecvNode} :
      port < maxPorts → s.Serves port msg s' node rest → Outcome call s c (.wake node.thread) s'
  | post {old msg : IpcMessage} {cur : Tid} {port : Nat} {s' : Ipc} :
      port < maxPorts → (s.ports port).recvers = [] →
      s.Changes port ⟨⟨cur, copyMessage msg old, call⟩ :: (s.ports port).senders, []⟩ s' →
      Outcome call s (.send (some old) cur port msg) .sleep s'
  | collect {alloc : Bool} {cur : Tid} {port msg : Nat} {s' : Ipc} {node : SendNode}
      {rest : List SendNode} :
      port < maxPorts → (s.ports port).senders = node :: rest →
      s.Changes port ⟨rest, (s.ports port).recvers⟩ s' →
      Outcome call s (.recv alloc cur port msg) (.wake node.thread) s'
  | ask {cur : Tid} {port msg : Nat} {s' : Ipc} :
      port < maxPorts → (s.ports port).senders = [] →
      s.Changes port ⟨[], ⟨cur, msg, call⟩ :: (s.ports port).recvers⟩ s' →
      Outcome call s (.recv true cur port msg) .sleep s'

theorem PortCall.outcome (c : PortCall) (h : s.Blank) :
    c.Outcome call s (c.run call s).1 (c.run call s).2 := by
  -- a call that changes no port
  have hkeep : ∀ {c : PortCall}, c.Outcome call s .done (ipcEnsureInit s) :=
    .nothing (ensureInit_ports h) (blank_of_initialized (ensureInit_initialized s))
  cases c with
  | send node cur port msg =>
    by_cases hport : maxPorts ≤ port
    · simp only [run, ipcSendLocked, if_pos hport]
      exact hkeep
    have hlt : port < maxPorts := Nat.not_le.mp hport
    generalize hcall : run call (.send node cur port msg) s = r
    rcases ipcSendLocked_cases h hlt hcall with
      ⟨n, rest, hserves, htail⟩ | ⟨hrecvers, ⟨-, htail, hs'⟩ | ⟨old, rfl, htail, hchanges⟩⟩
    · rw [htail]
      exact .serve hlt hserves
    · rw [htail, hs']
      exact hkeep
    · rw [htail]
      exact .post hlt hrecvers hchanges
  | kernelSend port msg =>
    by_cases hport : maxPorts ≤ port
    · simp only [run, ipcKernelSendLocked, if_pos hport]
      exact hkeep
    have hlt : port < maxPorts := Nat.not_le.mp hport
    generalize hcall : run call (.kernelSend port msg) s = r
    rcases ipcKernelSendLocked_cases h hlt hcall with
      ⟨n, rest, hserves, htail⟩ | ⟨-, htail, hs'⟩
    · rw [htail]
      exact .serve hlt hserves
    · rw [htail, hs']
      exact hkeep
  | recv alloc cur port msg =>
    by_cases hport : maxPorts ≤ port
    · simp only [run, ipcRecvLocked, if_pos hport]
      exact hkeep
    have hlt : port < maxPorts := Nat.not_le.mp hport
    generalize hcall : run call (.recv alloc cur port msg) s = r
    rcases ipcRecvLocked_cases h hlt hcall with
      ⟨n, rest, hsenders, htail, hchanges, -⟩ |
        ⟨hsenders, ⟨-, htail, hs'⟩ | ⟨rfl, htail, hchanges⟩⟩
    · rw [htail]
      exact .collect hlt hsenders hchanges
    · rw [htail, hs']
      exact hkeep
    · rw [htail]
      exact .ask hlt hsenders hchanges

/-- What every call does to every list. -/
theorem PortCall.run_shift (c : PortCall) (h : s.Blank) :
    (c.run call s).2.Blank ∧
      ∀ p side, Shift call (s.waiting p side) ((c.run call s).2.waiting p side) := by
  have houtcome : c.Outcome call s (c.run call s).1 (c.run call s).2 := c.outcome h
  generalize (c.run call s).1 = tail, (c.run call s).2 = s' at houtcome
  cases houtcome with
  | nothing hports hblank =>
    refine ⟨hblank, fun p side => Or.inl ?_⟩
    cases side <;> simp only [Ipc.waiting, hports]
  | @serve _ _ _ _ node _ _ hserves =>
    rcases hserves with ⟨hrecvers, hchanges, -⟩
    refine ⟨hchanges.blank, hchanges.shift (Or.inl rfl) (Or.inr (Or.inr ⟨node.call, ?_⟩))⟩
    rw [hrecvers]
    rfl
  | post _ hrecvers hchanges =>
    refine ⟨hchanges.blank, hchanges.shift (Or.inr (Or.inl rfl)) (Or.inl ?_)⟩
    rw [hrecvers]
  | @collect _ _ _ _ _ node _ _ hsenders hchanges =>
    refine ⟨hchanges.blank, hchanges.shift (Or.inr (Or.inr ⟨node.call, ?_⟩)) (Or.inl rfl)⟩
    rw [hsenders]
    rfl
  | ask _ hsenders hchanges =>
    refine ⟨hchanges.blank, hchanges.shift (Or.inl ?_) (Or.inr (Or.inl rfl))⟩
    rw [hsenders]

/-- What the log of a list gets to see. -/
theorem Shift.runs (h : Shift call q q') (hq : q.Nodup) (hcall : call ∉ q) :
    Turns.Runs q (recorded q q') q' ∧ ∀ e ∈ recorded q q', ∀ t, e.Joins t → e = .front t := by
  have hnone : ∀ l : List Nat, l.filter (· ∉ l) = [] := by
    intro l
    apply List.filter_eq_nil_iff.mpr
    intro c hc
    simpa using hc
  rcases h with rfl | rfl | ⟨c, rfl⟩
  · have hrecorded : recorded q' q' = [] := by
      simp only [recorded, hnone, List.map_nil, List.append_nil]
    rw [hrecorded]
    exact ⟨.nil, nofun⟩
  · have hrecorded : recorded q (call :: q) = [.front call] := by
      have hold : q.filter (· ∉ call :: q) = [] := by
        apply List.filter_eq_nil_iff.mpr
        intro c hc
        simp [hc]
      have hnew : (call :: q).filter (· ∉ q) = [call] := by
        rw [List.filter_cons_of_pos (by simpa using hcall), hnone]
      rw [recorded, hold, hnew]
      rfl
    rw [hrecorded]
    refine ⟨.cons (.front hcall) .nil, ?_⟩
    intro e he t ht
    cases List.mem_singleton.mp he
    rw [show call = t from ht]
  · have hc : c ∉ q' := (List.nodup_cons.mp hq).1
    have hrecorded : recorded (c :: q') q' = [.turn c none] := by
      have hold : (c :: q').filter (· ∉ q') = [c] := by
        rw [List.filter_cons_of_pos (by simpa using hc), hnone]
      have hnew : q'.filter (· ∉ c :: q') = [] := by
        apply List.filter_eq_nil_iff.mpr
        intro d hd
        simp [hd]
      rw [recorded, hold, hnew]
      rfl
    rw [hrecorded]
    have hstep : Step (c :: q') (.turn c none) (q' ++ (none : Option Nat).toList) := .turn nofun
    rw [Option.toList_none, List.append_nil] at hstep
    refine ⟨.cons hstep .nil, ?_⟩
    intro e he t ht
    cases List.mem_singleton.mp he
    cases ht

end Lists

/-! ## Every run -/

namespace Served

variable {w w' : Served}

structure Inv (w : Served) : Prop where
  blank : w.ipc.Blank
  numbers : ∀ port side, ∀ c ∈ w.ipc.waiting port side, c < w.calls
  runs : ∀ port side, Turns.Runs [] (w.log port side) (w.ipc.waiting port side)
  front : ∀ port side, ∀ e ∈ w.log port side, ∀ t, e.Joins t → e = .front t

theorem Init.inv (h : w.Init) : w.Inv := by
  rcases h with ⟨hports, hlog⟩
  have hempty : ∀ port side, w.ipc.waiting port side = [] := by
    intro port side
    cases side <;> simp only [Ipc.waiting, hports, List.map_nil]
  constructor
  · intro _
    exact hports
  · intro port side c hc
    rw [hempty] at hc
    cases hc
  · intro port side
    rw [hempty, hlog]
    exact .nil
  · intro port side e he
    rw [hlog] at he
    cases he

theorem Inv.step (h : w.Inv) (hnext : w.Next w') : w'.Inv := by
  rcases hnext with ⟨c, rfl⟩
  have hrun : (c.run w.calls w.ipc).2.Blank ∧ ∀ p side,
      Shift w.calls (w.ipc.waiting p side) ((c.run w.calls w.ipc).2.waiting p side) :=
    c.run_shift h.blank
  rcases hrun with ⟨hblank, hshift⟩
  have hfresh : ∀ port side, w.calls ∉ w.ipc.waiting port side := by
    intro port side hmem
    exact absurd (h.numbers port side _ hmem) (Nat.lt_irrefl _)
  have hevents := fun port side =>
    (hshift port side).runs ((h.runs port side).nodup List.nodup_nil) (hfresh port side)
  constructor
  · exact hblank
  · intro port side d hd
    show d < w.calls + 1
    have hold : d ∈ w.ipc.waiting port side → d < w.calls + 1 := fun hd =>
      (h.numbers port side d hd).trans (Nat.lt_succ_self _)
    rcases hshift port side with heq | heq | ⟨c', heq⟩
    · exact hold (heq ▸ hd)
    · -- the call itself
      have hd' : d ∈ w.calls :: w.ipc.waiting port side := heq ▸ hd
      rcases List.mem_cons.mp hd' with rfl | hd'
      · exact Nat.lt_succ_self _
      · exact hold hd'
    · exact hold (heq ▸ List.mem_cons_of_mem c' hd)
  · intro port side
    exact (h.runs port side).append (hevents port side).1
  · intro port side e he
    rcases List.mem_append.mp he with he | he
    · exact h.front port side e he
    · exact (hevents port side).2 e he

end Served

/-- On every list of every port the waiting calls are served in the order in which they
came if and only if each call that was served came when no other was waiting there. -/
theorem served_inOrder_iff {w : Served} (h : Reachable Served.Init Served.Next w) (port : Nat)
    (side : Side) : InOrder (w.log port side) ↔ Alone (w.log port side) := by
  have hinv : w.Inv := h.invariant (fun _ => Served.Init.inv) fun _ _ hstep hinv => hinv.step hstep
  exact inOrder_iff_alone (hinv.runs port side) (hinv.front port side)

/-! ## Two senders -/

section Example

/-- Nobody waits. -/
def idlePorts : Served where
  ipc := ⟨fun _ => ⟨[], []⟩, false, fun _ => ⟨0, fun _ => 0⟩⟩
  calls := 0
  log := fun _ _ => []

/-- Threads 1 and 2 send to port 0, then thread 3 receives from it. -/
def twoSends : Served :=
  ((idlePorts.step (.send (some ⟨0, fun _ => 0⟩) 1 0 ⟨1, fun _ => 65⟩)).step
    (.send (some ⟨0, fun _ => 0⟩) 2 0 ⟨1, fun _ => 66⟩)).step (.recv true 3 0 0x100)

theorem reachable_twoSends : Reachable Served.Init Served.Next twoSends := by
  have hinit : Reachable Served.Init Served.Next idlePorts := .init ⟨fun _ => rfl, fun _ _ => rfl⟩
  exact ((hinit.step ⟨_, rfl⟩).step ⟨_, rfl⟩).step ⟨_, rfl⟩

theorem log_twoSends : twoSends.log 0 .senders = [.front 0, .front 1, .turn 1 none] := by
  decide

/-- Thread 3 gets the message of thread 2, and thread 1 goes on waiting. -/
theorem late_sender_first : ∃ w : Served, Reachable Served.Init Served.Next w ∧
    ∃ port side, ¬ InOrder (w.log port side) := by
  refine ⟨twoSends, reachable_twoSends, 0, .senders, ?_⟩
  rw [log_twoSends]
  intro horder
  have hrace : Race (.front 0) (.front 1) (.turn 1 none) [] [] 0 1 := by
    constructor
    · exact Nat.zero_ne_one
    · rfl
    · rfl
    · intro d hd
      cases List.mem_singleton.mp hd
      exact id
    · rfl
    · exact nofun
  rcases horder [] [] [] [] _ _ _ 0 1 rfl hrace with ⟨d, hd, -⟩
  cases hd

/-- With them both waiting, the order is not kept. -/
theorem served_inOrder_iff_twoSends :
    InOrder (twoSends.log 0 .senders) ↔ Alone (twoSends.log 0 .senders) :=
  served_inOrder_iff reachable_twoSends 0 .senders

end Example

end Orchid
