import Orchid.Core.Ledger
import Orchid.Ipc.Wakeup
import Orchid.Scheduler.RunQueue

/-! # Every message is delivered once

The calls of `ipc.c`, each taken up to its return or to the `schedule` of its
`thread_block`, by any threads in any order, with thread switches in between.
The machine keeps a log: the messages sent, the requests to receive one, and the
deliveries, which pair one with the other.

Two ledgers are kept. A message sent is delivered, or waits in the node of its
sender, or was a kernel message for which nobody waited. A request is served, or
waits in its node. A thread is blocked exactly while one of its nodes waits.
-/

namespace Orchid

open Ledger Machine Function

/-! ## The log -/

/-- The bytes of a message that are passed on. -/
def IpcMessage.view (m : IpcMessage) : List UInt8 :=
  (List.range (min m.length ipcMsgMax)).map m.data

theorem view_length (m : IpcMessage) : m.view.length = min m.length 256 := by
  simp [IpcMessage.view, ipcMsgMax]

theorem view_copyMessage (src dst : IpcMessage) : (copyMessage src dst).view = src.view := by
  unfold IpcMessage.view
  rw [copyMessage_length, ipcMsgMax, min_eq_left (min_le_right src.length 256)]
  refine List.map_congr_left fun i hi => ?_
  exact copyMessage_data src dst (List.mem_range.mp hi)

/-- The bytes of two messages with one view. -/
theorem data_of_view_eq {m m' : IpcMessage} (h : m.view = m'.view) {i : Nat}
    (hi : i < min m.length 256) : m.data i = m'.data i := by
  have hlen : min m.length 256 = min m'.length 256 := by
    rw [← view_length, ← view_length, h]
  have hget := congrArg (fun bytes => bytes[i]?) h
  simpa [IpcMessage.view, ipcMsgMax, List.getElem?_range hi, List.getElem?_range (hlen ▸ hi)]
    using hget

/-- A message under way: the call that sent it, and what it says. A kernel
message has no sending thread. -/
structure Parcel where
  call : Nat
  port : Nat
  thread : Option Tid
  bytes : List UInt8
  deriving DecidableEq

/-- A call of `ipc_recv`. -/
structure Request where
  call : Nat
  port : Nat
  thread : Tid
  buffer : Nat
  deriving DecidableEq

/-- A call of `ipc_send`, or of `ipc_kernel_send`. -/
structure SendCall where
  call : Nat
  port : Nat
  thread : Option Tid
  msg : IpcMessage

/-- A message handed to a receiver; `stored` is what its buffer holds then. -/
structure Delivery where
  parcel : Parcel
  request : Request
  stored : IpcMessage

def SendCall.parcel (c : SendCall) : Parcel := ⟨c.call, c.port, c.thread, c.msg.view⟩

def SendNode.parcel (port : Nat) (n : SendNode) : Parcel :=
  ⟨n.call, port, some n.thread, n.pendingMsg.view⟩

def RecvNode.request (port : Nat) (n : RecvNode) : Request := ⟨n.call, port, n.thread, n.buffer⟩

/-- The messages that wait on a port. -/
def Ipc.parcelsAt (s : Ipc) (p : Nat) : List Parcel := (s.ports p).senders.map (·.parcel p)

/-- The requests that wait on a port. -/
def Ipc.requestsAt (s : Ipc) (p : Nat) : List Request := (s.ports p).recvers.map (·.request p)

/-- The threads that have a node on a port, once for each node. -/
def Ipc.waitersAt (s : Ipc) (p : Nat) : List Tid :=
  (s.ports p).senders.map (·.thread) ++ (s.ports p).recvers.map (·.thread)

theorem Ipc.waiters_nil {s : Ipc} (hports : ∀ p, s.ports p = ⟨[], []⟩) :
    gather maxPorts s.waitersAt = [] := by
  apply gather_eq_nil
  intro p
  simp only [Ipc.waitersAt, hports, List.map_nil, List.append_nil]

/-! ## The machine -/

structure Rendezvous where
  sched : Sched
  threads : Set Tid
  ipc : Ipc
  /-- The number of the next call. -/
  calls : Nat
  sends : List SendCall
  recvs : List Request
  deliveries : List Delivery
  /-- Kernel messages for which nobody waited. -/
  dropped : List SendCall

/-- The rest of a call, up to its return or its blocking. -/
def Tail.run (fuel : Nat) : Tail → Sched → Option Sched
  | .done, s => some s
  | .wake t, s => threadUnblock fuel t s
  | .sleep, s => schedule fuel (threadBlockMark s)

namespace Rendezvous

/-- A message was sent: it went to the first waiting receiver, if there was
one. -/
def sent (w : Rendezvous) (c : SendCall) (ipc : Ipc) (sched : Sched) : Rendezvous :=
  let receiver := (w.ipc.ports c.port).recvers.head?
  { w with
    sched := sched
    ipc := ipc
    calls := w.calls + 1
    sends := c :: w.sends
    deliveries := (receiver.map fun n => ⟨c.parcel, n.request c.port, ipc.buffers n.buffer⟩).toList ++
      w.deliveries
    dropped := if c.thread.isNone ∧ receiver.isNone then c :: w.dropped else w.dropped }

/-- A message was asked for: the first waiting sender's, if there was one. -/
def asked (w : Rendezvous) (r : Request) (ipc : Ipc) (sched : Sched) : Rendezvous :=
  let sender := (w.ipc.ports r.port).senders.head?
  { w with
    sched := sched
    ipc := ipc
    calls := w.calls + 1
    recvs := r :: w.recvs
    deliveries := (sender.map fun n => ⟨n.parcel r.port, r, ipc.buffers r.buffer⟩).toList ++
      w.deliveries }

/-- Any threads, none of them blocked, and empty ports. -/
def Init : StatePred Rendezvous := fun w =>
  (∃ idle cur l, WellQueued w.sched w.threads idle cur l ∧
    (cur ≠ idle → w.sched.state cur = .running)) ∧
  (∀ t ∈ w.threads, w.sched.state t ≠ .blocked) ∧ (∀ p, w.ipc.ports p = ⟨[], []⟩) ∧
  w.sends = [] ∧ w.recvs = [] ∧ w.deliveries = [] ∧ w.dropped = []

/-- One call, or a switch, a new thread or the end of one. Interrupts may send
on behalf of the kernel whoever is current; the idle thread calls nothing. -/
inductive Next : Action Rendezvous where
  | send {w : Rendezvous} {cur : Tid} {port fuel : Nat} {msg old : IpcMessage} {tail : Tail}
      {ipc : Ipc} {q : Sched} :
      w.sched.currentThread = some cur → w.sched.idleThreadPtr ≠ some cur → port < maxPorts →
      ipcSendLocked (some old) w.calls cur port msg w.ipc = (tail, ipc) →
      tail.run fuel w.sched = some q → Next w (w.sent ⟨w.calls, port, some cur, msg⟩ ipc q)
  | kernelSend {w : Rendezvous} {port fuel : Nat} {msg : IpcMessage} {tail : Tail}
      {ipc : Ipc} {q : Sched} :
      port < maxPorts → ipcKernelSendLocked port msg w.ipc = (tail, ipc) →
      tail.run fuel w.sched = some q → Next w (w.sent ⟨w.calls, port, none, msg⟩ ipc q)
  | recv {w : Rendezvous} {cur : Tid} {port msg fuel : Nat} {tail : Tail} {ipc : Ipc} {q : Sched} :
      w.sched.currentThread = some cur → w.sched.idleThreadPtr ≠ some cur → port < maxPorts →
      ipcRecvLocked true w.calls cur port msg w.ipc = (tail, ipc) →
      tail.run fuel w.sched = some q → Next w (w.asked ⟨w.calls, port, cur, msg⟩ ipc q)
  | schedule {w : Rendezvous} {fuel : Nat} {q : Sched} :
      Orchid.schedule fuel w.sched = some q → Next w { w with sched := q }
  | threadCreate {w : Rendezvous} {t : Tid} (stack cr3 : Nat) (proc : Option ProcPtr) :
      t ∉ w.threads → Next w { w with
        sched := threadCreate t stack cr3 proc w.sched
        threads := insert t w.threads }
  | threadExit {w : Rendezvous} {cur : Tid} {fuel : Nat} {q : Sched} :
      w.sched.currentThread = some cur → w.sched.idleThreadPtr ≠ some cur →
      Orchid.schedule fuel (threadExitMark w.sched) = some q → Next w { w with sched := q }

/-- What holds of a state with its log. -/
structure ExactlyOnce (w : Rendezvous) : Prop where
  oneSided : ∀ p < maxPorts, (w.ipc.ports p).senders = [] ∨ (w.ipc.ports p).recvers = []
  /-- A blocked thread is in one node of one port. -/
  oneNode : ∀ t ∈ w.threads, w.sched.state t = .blocked →
    ∃ p < maxPorts, (w.ipc.waitersAt p).count t = 1 ∧
      ∀ q < maxPorts, q ≠ p → t ∉ w.ipc.waitersAt q
  /-- What threads sent on a port was delivered there or is pending there. -/
  messages : ∀ p < maxPorts,
    ((w.sends.filter fun c => c.port = p ∧ c.thread.isSome).map (·.parcel)).Perm
      (((w.deliveries.map (·.parcel)).filter fun x => x.port = p ∧ x.thread.isSome) ++
        w.ipc.parcelsAt p)
  /-- No call's message is delivered twice. -/
  atMostOnce : (w.deliveries.map (·.parcel.call)).Nodup
  /-- A send returns after its message was taken. -/
  sendReturns : ∀ c ∈ w.sends, ∀ t ∈ c.thread, (∃ d ∈ w.deliveries, d.parcel = c.parcel) ∨
    w.sched.state t = .blocked ∧ w.sched.currentThread ≠ some t
  /-- A receive returns after one message was handed to it. -/
  recvReturns : ∀ r ∈ w.recvs, (w.deliveries.map (·.request)).count r = 1 ∨
    (w.deliveries.map (·.request)).count r = 0 ∧
      w.sched.state r.thread = .blocked ∧ w.sched.currentThread ≠ some r.thread
  /-- A delivery is of a message that was sent, on the port where it was asked
  for, and the buffer then holds what was sent, cut off at 256 bytes. -/
  delivered : ∀ d ∈ w.deliveries, ∃ c ∈ w.sends, d.parcel = c.parcel ∧ d.request ∈ w.recvs ∧
    d.request.port = c.port ∧ (d.request.buffer ≠ 0 →
      d.stored.length = min c.msg.length 256 ∧
        ∀ i < min c.msg.length 256, d.stored.data i = c.msg.data i)

end Rendezvous

/-! ## What the locked sections do to a port -/

section Sections

variable {s s' : Ipc} {cur : Tid} {port : Nat} {msg : IpcMessage} {tail : Tail}

/-- One port is replaced. -/
structure Ipc.Changes (port : Nat) (new : Port) (s s' : Ipc) : Prop where
  self : s'.ports port = new
  others : ∀ q, q ≠ port → s'.ports q = s.ports q
  blank : s'.Blank

/-- The first receiver is taken off, with `msg` in its buffer. -/
def Ipc.Serves (port : Nat) (msg : IpcMessage) (s s' : Ipc) (node : RecvNode)
    (rest : List RecvNode) : Prop :=
  (s.ports port).recvers = node :: rest ∧
  Ipc.Changes port ⟨(s.ports port).senders, rest⟩ s s' ∧
  (node.buffer ≠ 0 → s'.buffers node.buffer = copyMessage msg (s.buffers node.buffer))

theorem changes_setPort {new : Port} (h : s.Blank) :
    Ipc.Changes port new s ((ipcEnsureInit s).setPort port new) where
  self := update_self ..
  others q hq := by
    simp [Ipc.setPort, hq, ensureInit_ports h]
  blank := blank_of_initialized (ensureInit_initialized s)

theorem ensureInit_buffers (s : Ipc) : (ipcEnsureInit s).buffers = s.buffers := by
  unfold ipcEnsureInit
  split <;> rfl

theorem handOver_serves {node : RecvNode} {rest : List RecvNode} (h : s.Blank)
    (hrecvers : (s.ports port).recvers = node :: rest) :
    s.Serves port msg (handOver port msg node rest (ipcEnsureInit s)) node rest := by
  have hset := @changes_setPort s port ⟨(s.ports port).senders, rest⟩ h
  refine ⟨hrecvers, ?_, ?_⟩
  · unfold handOver
    rw [ensureInit_ports h]
    dsimp only
    split
    · exact hset
    · exact ⟨hset.self, hset.others, hset.blank⟩
  · intro hbuffer
    unfold handOver
    simp [hbuffer, Ipc.fill, Ipc.setPort, ensureInit_buffers]

/-- `ipc_init` is run on ports that are empty. -/
theorem changes_ensureInit (h : s.Blank) : s.Changes port (s.ports port) (ipcEnsureInit s) where
  self := by rw [ensureInit_ports h]
  others q _ := by rw [ensureInit_ports h]
  blank := blank_of_initialized (ensureInit_initialized s)

theorem ipcSendLocked_cases {node : Option IpcMessage} {call : Nat} (h : s.Blank)
    (hport : port < maxPorts) (hcall : ipcSendLocked node call cur port msg s = (tail, s')) :
    (∃ n rest, s.Serves port msg s' n rest ∧ tail = .wake n.thread) ∨
    (s.ports port).recvers = [] ∧ (node = none ∧ tail = .done ∧ s' = ipcEnsureInit s ∨
      ∃ old, node = some old ∧ tail = .sleep ∧
        s.Changes port ⟨⟨cur, copyMessage msg old, call⟩ :: (s.ports port).senders, []⟩ s') := by
  unfold ipcSendLocked at hcall
  simp only [ensureInit_ports h, if_neg (Nat.not_le.mpr hport)] at hcall
  split at hcall
  · next n rest hrecvers =>
    cases hcall
    exact Or.inl ⟨n, rest, handOver_serves h hrecvers, rfl⟩
  · next hrecvers =>
    refine Or.inr ⟨hrecvers, ?_⟩
    cases node with
    | none =>
      cases hcall
      exact Or.inl ⟨rfl, rfl, rfl⟩
    | some old =>
      cases hcall
      rw [hrecvers]
      exact Or.inr ⟨old, rfl, rfl, changes_setPort h⟩

theorem ipcKernelSendLocked_cases (h : s.Blank) (hport : port < maxPorts)
    (hcall : ipcKernelSendLocked port msg s = (tail, s')) :
    (∃ n rest, s.Serves port msg s' n rest ∧ tail = .wake n.thread) ∨
    (s.ports port).recvers = [] ∧ tail = .done ∧ s' = ipcEnsureInit s := by
  rw [ipcKernelSendLocked_eq 0 0] at hcall
  rcases ipcSendLocked_cases h hport hcall with hserves | ⟨hrecvers, ⟨-, hdone⟩ | ⟨_, hsome, -⟩⟩
  · exact Or.inl hserves
  · exact Or.inr ⟨hrecvers, hdone⟩
  · cases hsome

theorem ipcRecvLocked_cases {alloc : Bool} {call buffer : Nat} (h : s.Blank)
    (hport : port < maxPorts) (hcall : ipcRecvLocked alloc call cur port buffer s = (tail, s')) :
    (∃ n rest, (s.ports port).senders = n :: rest ∧ tail = .wake n.thread ∧
      s.Changes port ⟨rest, (s.ports port).recvers⟩ s' ∧
      s'.buffers buffer = copyMessage n.pendingMsg (s.buffers buffer)) ∨
    (s.ports port).senders = [] ∧ (alloc = false ∧ tail = .done ∧ s' = ipcEnsureInit s ∨
      alloc = true ∧ tail = .sleep ∧
        s.Changes port ⟨[], ⟨cur, buffer, call⟩ :: (s.ports port).recvers⟩ s') := by
  unfold ipcRecvLocked at hcall
  simp only [ensureInit_ports h, if_neg (Nat.not_le.mpr hport)] at hcall
  split at hcall
  · next n rest hsenders =>
    cases hcall
    have hset := @changes_setPort s port ⟨rest, (s.ports port).recvers⟩ h
    refine Or.inl ⟨n, rest, hsenders, rfl, ⟨hset.self, hset.others, hset.blank⟩, ?_⟩
    simp [Ipc.fill, Ipc.setPort, ensureInit_buffers]
  · next hsenders =>
    refine Or.inr ⟨hsenders, ?_⟩
    cases alloc with
    | false =>
      cases hcall
      exact Or.inl ⟨rfl, rfl, rfl⟩
    | true =>
      cases hcall
      rw [hsenders]
      exact Or.inr ⟨rfl, rfl, changes_setPort h⟩

end Sections

/-! ## Threads in their seats -/

/-- Between the calls: the run queue is in order and who is current runs. -/
def Steady (s : Sched) (threads : Set Tid) : Prop :=
  ∃ idle cur l, WellQueued s threads idle cur l ∧ (cur ≠ idle → s.state cur = .running)

section Threads

variable {s q : Sched} {threads : Set Tid} {idle cur t : Tid} {l : List Tid} {fuel : Nat}

/-- `schedule` changes nobody's being blocked. -/
theorem steady_schedule (h : WellQueued s threads idle cur l) (hret : schedule fuel s = some q) :
    Steady q threads ∧ ∀ u, q.state u = .blocked ↔ s.state u = .blocked := by
  rcases schedule_spec h.queue h.current h.idlePtr h.notMem_of_running hret with
    ⟨-, -, hstate, -⟩
  refine ⟨⟨idle, _, _, h.schedule hret, fun _ => ?_⟩, fun u => ?_⟩
  · rw [hstate, update_self]
  · -- the thread picked was ready, or is the idle thread
    have hhead : s.state (l.headD idle) ≠ .blocked := by
      cases l with
      | nil => rcases h.idle_awake with hidle | hidle <;> simp [hidle]
      | cons a r => simp [((h.mem_iff a).mp List.mem_cons_self).2.2]
    have hrequeued : statesRequeued s cur u = .blocked ↔ s.state u = .blocked := by
      unfold statesRequeued
      split
      · next hr =>
        by_cases hu : u = cur
        · simp [hu, hr.1]
        · simp [hu]
      · rfl
    rw [hstate]
    by_cases hu : u = l.headD idle
    · simp only [hu, update_self, reduceCtorEq, false_iff]
      exact hhead
    · rw [update_of_ne hu, hrequeued]

theorem steady_unblock (h : Steady s threads) (ht : t ∈ threads)
    (hret : threadUnblock fuel t s = some q) :
    Steady q threads ∧ ∀ u, q.state u = .blocked ↔ s.state u = .blocked ∧ u ≠ t := by
  rcases h with ⟨idle, cur, l, h, hrun⟩
  rcases threadUnblock_state hret with ⟨hself, hothers⟩
  have hblocked : ∀ u, q.state u = .blocked ↔ s.state u = .blocked ∧ u ≠ t := by
    intro u
    constructor
    · exact threadUnblock_blocked hret
    · rintro ⟨hu, hne⟩
      rw [hothers u hne, hu]
  rcases h.threadUnblock ht hret with ⟨l', h'⟩
  refine ⟨⟨idle, cur, l', h', fun hne => ?_⟩, hblocked⟩
  -- a running thread is not touched
  by_cases hct : cur = t
  · unfold threadUnblock at hret
    rw [if_neg (by rw [← hct, hrun hne]; decide)] at hret
    cases hret
    exact hrun hne
  · rw [hothers cur hct, hrun hne]

/-- `thread_block`, by a thread other than idle. -/
theorem steady_block (h : Steady s threads) (hcur : s.currentThread = some cur)
    (hidle : s.idleThreadPtr ≠ some cur) (hret : schedule fuel (threadBlockMark s) = some q) :
    Steady q threads ∧ s.state cur ≠ .blocked ∧ cur ∈ threads ∧
      ∀ u, q.state u = .blocked ↔ s.state u = .blocked ∨ u = cur := by
  rcases h with ⟨idle, c, l, h, hrun⟩
  have hc : c = cur := Option.some.inj (h.current.symm.trans hcur)
  subst hc
  have hne : c ≠ idle := fun heq => hidle (heq ▸ h.idlePtr)
  rcases steady_schedule (h.threadBlockMark hne (hrun hne)) hret with ⟨hsteady, hblocked⟩
  refine ⟨hsteady, by rw [hrun hne]; decide, h.cur_mem, fun u => ?_⟩
  rw [hblocked]
  by_cases hu : u = c
  · simp [threadBlockMark, hcur, hu]
  · simp [threadBlockMark, hcur, hu]

/-- `thread_exit`, by a thread other than idle. -/
theorem steady_exit (h : Steady s threads) (hcur : s.currentThread = some cur)
    (hidle : s.idleThreadPtr ≠ some cur) (hret : schedule fuel (threadExitMark s) = some q) :
    Steady q threads ∧ ∀ u, q.state u = .blocked ↔ s.state u = .blocked := by
  rcases h with ⟨idle, c, l, h, hrun⟩
  have hc : c = cur := Option.some.inj (h.current.symm.trans hcur)
  subst hc
  have hne : c ≠ idle := fun heq => hidle (heq ▸ h.idlePtr)
  rcases steady_schedule (h.threadExitMark hne (hrun hne)) hret with ⟨hsteady, hblocked⟩
  refine ⟨hsteady, fun u => ?_⟩
  rw [hblocked]
  by_cases hu : u = c
  · simp [threadExitMark, hcur, hu, hrun hne]
  · simp [threadExitMark, hcur, hu]

theorem steady_create {stack cr3 : Nat} {proc : Option ProcPtr} (h : Steady s threads)
    (ht : t ∉ threads) :
    Steady (threadCreate t stack cr3 proc s) (insert t threads) ∧
      ∀ u ∈ threads, (threadCreate t stack cr3 proc s).state u = s.state u := by
  rcases h with ⟨idle, cur, l, h, hrun⟩
  rcases initThread_spec 7 t stack cr3 proc s with ⟨hstate, -⟩
  have hkept : ∀ u ∈ threads, (threadCreate t stack cr3 proc s).state u = s.state u := by
    intro u hu
    have hut : u ≠ t := fun heq => ht (heq ▸ hu)
    unfold threadCreate
    rw [hstate, update_of_ne hut]
  refine ⟨⟨idle, cur, t :: l, h.initThread ht, fun hne => ?_⟩, hkept⟩
  rw [hkept cur h.cur_mem, hrun hne]

end Threads

/-- The blocked threads are those in the list, each once. -/
structure Seats (s : Sched) (threads : Set Tid) (seats : List Tid) : Prop where
  steady : Steady s threads
  nodup : seats.Nodup
  blocked : ∀ t, t ∈ seats ↔ t ∈ threads ∧ s.state t = .blocked

namespace Seats

variable {s q : Sched} {threads : Set Tid} {seats seats' : List Tid} {cur t : Tid} {fuel : Nat}

/-- A thread is woken. -/
theorem take (h : Seats s threads seats) (hperm : seats.Perm (t :: seats'))
    (hret : threadUnblock fuel t s = some q) : Seats q threads seats' := by
  have hnodup := hperm.nodup_iff.mp h.nodup
  rcases List.nodup_cons.mp hnodup with ⟨hnot, hrest⟩
  have hmem : ∀ u, u ∈ seats ↔ u = t ∨ u ∈ seats' := by
    intro u
    rw [hperm.mem_iff, List.mem_cons]
  have ht : t ∈ threads := ((h.blocked t).mp ((hmem t).mpr (Or.inl rfl))).1
  rcases steady_unblock h.steady ht hret with ⟨hsteady, hblocked⟩
  refine ⟨hsteady, hrest, fun u => ?_⟩
  rw [hblocked u, ← and_assoc, ← h.blocked u, hmem u]
  constructor
  · intro hu
    exact ⟨Or.inr hu, fun heq => hnot (heq ▸ hu)⟩
  · rintro ⟨heq | hu, hne⟩
    · exact absurd heq hne
    · exact hu

/-- The current thread blocks. -/
theorem sleep (h : Seats s threads seats) (hcur : s.currentThread = some cur)
    (hidle : s.idleThreadPtr ≠ some cur) (hperm : seats'.Perm (cur :: seats))
    (hret : schedule fuel (threadBlockMark s) = some q) : Seats q threads seats' := by
  rcases steady_block h.steady hcur hidle hret with ⟨hsteady, hawake, hmem, hblocked⟩
  have hnew : cur ∉ seats := fun hin => hawake ((h.blocked cur).mp hin).2
  refine ⟨hsteady, hperm.nodup_iff.mpr (List.nodup_cons.mpr ⟨hnew, h.nodup⟩), fun u => ?_⟩
  rw [hperm.mem_iff, List.mem_cons, h.blocked u, hblocked u]
  constructor
  · rintro (rfl | ⟨hu, hstate⟩)
    · exact ⟨hmem, Or.inr rfl⟩
    · exact ⟨hu, Or.inl hstate⟩
  · rintro ⟨hu, hstate | heq⟩
    · exact Or.inr ⟨hu, hstate⟩
    · exact Or.inl heq

/-- The scheduler moves on. -/
theorem move (h : Seats s threads seats) (hsteady : Steady q threads)
    (hblocked : ∀ u, q.state u = .blocked ↔ s.state u = .blocked) : Seats q threads seats where
  steady := hsteady
  nodup := h.nodup
  blocked u := by rw [h.blocked u, hblocked u]

theorem create {stack cr3 : Nat} {proc : Option ProcPtr} (h : Seats s threads seats)
    (ht : t ∉ threads) : Seats (threadCreate t stack cr3 proc s) (insert t threads) seats := by
  rcases @steady_create s threads t stack cr3 proc h.steady ht with ⟨hsteady, hkept⟩
  refine ⟨hsteady, h.nodup, fun u => ?_⟩
  rw [h.blocked u]
  constructor
  · rintro ⟨hu, hstate⟩
    exact ⟨Or.inr hu, by rw [hkept u hu, hstate]⟩
  · rintro ⟨heq | hu, hstate⟩
    · -- the new thread is ready
      rcases initThread_spec 7 t stack cr3 proc s with ⟨hnew, -⟩
      unfold threadCreate at hstate
      rw [hnew, heq, update_self] at hstate
      cases hstate
    · exact ⟨hu, by rw [← hkept u hu, hstate]⟩

end Seats

section Ports

variable {s s' : Ipc} {new : Port} {port : Nat}

theorem Ipc.Changes.waitersAt (h : s.Changes port new s') {q : Nat} (hq : q ≠ port) :
    s'.waitersAt q = s.waitersAt q := by
  unfold Ipc.waitersAt
  rw [h.others q hq]

theorem Ipc.Changes.parcelsAt (h : s.Changes port new s') {q : Nat} (hq : q ≠ port) :
    s'.parcelsAt q = s.parcelsAt q := by
  unfold Ipc.parcelsAt
  rw [h.others q hq]

theorem Ipc.Changes.requestsAt (h : s.Changes port new s') {q : Nat} (hq : q ≠ port) :
    s'.requestsAt q = s.requestsAt q := by
  unfold Ipc.requestsAt
  rw [h.others q hq]

/-- The senders of the changed port are as they were. -/
theorem Ipc.Changes.parcels_eq (h : s.Changes port new s')
    (hsame : new.senders = (s.ports port).senders) :
    gather maxPorts s'.parcelsAt = gather maxPorts s.parcelsAt := by
  refine gather_congr fun q _ => ?_
  by_cases hq : q = port
  · subst hq
    unfold Ipc.parcelsAt
    rw [h.self, hsame]
  · exact h.parcelsAt hq

theorem Ipc.Changes.requests_eq (h : s.Changes port new s')
    (hsame : new.recvers = (s.ports port).recvers) :
    gather maxPorts s'.requestsAt = gather maxPorts s.requestsAt := by
  refine gather_congr fun q _ => ?_
  by_cases hq : q = port
  · subst hq
    unfold Ipc.requestsAt
    rw [h.self, hsame]
  · exact h.requestsAt hq

theorem Ipc.Changes.oneSided (h : s.Changes port new s')
    (hold : ∀ p, (s.ports p).senders = [] ∨ (s.ports p).recvers = [])
    (hnew : new.senders = [] ∨ new.recvers = []) (p : Nat) :
    (s'.ports p).senders = [] ∨ (s'.ports p).recvers = [] := by
  by_cases hp : p = port
  · rw [hp, h.self]
    exact hnew
  · rw [h.others p hp]
    exact hold p

end Ports

/-! ## The books -/

namespace Rendezvous

variable {w w' : Rendezvous} {c : SendCall} {r : Request} {ipc : Ipc} {q : Sched} {cur : Tid}
  {fuel : Nat}

structure Inv (w : Rendezvous) : Prop where
  /-- The blocked threads are those with a node, and each has one. -/
  seated : Seats w.sched w.threads (gather maxPorts w.ipc.waitersAt)
  blank : w.ipc.Blank
  oneSided : ∀ p, (w.ipc.ports p).senders = [] ∨ (w.ipc.ports p).recvers = []
  parcels : Books (w.sends.map SendCall.parcel) (w.deliveries.map Delivery.parcel)
    (gather maxPorts w.ipc.parcelsAt ++ w.dropped.map SendCall.parcel)
  requests : Books w.recvs (w.deliveries.map Delivery.request) (gather maxPorts w.ipc.requestsAt)
  sends_lt : ∀ c ∈ w.sends, c.call < w.calls
  sends_nodup : (w.sends.map SendCall.call).Nodup
  recvs_lt : ∀ r ∈ w.recvs, r.call < w.calls
  dropped : ∀ c ∈ w.dropped, c.thread = none
  sound : ∀ d ∈ w.deliveries, d.request.port = d.parcel.port ∧ (d.request.buffer ≠ 0 →
    d.stored.length = d.parcel.bytes.length ∧ d.stored.view = d.parcel.bytes)

theorem init_inv (h : Init w) : w.Inv := by
  rcases h with ⟨hsteady, hawake, hports, hsends, hrecvs, hdeliveries, hdropped⟩
  have hwaiters : gather maxPorts w.ipc.waitersAt = [] := Ipc.waiters_nil hports
  have hparcels : gather maxPorts w.ipc.parcelsAt = [] :=
    gather_eq_nil fun p => by simp [Ipc.parcelsAt, hports]
  have hrequests : gather maxPorts w.ipc.requestsAt = [] :=
    gather_eq_nil fun p => by simp [Ipc.requestsAt, hports]
  refine ⟨⟨hsteady, ?_, ?_⟩, fun _ => hports, ?_, ⟨?_, ?_⟩, ⟨?_, ?_⟩, ?_, ?_, ?_, ?_, ?_⟩
  · rw [hwaiters]
    exact List.nodup_nil
  · intro t
    rw [hwaiters]
    exact ⟨(fun ht => by cases ht), fun ht => absurd ht.2 (hawake t ht.1)⟩
  · intro p
    rw [hports]
    exact Or.inl rfl
  all_goals simp [hsends, hrecvs, hdeliveries, hdropped, hparcels, hrequests]

/-- The next number is new. -/
theorem Inv.parcel_notMem (h : w.Inv) (hc : c.call = w.calls) :
    c.parcel ∉ w.sends.map SendCall.parcel := by
  intro hmem
  rcases List.mem_map.mp hmem with ⟨c', hc', heq⟩
  have hcall : c'.call = c.call := congrArg Parcel.call heq
  have hlt := h.sends_lt c' hc'
  omega

theorem Inv.request_notMem (h : w.Inv) (hr : r.call = w.calls) : r ∉ w.recvs := by
  intro hmem
  have hlt := h.recvs_lt r hmem
  omega

/-- A new call is numbered after all others. -/
theorem Inv.sends_cons (h : w.Inv) (hc : c.call = w.calls) :
    (∀ c' ∈ c :: w.sends, c'.call < w.calls + 1) ∧ ((c :: w.sends).map SendCall.call).Nodup := by
  constructor
  · intro c' hc'
    rcases List.mem_cons.mp hc' with rfl | hc'
    · omega
    · exact Nat.lt_succ_of_lt (h.sends_lt c' hc')
  · refine List.nodup_cons.mpr ⟨fun hmem => ?_, h.sends_nodup⟩
    rcases List.mem_map.mp hmem with ⟨c', hc', heq⟩
    have hlt := h.sends_lt c' hc'
    omega

theorem Inv.recvs_cons (h : w.Inv) (hr : r.call = w.calls) :
    ∀ r' ∈ r :: w.recvs, r'.call < w.calls + 1 := by
  intro r' hr'
  rcases List.mem_cons.mp hr' with rfl | hr'
  · omega
  · exact Nat.lt_succ_of_lt (h.recvs_lt r' hr')

/-- What is copied into a buffer is the message. -/
theorem stored_of_copy {src dst stored : IpcMessage} {bytes : List UInt8}
    (h : stored = copyMessage src dst) (hbytes : src.view = bytes) :
    stored.length = bytes.length ∧ stored.view = bytes := by
  rw [h, view_copyMessage, ← hbytes, view_length, copyMessage_length]
  exact ⟨rfl, rfl⟩

/-- A message goes to a receiver that waits for it. -/
theorem Inv.serve {node : RecvNode} {rest : List RecvNode} (h : w.Inv) (hc : c.call = w.calls)
    (hport : c.port < maxPorts) (hserves : w.ipc.Serves c.port c.msg ipc node rest)
    (hret : threadUnblock fuel node.thread w.sched = some q) : (w.sent c ipc q).Inv := by
  rcases hserves with ⟨hrecvers, hchanges, hstored⟩
  have hsenders : (w.ipc.ports c.port).senders = [] := by
    refine (h.oneSided c.port).resolve_right ?_
    rw [hrecvers]
    exact List.cons_ne_nil node rest
  have hwaiters : (gather maxPorts w.ipc.waitersAt).Perm
      (node.thread :: gather maxPorts ipc.waitersAt) := by
    refine gather_push hport (fun p hp => (hchanges.waitersAt hp).symm) ?_
    simp [Ipc.waitersAt, hchanges.self, hrecvers, hsenders]
  have hrequests : (gather maxPorts w.ipc.requestsAt).Perm
      (node.request c.port :: gather maxPorts ipc.requestsAt) := by
    refine gather_push hport (fun p hp => (hchanges.requestsAt hp).symm) ?_
    simp [Ipc.requestsAt, hchanges.self, hrecvers]
  have hsent : w.sent c ipc q = { w with
      sched := q
      ipc := ipc
      calls := w.calls + 1
      sends := c :: w.sends
      deliveries := ⟨c.parcel, node.request c.port, ipc.buffers node.buffer⟩ :: w.deliveries } := by
    simp [sent, hrecvers]
  rw [hsent]
  refine ⟨h.seated.take hwaiters hret, hchanges.blank,
    hchanges.oneSided h.oneSided (Or.inl hsenders), ?_, h.requests.settle hrequests,
    (h.sends_cons hc).1, (h.sends_cons hc).2,
    fun r hr => Nat.lt_succ_of_lt (h.recvs_lt r hr), h.dropped, ?_⟩
  · have hsame := hchanges.parcels_eq rfl
    simp only [List.map_cons, hsame]
    exact h.parcels.direct (h.parcel_notMem hc)
  · intro d hd
    rcases List.mem_cons.mp hd with rfl | hd
    · exact ⟨rfl, fun hbuffer => stored_of_copy (hstored hbuffer) rfl⟩
    · exact h.sound d hd

/-- A sender finds nobody: it blocks with its message. -/
theorem Inv.post {msg old : IpcMessage} {port : Nat} (h : w.Inv)
    (hcur : w.sched.currentThread = some cur) (hidle : w.sched.idleThreadPtr ≠ some cur)
    (hport : port < maxPorts) (hrecvers : (w.ipc.ports port).recvers = [])
    (hchanges : w.ipc.Changes port
      ⟨⟨cur, copyMessage msg old, w.calls⟩ :: (w.ipc.ports port).senders, []⟩ ipc)
    (hret : Orchid.schedule fuel (threadBlockMark w.sched) = some q) :
    (w.sent ⟨w.calls, port, some cur, msg⟩ ipc q).Inv := by
  have hwaiters : (gather maxPorts ipc.waitersAt).Perm (cur :: gather maxPorts w.ipc.waitersAt) := by
    refine gather_push hport (fun p hp => hchanges.waitersAt hp) ?_
    simp [Ipc.waitersAt, hchanges.self, hrecvers]
  have hparcels : (gather maxPorts ipc.parcelsAt).Perm
      (⟨w.calls, port, some cur, msg.view⟩ :: gather maxPorts w.ipc.parcelsAt) := by
    refine gather_push hport (fun p hp => hchanges.parcelsAt hp) ?_
    simp [Ipc.parcelsAt, hchanges.self, SendNode.parcel, view_copyMessage]
  have hsent : w.sent ⟨w.calls, port, some cur, msg⟩ ipc q = { w with
      sched := q
      ipc := ipc
      calls := w.calls + 1
      sends := ⟨w.calls, port, some cur, msg⟩ :: w.sends } := by
    simp [sent, hrecvers]
  rw [hsent]
  refine ⟨h.seated.sleep hcur hidle hwaiters hret, hchanges.blank,
    hchanges.oneSided h.oneSided (Or.inr rfl), ?_, ?_,
    (h.sends_cons rfl).1, (h.sends_cons rfl).2,
    fun r hr => Nat.lt_succ_of_lt (h.recvs_lt r hr), h.dropped, h.sound⟩
  · exact h.parcels.post (h.parcel_notMem rfl) (hparcels.append_right _)
  · simp only [hchanges.requests_eq hrecvers.symm]
    exact h.requests

/-- A kernel message for which nobody waits is dropped. -/
theorem Inv.drop {msg : IpcMessage} {port : Nat} (h : w.Inv)
    (hrecvers : (w.ipc.ports port).recvers = [])
    (hchanges : w.ipc.Changes port (w.ipc.ports port) ipc) :
    (w.sent ⟨w.calls, port, none, msg⟩ ipc w.sched).Inv := by
  have hsent : w.sent ⟨w.calls, port, none, msg⟩ ipc w.sched = { w with
      ipc := ipc
      calls := w.calls + 1
      sends := ⟨w.calls, port, none, msg⟩ :: w.sends
      dropped := ⟨w.calls, port, none, msg⟩ :: w.dropped } := by
    simp [sent, hrecvers]
  have hwaiters : gather maxPorts ipc.waitersAt = gather maxPorts w.ipc.waitersAt := by
    refine gather_congr fun p _ => ?_
    by_cases hp : p = port
    · rw [hp]
      unfold Ipc.waitersAt
      rw [hchanges.self]
    · exact hchanges.waitersAt hp
  rw [hsent]
  refine ⟨hwaiters ▸ h.seated, hchanges.blank,
    hchanges.oneSided h.oneSided (h.oneSided port), ?_, ?_,
    (h.sends_cons rfl).1, (h.sends_cons rfl).2,
    fun r hr => Nat.lt_succ_of_lt (h.recvs_lt r hr), ?_, h.sound⟩
  · simp only [hchanges.parcels_eq rfl]
    exact h.parcels.post (h.parcel_notMem rfl) List.perm_middle
  · simp only [hchanges.requests_eq rfl]
    exact h.requests
  · intro c hc
    rcases List.mem_cons.mp hc with rfl | hc
    · rfl
    · exact h.dropped c hc

/-- A receiver takes the message of a sender that waits. -/
theorem Inv.collect {node : SendNode} {rest : List SendNode} (h : w.Inv) (hr : r.call = w.calls)
    (hport : r.port < maxPorts) (hsenders : (w.ipc.ports r.port).senders = node :: rest)
    (hchanges : w.ipc.Changes r.port ⟨rest, (w.ipc.ports r.port).recvers⟩ ipc)
    (hstored : ipc.buffers r.buffer = copyMessage node.pendingMsg (w.ipc.buffers r.buffer))
    (hret : threadUnblock fuel node.thread w.sched = some q) : (w.asked r ipc q).Inv := by
  have hrecvers : (w.ipc.ports r.port).recvers = [] := by
    refine (h.oneSided r.port).resolve_left ?_
    rw [hsenders]
    exact List.cons_ne_nil node rest
  have hwaiters : (gather maxPorts w.ipc.waitersAt).Perm
      (node.thread :: gather maxPorts ipc.waitersAt) := by
    refine gather_push hport (fun p hp => (hchanges.waitersAt hp).symm) ?_
    simp [Ipc.waitersAt, hchanges.self, hsenders]
  have hparcels : (gather maxPorts w.ipc.parcelsAt).Perm
      (node.parcel r.port :: gather maxPorts ipc.parcelsAt) := by
    refine gather_push hport (fun p hp => (hchanges.parcelsAt hp).symm) ?_
    simp [Ipc.parcelsAt, hchanges.self, hsenders]
  have hasked : w.asked r ipc q = { w with
      sched := q
      ipc := ipc
      calls := w.calls + 1
      recvs := r :: w.recvs
      deliveries := ⟨node.parcel r.port, r, ipc.buffers r.buffer⟩ :: w.deliveries } := by
    simp [asked, hsenders]
  rw [hasked]
  refine ⟨h.seated.take hwaiters hret, hchanges.blank,
    hchanges.oneSided h.oneSided (Or.inr hrecvers), ?_, ?_,
    fun c hc => Nat.lt_succ_of_lt (h.sends_lt c hc), h.sends_nodup, h.recvs_cons hr, h.dropped, ?_⟩
  · exact h.parcels.settle (hparcels.append_right _)
  · simp only [List.map_cons, hchanges.requests_eq rfl]
    exact h.requests.direct (h.request_notMem hr)
  · intro d hd
    rcases List.mem_cons.mp hd with rfl | hd
    · exact ⟨rfl, fun _ => stored_of_copy hstored rfl⟩
    · exact h.sound d hd

/-- A receiver finds nobody: it blocks. -/
theorem Inv.ask {port buffer : Nat} (h : w.Inv)
    (hcur : w.sched.currentThread = some cur) (hidle : w.sched.idleThreadPtr ≠ some cur)
    (hport : port < maxPorts) (hsenders : (w.ipc.ports port).senders = [])
    (hchanges : w.ipc.Changes port
      ⟨[], ⟨cur, buffer, w.calls⟩ :: (w.ipc.ports port).recvers⟩ ipc)
    (hret : Orchid.schedule fuel (threadBlockMark w.sched) = some q) :
    (w.asked ⟨w.calls, port, cur, buffer⟩ ipc q).Inv := by
  have hwaiters : (gather maxPorts ipc.waitersAt).Perm (cur :: gather maxPorts w.ipc.waitersAt) := by
    refine gather_push hport (fun p hp => hchanges.waitersAt hp) ?_
    simp [Ipc.waitersAt, hchanges.self, hsenders]
  have hrequests : (gather maxPorts ipc.requestsAt).Perm
      (⟨w.calls, port, cur, buffer⟩ :: gather maxPorts w.ipc.requestsAt) := by
    refine gather_push hport (fun p hp => hchanges.requestsAt hp) ?_
    simp [Ipc.requestsAt, hchanges.self, RecvNode.request]
  have hasked : w.asked ⟨w.calls, port, cur, buffer⟩ ipc q = { w with
      sched := q
      ipc := ipc
      calls := w.calls + 1
      recvs := ⟨w.calls, port, cur, buffer⟩ :: w.recvs } := by
    simp [asked, hsenders]
  rw [hasked]
  refine ⟨h.seated.sleep hcur hidle hwaiters hret, hchanges.blank,
    hchanges.oneSided h.oneSided (Or.inl rfl), ?_, h.requests.post (h.request_notMem rfl) hrequests,
    fun c hc => Nat.lt_succ_of_lt (h.sends_lt c hc), h.sends_nodup, h.recvs_cons rfl, h.dropped,
    h.sound⟩
  simp only [hchanges.parcels_eq hsenders.symm]
  exact h.parcels

theorem step_inv (h : w.Inv) (hnext : Next w w') : w'.Inv := by
  cases hnext with
  | send hcur hidle hport hcall hret =>
    rcases ipcSendLocked_cases h.blank hport hcall with
      ⟨n, rest, hserves, rfl⟩ | ⟨hrecvers, ⟨hnone, -⟩ | ⟨old, -, rfl, hchanges⟩⟩
    · exact h.serve rfl hport hserves hret
    · cases hnone
    · exact h.post hcur hidle hport hrecvers hchanges hret
  | kernelSend hport hcall hret =>
    rcases ipcKernelSendLocked_cases h.blank hport hcall with
      ⟨n, rest, hserves, rfl⟩ | ⟨hrecvers, rfl, rfl⟩
    · exact h.serve rfl hport hserves hret
    · cases hret
      exact h.drop hrecvers (changes_ensureInit h.blank)
  | recv hcur hidle hport hcall hret =>
    rcases ipcRecvLocked_cases h.blank hport hcall with
      ⟨n, rest, hsenders, rfl, hchanges, hstored⟩ |
        ⟨hsenders, ⟨hfalse, -⟩ | ⟨-, rfl, hchanges⟩⟩
    · exact h.collect rfl hport hsenders hchanges hstored hret
    · cases hfalse
    · exact h.ask hcur hidle hport hsenders hchanges hret
  | schedule hret =>
    rcases h.seated.steady with ⟨idle, cur, l, hqueued, -⟩
    rcases steady_schedule hqueued hret with ⟨hsteady, hblocked⟩
    exact { h with seated := h.seated.move hsteady hblocked }
  | threadCreate stack cr3 proc ht => exact { h with seated := h.seated.create ht }
  | threadExit hcur hidle hret =>
    rcases steady_exit h.seated.steady hcur hidle hret with ⟨hsteady, hblocked⟩
    exact { h with seated := h.seated.move hsteady hblocked }

/-! ## What the books say -/

theorem Inv.not_current (h : w.Inv) {t : Tid} (ht : t ∈ gather maxPorts w.ipc.waitersAt) :
    w.sched.state t = .blocked ∧ w.sched.currentThread ≠ some t := by
  have hblocked := ((h.seated.blocked t).mp ht).2
  refine ⟨hblocked, fun hcur => ?_⟩
  rcases h.seated.steady with ⟨idle, cur, l, hqueued, hrun⟩
  have heq : cur = t := Option.some.inj (hqueued.current.symm.trans hcur)
  subst heq
  by_cases hidle : cur = idle
  · subst hidle
    rcases hqueued.idle_awake with hawake | hawake <;> rw [hblocked] at hawake <;> cases hawake
  · have hrunning := hrun hidle
    rw [hblocked] at hrunning
    cases hrunning

theorem Inv.oneNode (h : w.Inv) {t : Tid} (ht : t ∈ gather maxPorts w.ipc.waitersAt) :
    ∃ p < maxPorts, (w.ipc.waitersAt p).count t = 1 ∧
      ∀ q < maxPorts, q ≠ p → t ∉ w.ipc.waitersAt q := by
  rcases mem_gather.mp ht with ⟨p, hp, hmem⟩
  rcases @gather_split _ _ _ w.ipc.waitersAt _ hp (fun _ _ => rfl) with ⟨rest, hperm, -, hrest⟩
  have hnodup := List.nodup_append.mp (hperm.nodup_iff.mp h.seated.nodup)
  refine ⟨p, hp, List.count_eq_one_of_mem hnodup.1 hmem, fun q hq hne hmem' => ?_⟩
  exact hnodup.2.2 t hmem t ((hrest t).mpr ⟨q, hq, hne, hmem'⟩) rfl

/-- The books of one port: only the messages of threads are looked at. -/
theorem Inv.messages (h : w.Inv) {p : Nat} (hp : p < maxPorts) :
    ((w.sends.filter fun c => c.port = p ∧ c.thread.isSome).map (·.parcel)).Perm
      (((w.deliveries.map (·.parcel)).filter fun x => x.port = p ∧ x.thread.isSome) ++
        w.ipc.parcelsAt p) := by
  let here : Parcel → Bool := fun x => x.port = p ∧ x.thread.isSome
  have hdropped : (w.dropped.map SendCall.parcel).filter here = [] := by
    rw [List.filter_eq_nil_iff]
    intro x hx
    rcases List.mem_map.mp hx with ⟨c, hc, rfl⟩
    simp [here, SendCall.parcel, h.dropped c hc]
  have hpending : ((gather maxPorts w.ipc.parcelsAt).filter here).Perm (w.ipc.parcelsAt p) := by
    rcases @gather_split _ _ _ w.ipc.parcelsAt _ hp (fun _ _ => rfl) with ⟨rest, hperm, -, hrest⟩
    have hself : (w.ipc.parcelsAt p).filter here = w.ipc.parcelsAt p := by
      rw [List.filter_eq_self]
      intro x hx
      rcases List.mem_map.mp hx with ⟨n, -, rfl⟩
      simp [here, SendNode.parcel]
    have hothers : rest.filter here = [] := by
      rw [List.filter_eq_nil_iff]
      intro x hx
      rcases (hrest x).mp hx with ⟨q, -, hne, hxq⟩
      rcases List.mem_map.mp hxq with ⟨n, -, rfl⟩
      simp [here, SendNode.parcel, hne]
    have hfilter := hperm.filter here
    rwa [List.filter_append, hself, hothers, List.append_nil] at hfilter
  have hsends : (w.sends.filter fun c => c.port = p ∧ c.thread.isSome).map SendCall.parcel =
      (w.sends.map SendCall.parcel).filter here := by
    rw [List.filter_map]
    rfl
  have hbooks := h.parcels.perm.filter here
  rw [List.filter_append, List.filter_append, hdropped, List.append_nil] at hbooks
  rw [hsends]
  exact hbooks.trans (hpending.append_left _)

theorem Inv.atMostOnce (h : w.Inv) : (w.deliveries.map (·.parcel.call)).Nodup := by
  have hcalls : ((w.sends.map SendCall.parcel).map Parcel.call).Nodup := by
    rw [List.map_map]
    exact h.sends_nodup
  have hparts := ((h.parcels.perm.map Parcel.call).nodup_iff.mp hcalls)
  rw [List.map_append, List.map_map] at hparts
  exact (List.nodup_append.mp hparts).1

theorem Inv.sendReturns (h : w.Inv) {t : Tid} (hc : c ∈ w.sends) (ht : t ∈ c.thread) :
    (∃ d ∈ w.deliveries, d.parcel = c.parcel) ∨
      w.sched.state t = .blocked ∧ w.sched.currentThread ≠ some t := by
  rcases h.parcels.mem_opened.mp (List.mem_map_of_mem hc) with hclosed | hwaiting
  · exact Or.inl (List.mem_map.mp hclosed)
  rcases List.mem_append.mp hwaiting with hpending | hdropped
  · right
    rcases mem_gather.mp hpending with ⟨p, hp, hmem⟩
    rcases List.mem_map.mp hmem with ⟨n, hn, heq⟩
    have hthread : some n.thread = c.thread := congrArg Parcel.thread heq
    have hnt : n.thread = t := Option.some.inj (hthread.trans ht)
    refine h.not_current (mem_gather.mpr ⟨p, hp, List.mem_append_left _ ?_⟩)
    exact List.mem_map.mpr ⟨n, hn, hnt⟩
  · -- only kernel messages are dropped
    rcases List.mem_map.mp hdropped with ⟨c', hc', heq⟩
    have hthread : c'.thread = c.thread := congrArg Parcel.thread heq
    rw [h.dropped c' hc', ht] at hthread
    cases hthread

theorem Inv.recvReturns (h : w.Inv) (hr : r ∈ w.recvs) :
    (w.deliveries.map (·.request)).count r = 1 ∨
    (w.deliveries.map (·.request)).count r = 0 ∧
      w.sched.state r.thread = .blocked ∧ w.sched.currentThread ≠ some r.thread := by
  rcases h.requests.mem_opened.mp hr with hclosed | hwaiting
  · left
    exact List.count_eq_one_of_mem (List.nodup_append.mp h.requests.nodup_parts).1 hclosed
  · right
    refine ⟨List.count_eq_zero_of_not_mem (h.requests.notMem_closed hwaiting), ?_⟩
    rcases mem_gather.mp hwaiting with ⟨p, hp, hmem⟩
    rcases List.mem_map.mp hmem with ⟨n, hn, rfl⟩
    refine h.not_current (mem_gather.mpr ⟨p, hp, List.mem_append_right _ ?_⟩)
    exact List.mem_map.mpr ⟨n, hn, rfl⟩

theorem Inv.delivered (h : w.Inv) {d : Delivery} (hd : d ∈ w.deliveries) :
    ∃ c ∈ w.sends, d.parcel = c.parcel ∧ d.request ∈ w.recvs ∧ d.request.port = c.port ∧
      (d.request.buffer ≠ 0 → d.stored.length = min c.msg.length 256 ∧
        ∀ i < min c.msg.length 256, d.stored.data i = c.msg.data i) := by
  have hparcel := h.parcels.mem_opened.mpr (Or.inl (List.mem_map_of_mem hd))
  have hrequest := h.requests.mem_opened.mpr (Or.inl (List.mem_map_of_mem hd))
  rcases List.mem_map.mp hparcel with ⟨c, hc, heq⟩
  rcases h.sound d hd with ⟨hport, hstored⟩
  refine ⟨c, hc, heq.symm, hrequest, ?_, fun hbuffer => ?_⟩
  · rw [hport, ← heq]
    rfl
  rcases hstored hbuffer with ⟨hlength, hview⟩
  rw [← heq] at hlength hview
  have hmin : d.stored.length = min c.msg.length 256 := hlength.trans (view_length c.msg)
  refine ⟨hmin, fun i hi => data_of_view_eq hview ?_⟩
  omega

/-- In every reachable state: no port has waiting senders and receivers, each
blocked thread has one node, the messages sent are those delivered and those
pending, each once, and who has returned was served. -/
theorem exactlyOnce (h : Reachable Init Next w) : w.ExactlyOnce := by
  have hinv : w.Inv := h.invariant (fun _ => init_inv) fun _ _ hnext hinv => step_inv hinv hnext
  refine ⟨fun p _ => hinv.oneSided p, ?_, fun _ => hinv.messages, hinv.atMostOnce,
    fun _ hc _ => hinv.sendReturns hc, fun _ => hinv.recvReturns, fun _ => hinv.delivered⟩
  intro t ht hblocked
  exact hinv.oneNode ((hinv.seated.blocked t).mpr ⟨ht, hblocked⟩)

/-- Two threads and idle, as they are before any call. -/
def quiet : Rendezvous where
  sched := Waiting.twoThreads.sched
  threads := {1, 2, 3}
  ipc := Waiting.twoThreads.ipc
  calls := 0
  sends := []
  recvs := []
  deliveries := []
  dropped := []

theorem init_quiet : Init quiet := by
  have hstate : ∀ t, Waiting.twoThreads.sched.state t = if t = 1 then .running else .ready :=
    fun _ => rfl
  refine ⟨⟨3, 1, [2], ⟨rfl, rfl, ?_, ?_, ?_, ?_, ?_, ?_⟩, fun _ => rfl⟩, ?_, fun _ => rfl,
    rfl, rfl, rfl, rfl⟩
  · simp [quiet]
  · simp [quiet]
  · exact ⟨rfl, rfl⟩
  · intro t
    simp only [quiet, hstate, List.mem_singleton, Set.mem_insert_iff, Set.mem_singleton_iff]
    constructor
    · rintro rfl
      simp
    · rintro ⟨rfl | rfl | rfl, hne, hready⟩
      · cases hready
      · rfl
      · exact absurd rfl hne
  · intro t _ _ hrun
    simp only [quiet, hstate] at hrun
    split at hrun
    · assumption
    · cases hrun
  · exact Or.inl rfl
  · intro t _
    simp only [quiet, hstate]
    split <;> decide

/-- Thread 1 sends and blocks, then thread 2 asks and gets the message. -/
theorem exactlyOnce_quiet :
    ∃ w : Rendezvous, w.deliveries.length = 1 ∧ w.sched.currentThread = some 2 ∧
      w.ExactlyOnce := by
  let msg : IpcMessage := ⟨1, fun _ => 65⟩
  have hsent : Reachable Init Next _ := .step (.init init_quiet)
    (@Next.send quiet 1 0 2 msg msg .sleep _ _ rfl (by decide) (by decide) rfl rfl)
  have hasked : Reachable Init Next _ := .step hsent
    (@Next.recv _ 2 0 1 2 (.wake 1) _ _ rfl (by decide) (by decide) rfl rfl)
  exact ⟨_, rfl, rfl, exactlyOnce hasked⟩

end Rendezvous

end Orchid
