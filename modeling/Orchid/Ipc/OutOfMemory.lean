import Orchid.Memory.Heap
import Orchid.Syscall.Sleep

/-! # Calls without memory for a wait node

`ipc_send` and `ipc_recv` need a wait node when nobody waits on the other side of
the port, and return when `kmalloc` has none for them. The machine runs them
under preemption, each with the heap in any state at all, and logs which message
went to whom.

* A call that finds a partner or gets a node returns after the message has
  changed hands.
* A call that finds neither returns just the same. Its message is gone, or the
  buffer it was to fill holds what it held before.
-/

namespace Orchid

open ByteMem Ledger Machine Relation

/-! ## The calls -/

/-- `sizeof(wait_node_t)`: the thread, a message of 264 bytes and the link. -/
def sizeofWaitNode : Nat := 280

/-- `node->snd.pending_msg`. -/
def pendingMsgAt (mem : ByteMem) (node : Nat) : IpcMessage :=
  ⟨read64 mem (node + 8), fun i => mem (node + 16 + i)⟩

/-- `kmalloc(sizeof(wait_node_t))`, with what the memory of the node holds; `some none` is
NULL. -/
def waitNode (pml4 fuel : Nat) (heap : Heap) (vm : Vm) : Option (Option IpcMessage) :=
  (kmalloc pml4 fuel sizeofWaitNode heap vm).map fun (p, heap, _) =>
    if p = 0 then none else some (pendingMsgAt heap.mem p)

inductive MailCall where
  /-- `ipc_send`, or `ipc_kernel_send` if there is no thread. -/
  | send (thread : Option Tid) (port : Nat) (msg : IpcMessage)
  /-- `ipc_recv`. -/
  | recv (thread : Tid) (port buffer : Nat)

namespace MailCall

def caller : MailCall → Option Tid
  | .send thread _ _ => thread
  | .recv thread _ _ => some thread

def port : MailCall → Nat
  | .send _ port _ => port
  | .recv _ port _ => port

/-- The call with the node it would get. -/
def withNode (node : Option IpcMessage) : MailCall → PortCall
  | .send (some cur) port msg => .send node cur port msg
  | .send none port msg => .kernelSend port msg
  | .recv cur port buffer => .recv node.isSome cur port buffer

/-- The call comes to its `kmalloc`: nobody waits on the other side. -/
def Needs (s : Ipc) : MailCall → Prop
  | .send thread port _ => thread.isSome ∧ (s.ports port).recvers = []
  | .recv _ port _ => (s.ports port).senders = []

/-- What changes hands in the call. -/
def taken (call : Nat) (s s' : Ipc) (c : MailCall) : List Delivery :=
  if maxPorts ≤ c.port then [] else
  match c with
  | .send thread port msg =>
    ((s.ports port).recvers.head?.map fun n =>
      ⟨⟨call, port, thread, msg.view⟩, n.request port, s'.buffers n.buffer⟩).toList
  | .recv thread port buffer =>
    ((s.ports port).senders.head?.map fun n =>
      ⟨n.parcel port, ⟨call, port, thread, buffer⟩, s'.buffers buffer⟩).toList

/-- The results of a call: nothing, a receiver gets the message, the sender waits, a
sender's message is taken, or the receiver waits. -/
inductive Outcome (call : Nat) (s : Ipc) :
    MailCall → Option IpcMessage → Tail → Ipc → List Delivery → Prop where
  | nothing {c : MailCall} {node : Option IpcMessage} {s' : Ipc} :
      s'.ports = s.ports → s'.Blank →
      (c.port < maxPorts → c.caller.isSome → c.Needs s ∧ node = none) →
      Outcome call s c node .done s' []
  | serve {thread : Option Tid} {port : Nat} {msg : IpcMessage} {node : Option IpcMessage}
      {s' : Ipc} {n : RecvNode} {rest : List RecvNode} :
      port < maxPorts → s.Serves port msg s' n rest →
      Outcome call s (.send thread port msg) node (.wake n.thread) s'
        [⟨⟨call, port, thread, msg.view⟩, n.request port, s'.buffers n.buffer⟩]
  | post {cur : Tid} {port : Nat} {msg old : IpcMessage} {s' : Ipc} :
      port < maxPorts → (s.ports port).recvers = [] →
      s.Changes port ⟨⟨cur, copyMessage msg old, call⟩ :: (s.ports port).senders, []⟩ s' →
      Outcome call s (.send (some cur) port msg) (some old) .sleep s' []
  | collect {cur : Tid} {port buffer : Nat} {node : Option IpcMessage} {s' : Ipc} {n : SendNode}
      {rest : List SendNode} :
      port < maxPorts → (s.ports port).senders = n :: rest →
      s.Changes port ⟨rest, (s.ports port).recvers⟩ s' →
      s'.buffers buffer = copyMessage n.pendingMsg (s.buffers buffer) →
      Outcome call s (.recv cur port buffer) node (.wake n.thread) s'
        [⟨n.parcel port, ⟨call, port, cur, buffer⟩, s'.buffers buffer⟩]
  | ask {cur : Tid} {port buffer : Nat} {old : IpcMessage} {s' : Ipc} :
      port < maxPorts → (s.ports port).senders = [] →
      s.Changes port ⟨[], ⟨cur, buffer, call⟩ :: (s.ports port).recvers⟩ s' →
      Outcome call s (.recv cur port buffer) (some old) .sleep s' []

variable {call : Nat} {s s' : Ipc} {c : MailCall} {node : Option IpcMessage} {tail : Tail}

/-- A call that finds nobody and changes no port. -/
theorem Outcome.keep {ds : List Delivery} (h : s.Blank) (hds : ds = [])
    (hfailed : c.port < maxPorts → c.caller.isSome → c.Needs s ∧ node = none) :
    c.Outcome call s node .done (ipcEnsureInit s) ds := by
  rw [hds]
  exact .nothing (ensureInit_ports h) (blank_of_initialized (ensureInit_initialized s)) hfailed

theorem send_outcome {thread : Option Tid} {port : Nat} {msg : IpcMessage} (h : s.Blank)
    (hrun : ((MailCall.send thread port msg).withNode node).run call s = (tail, s')) :
    (MailCall.send thread port msg).Outcome call s node tail s'
      ((MailCall.send thread port msg).taken call s s') := by
  by_cases hport : maxPorts ≤ port
  · have hresult : ((MailCall.send thread port msg).withNode node).run call s =
        (.done, ipcEnsureInit s) := by
      cases thread <;> simp only [withNode, PortCall.run, ipcSendLocked, ipcKernelSendLocked,
        if_pos hport]
    rw [hresult] at hrun
    cases hrun
    exact .keep h (if_pos hport) fun hlt => absurd hport (Nat.not_le_of_lt hlt)
  have hlt : port < maxPorts := Nat.lt_of_not_le hport
  have htaken : (MailCall.send thread port msg).taken call s s' =
      ((s.ports port).recvers.head?.map fun n =>
        ⟨⟨call, port, thread, msg.view⟩, n.request port, s'.buffers n.buffer⟩).toList :=
    if_neg hport
  rw [htaken]
  cases thread with
  | none =>
    rcases ipcKernelSendLocked_cases h hlt hrun with ⟨n, rest, hserves, rfl⟩ | ⟨hrecvers, rfl, rfl⟩
    · rw [hserves.1]
      exact .serve hlt hserves
    · rw [hrecvers]
      exact .keep h rfl fun _ hsome => absurd hsome Bool.false_ne_true
  | some cur =>
    rcases ipcSendLocked_cases h hlt hrun with
      ⟨n, rest, hserves, rfl⟩ | ⟨hrecvers, ⟨rfl, rfl, rfl⟩ | ⟨old, rfl, rfl, hchanges⟩⟩
    · rw [hserves.1]
      exact .serve hlt hserves
    · rw [hrecvers]
      exact .keep h rfl fun _ _ => ⟨⟨rfl, hrecvers⟩, rfl⟩
    · rw [hrecvers]
      exact .post hlt hrecvers hchanges

theorem recv_outcome {cur : Tid} {port buffer : Nat} (h : s.Blank)
    (hrun : ((MailCall.recv cur port buffer).withNode node).run call s = (tail, s')) :
    (MailCall.recv cur port buffer).Outcome call s node tail s'
      ((MailCall.recv cur port buffer).taken call s s') := by
  by_cases hport : maxPorts ≤ port
  · simp only [withNode, PortCall.run, ipcRecvLocked, if_pos hport] at hrun
    cases hrun
    exact .keep h (if_pos hport) fun hlt => absurd hport (Nat.not_le_of_lt hlt)
  have hlt : port < maxPorts := Nat.lt_of_not_le hport
  have htaken : (MailCall.recv cur port buffer).taken call s s' =
      ((s.ports port).senders.head?.map fun n =>
        ⟨n.parcel port, ⟨call, port, cur, buffer⟩, s'.buffers buffer⟩).toList := if_neg hport
  rw [htaken]
  rcases ipcRecvLocked_cases h hlt hrun with
    ⟨n, rest, hsenders, rfl, hchanges, hstored⟩ |
      ⟨hsenders, ⟨hnode, rfl, rfl⟩ | ⟨hnode, rfl, hchanges⟩⟩
  · rw [hsenders]
    exact .collect hlt hsenders hchanges hstored
  · rw [hsenders]
    exact .keep h rfl fun _ _ => ⟨hsenders, Option.isNone_iff_eq_none.mp (by simpa using hnode)⟩
  · rcases Option.isSome_iff_exists.mp hnode with ⟨old, rfl⟩
    rw [hsenders]
    exact .ask hlt hsenders hchanges

theorem outcome (h : s.Blank) (hrun : (c.withNode node).run call s = (tail, s')) :
    c.Outcome call s node tail s' (c.taken call s s') := by
  cases c with
  | send thread port msg => exact send_outcome h hrun
  | recv cur port buffer => exact recv_outcome h hrun

/-- A list is as it was, or has something new in front, or its first item is gone. -/
def Turned {α : Type} (new gone : α → Prop) (l l' : List α) : Prop :=
  l' = l ∨ (∃ x, new x ∧ l' = x :: l) ∨ ∃ x, gone x ∧ l = x :: l'

theorem Turned.kept {α : Type} {new gone : α → Prop} {l l' : List α} {x : α}
    (h : Turned new gone l l') (hx : x ∈ l) : x ∈ l' ∨ gone x := by
  rcases h with rfl | ⟨y, -, rfl⟩ | ⟨y, hy, rfl⟩
  · exact Or.inl hx
  · exact Or.inl (List.mem_cons_of_mem y hx)
  · rcases List.mem_cons.mp hx with rfl | hx
    · exact Or.inr hy
    · exact Or.inl hx

theorem Turned.found {α : Type} {new gone : α → Prop} {l l' : List α} {x : α}
    (h : Turned new gone l l') (hx : x ∈ l') : x ∈ l ∨ new x := by
  rcases h with rfl | ⟨y, hy, rfl⟩ | ⟨y, -, rfl⟩
  · exact Or.inl hx
  · rcases List.mem_cons.mp hx with rfl | hx
    · exact Or.inr hy
    · exact Or.inl hx
  · exact Or.inl (List.mem_cons_of_mem y hx)

/-- What a call does to the nodes of the senders: a new one carries its number, and one that
is gone has been handed over. -/
theorem Outcome.parcels {ds : List Delivery} (h : c.Outcome call s node tail s' ds) (p : Nat) :
    Turned (·.call = call) (fun x => ∃ d ∈ ds, d.parcel = x) (s.parcelsAt p) (s'.parcelsAt p) := by
  cases h with
  | nothing hports =>
    left
    simp only [Ipc.parcelsAt, hports]
  | @serve _ port _ _ _ _ _ _ hserves =>
    left
    by_cases hp : p = port
    · simp only [hp, Ipc.parcelsAt, hserves.2.1.self]
    · exact hserves.2.1.parcelsAt hp
  | @post _ port _ _ _ _ _ hchanges =>
    by_cases hp : p = port
    · right; left
      subst hp
      refine ⟨_, ?_, by rw [Ipc.parcelsAt, hchanges.self, List.map_cons, Ipc.parcelsAt]⟩
      rfl
    · exact Or.inl (hchanges.parcelsAt hp)
  | @collect _ port _ _ _ _ _ _ hsenders hchanges =>
    by_cases hp : p = port
    · right; right
      subst hp
      refine ⟨_, ⟨_, List.mem_singleton_self _, rfl⟩, ?_⟩
      rw [Ipc.parcelsAt, Ipc.parcelsAt, hchanges.self, hsenders, List.map_cons]
    · exact Or.inl (hchanges.parcelsAt hp)
  | @ask _ port _ _ _ _ hsenders hchanges =>
    left
    by_cases hp : p = port
    · simp only [hp, Ipc.parcelsAt, hchanges.self, hsenders]
    · exact hchanges.parcelsAt hp

/-- And to those of the receivers. -/
theorem Outcome.requests {ds : List Delivery} (h : c.Outcome call s node tail s' ds) (p : Nat) :
    Turned (·.call = call) (fun x => ∃ d ∈ ds, d.request = x) (s.requestsAt p)
      (s'.requestsAt p) := by
  cases h with
  | nothing hports =>
    left
    simp only [Ipc.requestsAt, hports]
  | @serve _ port _ _ _ _ _ _ hserves =>
    rcases hserves with ⟨hrecvers, hchanges, -⟩
    by_cases hp : p = port
    · right; right
      subst hp
      refine ⟨_, ⟨_, List.mem_singleton_self _, rfl⟩, ?_⟩
      rw [Ipc.requestsAt, Ipc.requestsAt, hchanges.self, hrecvers, List.map_cons]
    · exact Or.inl (hchanges.requestsAt hp)
  | @post _ port _ _ _ _ hrecvers hchanges =>
    left
    by_cases hp : p = port
    · simp only [hp, Ipc.requestsAt, hchanges.self, hrecvers]
    · exact hchanges.requestsAt hp
  | @collect _ port _ _ _ _ _ _ _ hchanges =>
    left
    by_cases hp : p = port
    · simp only [hp, Ipc.requestsAt, hchanges.self]
    · exact hchanges.requestsAt hp
  | @ask _ port _ _ _ _ _ hchanges =>
    by_cases hp : p = port
    · right; left
      subst hp
      refine ⟨_, ?_, by rw [Ipc.requestsAt, hchanges.self, List.map_cons, Ipc.requestsAt]⟩
      rfl
    · exact Or.inl (hchanges.requestsAt hp)

/-- What is handed over comes from this call or from a node, goes to this call or to a
node, and is then in the buffer. -/
theorem Outcome.delivered {ds : List Delivery} {d : Delivery}
    (h : c.Outcome call s node tail s' ds) (hd : d ∈ ds) :
    (d.parcel.call = call ∨ ∃ p, d.parcel ∈ s.parcelsAt p) ∧
    (d.request.call = call ∨ ∃ p, d.request ∈ s.requestsAt p) ∧
    (d.request.buffer ≠ 0 →
      d.stored.length = d.parcel.bytes.length ∧ d.stored.view = d.parcel.bytes) := by
  cases h with
  | nothing => cases hd
  | post => cases hd
  | ask => cases hd
  | @serve _ port _ _ _ n _ _ hserves =>
    rcases hserves with ⟨hrecvers, -, hstored⟩
    rw [List.mem_singleton.mp hd]
    refine ⟨Or.inl rfl, Or.inr ⟨port, ?_⟩, fun hbuffer => ?_⟩
    · rw [Ipc.requestsAt, hrecvers]
      exact List.mem_cons_self
    · exact Rendezvous.stored_of_copy (hstored hbuffer) rfl
  | @collect _ port _ _ _ n _ _ hsenders _ hstored =>
    rw [List.mem_singleton.mp hd]
    refine ⟨Or.inr ⟨port, ?_⟩, Or.inl rfl, fun _ => Rendezvous.stored_of_copy hstored rfl⟩
    rw [Ipc.parcelsAt, hsenders]
    exact List.mem_cons_self

theorem caller_withNode (node : Option IpcMessage) (c : MailCall) :
    (c.withNode node).caller = c.caller := by
  rcases c with ⟨_ | _, _, _⟩ | _ <;> rfl

end MailCall

/-! ## The machine -/

/-- The kernel with the number of the next call and what changed hands so far. -/
structure Mail where
  clock : Clocked
  calls : Nat
  deliveries : List Delivery

namespace Mail

/-- One call by the current thread or by an interrupt, up to the release of its lock. The
heap is in the state `heap`, `vm` if the call comes to its `kmalloc`. -/
def Performs (pml4 fuel : Nat) (heap : Heap) (vm : Vm) (c : MailCall) (w w' : Mail) : Prop :=
  ∃ cur node tail ipc, w.clock.run.sched.currentThread = some cur ∧
    (∀ t, c.caller = some t → t = cur ∧ w.clock.Calls cur) ∧
    (c.Needs w.clock.ipc → waitNode pml4 fuel heap vm = some node) ∧
    (c.withNode node).run w.calls w.clock.ipc = (tail, ipc) ∧
    w' = { clock := Clocked.leave cur tail { w.clock with ipc := ipc }
           calls := w.calls + 1
           deliveries := c.taken w.calls w.clock.ipc ipc ++ w.deliveries }

inductive Next (pml4 : Nat) : Mail → Mail → Prop where
  | call {w w' : Mail} {fuel : Nat} {heap : Heap} {vm : Vm} {c : MailCall} :
      Performs pml4 fuel heap vm c w w' → Next pml4 w w'
  /-- A step that does not touch the ports. -/
  | other {w : Mail} {clock : Clocked} :
      Clocked.Next w.clock clock → clock.ipc = w.clock.ipc → Next pml4 w { w with clock := clock }

def Init : StatePred Mail := fun w => Clocked.Init w.clock ∧ w.deliveries = []

/-- What the caller counts on when call number `call` has returned. A message sent has been
handed over or waits in a node; the buffer of a receiver has been filled with a message. -/
def Kept (w : Mail) (call : Nat) : MailCall → Prop
  | .send thread port msg =>
    (∃ d ∈ w.deliveries, d.parcel = ⟨call, port, thread, msg.view⟩) ∨
      ⟨call, port, thread, msg.view⟩ ∈ w.clock.ipc.parcelsAt port
  | .recv thread port buffer =>
    ∃ d ∈ w.deliveries, d.request = ⟨call, port, thread, buffer⟩ ∧ (buffer ≠ 0 →
      d.stored.length = d.parcel.bytes.length ∧ d.stored.view = d.parcel.bytes)

/-! ## What a step keeps -/

variable {pml4 fuel : Nat} {heap : Heap} {vm : Vm} {c : MailCall} {w w' : Mail}

structure Inv (w : Mail) : Prop where
  clock : ∃ idle, w.clock.Inv idle
  /-- Every number in use is that of an earlier call. -/
  parcels_lt : ∀ p, ∀ x ∈ w.clock.ipc.parcelsAt p, x.call < w.calls
  requests_lt : ∀ p, ∀ x ∈ w.clock.ipc.requestsAt p, x.call < w.calls
  deliveries_lt : ∀ d ∈ w.deliveries, d.parcel.call < w.calls ∧ d.request.call < w.calls
  written : ∀ d ∈ w.deliveries, d.request.buffer ≠ 0 →
    d.stored.length = d.parcel.bytes.length ∧ d.stored.view = d.parcel.bytes

/-- Nodes stay until they are handed over, and the log only grows. -/
structure Advances (w w' : Mail) : Prop where
  deliveries : ∀ d ∈ w.deliveries, d ∈ w'.deliveries
  parcels : ∀ p, ∀ x ∈ w.clock.ipc.parcelsAt p,
    x ∈ w'.clock.ipc.parcelsAt p ∨ ∃ d ∈ w'.deliveries, d.parcel = x
  requests : ∀ p, ∀ x ∈ w.clock.ipc.requestsAt p,
    x ∈ w'.clock.ipc.requestsAt p ∨ ∃ d ∈ w'.deliveries, d.request = x

@[simp] theorem leave_ipc (cur : Tid) (tail : Tail) (k : Clocked) :
    (Clocked.leave cur tail k).ipc = k.ipc := by
  cases tail <;> rfl

theorem Inv.blank (h : w.Inv) : w.clock.ipc.Blank := by
  rcases h.clock with ⟨idle, hclock⟩
  exact hclock.blank

theorem Performs.inv (h : w.Inv) (hcall : Performs pml4 fuel heap vm c w w') : w'.Inv := by
  rcases hcall with ⟨cur, node, tail, ipc, hcur, hcaller, -, hrun, rfl⟩
  have houtcome := MailCall.outcome h.blank hrun
  rcases h.clock with ⟨idle, hclock⟩
  constructor
  · refine ⟨idle, hclock.port (fun t ht => hcaller t ?_) hrun⟩
    rw [← MailCall.caller_withNode node c]
    exact ht
  · intro p x hx
    simp only [leave_ipc] at hx
    rcases (houtcome.parcels p).found hx with hx | hx
    · exact Nat.lt_succ_of_lt (h.parcels_lt p x hx)
    · exact hx ▸ Nat.lt_succ_self w.calls
  · intro p x hx
    simp only [leave_ipc] at hx
    rcases (houtcome.requests p).found hx with hx | hx
    · exact Nat.lt_succ_of_lt (h.requests_lt p x hx)
    · exact hx ▸ Nat.lt_succ_self w.calls
  · intro d hd
    rcases List.mem_append.mp hd with hd | hd
    · rcases houtcome.delivered hd with ⟨hparcel, hrequest, -⟩
      constructor
      · rcases hparcel with heq | ⟨p, hmem⟩
        · exact heq ▸ Nat.lt_succ_self w.calls
        · exact Nat.lt_succ_of_lt (h.parcels_lt p _ hmem)
      · rcases hrequest with heq | ⟨p, hmem⟩
        · exact heq ▸ Nat.lt_succ_self w.calls
        · exact Nat.lt_succ_of_lt (h.requests_lt p _ hmem)
    · exact (h.deliveries_lt d hd).imp Nat.lt_succ_of_lt Nat.lt_succ_of_lt
  · intro d hd
    rcases List.mem_append.mp hd with hd | hd
    · exact (houtcome.delivered hd).2.2
    · exact h.written d hd

theorem Performs.advances (h : w.Inv) (hcall : Performs pml4 fuel heap vm c w w') :
    Advances w w' := by
  rcases hcall with ⟨cur, node, tail, ipc, -, -, -, hrun, rfl⟩
  have houtcome := MailCall.outcome h.blank hrun
  constructor
  · exact fun d hd => List.mem_append_right _ hd
  · intro p x hx
    simp only [leave_ipc]
    refine ((houtcome.parcels p).kept hx).imp_right ?_
    rintro ⟨d, hd, rfl⟩
    exact ⟨d, List.mem_append_left _ hd, rfl⟩
  · intro p x hx
    simp only [leave_ipc]
    refine ((houtcome.requests p).kept hx).imp_right ?_
    rintro ⟨d, hd, rfl⟩
    exact ⟨d, List.mem_append_left _ hd, rfl⟩

theorem Inv.step (h : w.Inv) (hnext : Next pml4 w w') : w'.Inv ∧ Advances w w' := by
  cases hnext with
  | call hcall => exact ⟨hcall.inv h, hcall.advances h⟩
  | other hclock hipc =>
    rcases h.clock with ⟨idle, hinv⟩
    refine ⟨⟨⟨idle, hinv.step hclock⟩, ?_, ?_, h.deliveries_lt, h.written⟩, fun d hd => hd, ?_, ?_⟩
    · rw [hipc]
      exact h.parcels_lt
    · rw [hipc]
      exact h.requests_lt
    · rw [hipc]
      exact fun p x hx => Or.inl hx
    · rw [hipc]
      exact fun p x hx => Or.inl hx

theorem Init.inv (h : Init w) : w.Inv := by
  rcases h with ⟨hclock, hdeliveries⟩
  have hports := hclock.2.1
  refine ⟨hclock.inv, ?_, ?_, ?_, ?_⟩
  · intro p x hx
    simp only [Ipc.parcelsAt, hports, List.map_nil] at hx
    cases hx
  · intro p x hx
    simp only [Ipc.requestsAt, hports, List.map_nil] at hx
    cases hx
  · rw [hdeliveries]
    exact fun d hd => absurd hd List.not_mem_nil
  · rw [hdeliveries]
    exact fun d hd => absurd hd List.not_mem_nil

theorem Advances.trans {w₁ w₂ w₃ : Mail} (h : Advances w₁ w₂) (h' : Advances w₂ w₃) :
    Advances w₁ w₃ := by
  constructor
  · exact fun d hd => h'.deliveries d (h.deliveries d hd)
  · intro p x hx
    rcases h.parcels p x hx with hx | ⟨d, hd, hdx⟩
    · exact h'.parcels p x hx
    · exact Or.inr ⟨d, h'.deliveries d hd, hdx⟩
  · intro p x hx
    rcases h.requests p x hx with hx | ⟨d, hd, hdx⟩
    · exact h'.requests p x hx
    · exact Or.inr ⟨d, h'.deliveries d hd, hdx⟩

theorem Inv.run (h : w.Inv) (hrun : ReflTransGen (Next pml4) w w') :
    w'.Inv ∧ Advances w w' := by
  induction hrun with
  | refl => exact ⟨h, fun d hd => hd, fun p x hx => Or.inl hx, fun p x hx => Or.inl hx⟩
  | tail _ hnext ih =>
    rcases ih.1.step hnext with ⟨hinv, hadvances⟩
    exact ⟨hinv, ih.2.trans hadvances⟩

theorem reachable_inv (h : Reachable Init (Next pml4) w) : w.Inv :=
  h.invariant (fun _ => Init.inv) fun _ _ hnext hinv => (hinv.step hnext).1

/-! ## Calls that get through, and calls that do not -/

/-- The call has been answered, or its node waits. -/
def Open (w : Mail) (call : Nat) : MailCall → Prop
  | .send thread port msg => w.Kept call (.send thread port msg)
  | .recv thread port buffer =>
    (∃ d ∈ w.deliveries, d.request = ⟨call, port, thread, buffer⟩) ∨
      ⟨call, port, thread, buffer⟩ ∈ w.clock.ipc.requestsAt port

theorem Advances.stays_open {call : Nat} (h : Advances w w') (hopen : w.Open call c) :
    w'.Open call c := by
  cases c with
  | send thread port msg =>
    rcases hopen with ⟨d, hd, hparcel⟩ | hnode
    · exact Or.inl ⟨d, h.deliveries d hd, hparcel⟩
    · exact (h.parcels port _ hnode).symm
  | recv thread port buffer =>
    rcases hopen with ⟨d, hd, hrequest⟩ | hnode
    · exact Or.inl ⟨d, h.deliveries d hd, hrequest⟩
    · exact (h.requests port _ hnode).symm

/-- Who has returned has no node any more. -/
theorem Inv.kept_of_open {cur : Tid} {call : Nat} (h : w.Inv) (hcaller : c.caller = some cur)
    (hport : c.port < maxPorts) (hresumed : w.clock.Resumed cur) (hopen : w.Open call c) :
    w.Kept call c := by
  cases c with
  | send thread port msg => exact hopen
  | recv thread port buffer =>
    cases hcaller
    rcases hopen with ⟨d, hd, hrequest⟩ | hnode
    · refine ⟨d, hd, hrequest, fun hbuffer => h.written d hd ?_⟩
      rw [hrequest]
      exact hbuffer
    · -- with a node in the port it would still wait
      rcases h.clock with ⟨idle, hclock⟩
      rcases List.mem_map.mp hnode with ⟨n, hn, heq⟩
      have hthread : n.thread = cur := congrArg Request.thread heq
      have hseat : cur ∈ w.clock.seats := by
        refine List.mem_append_left _ (mem_gather.mpr ⟨port, hport, List.mem_append_right _ ?_⟩)
        exact List.mem_map.mpr ⟨n, hn, hthread⟩
      exact absurd (hclock.refs.placed cur hseat) (hclock.resumed_not_waits hresumed)

theorem Performs.opens {cur : Tid} (h : w.Inv) (hcall : Performs pml4 fuel heap vm c w w')
    (hcaller : c.caller = some cur) (hport : c.port < maxPorts)
    (hnode : c.Needs w.clock.ipc → ∃ old, waitNode pml4 fuel heap vm = some (some old)) :
    w'.Open w.calls c := by
  rcases hcall with ⟨cur, node, tail, ipc, -, -, halloc, hrun, rfl⟩
  have houtcome := MailCall.outcome h.blank hrun
  generalize c.taken w.calls w.clock.ipc ipc = ds at houtcome
  cases houtcome with
  | nothing _ _ hfailed =>
    rcases hfailed hport (hcaller ▸ rfl) with ⟨hneeds, rfl⟩
    rcases hnode hneeds with ⟨old, hgot⟩
    rw [halloc hneeds] at hgot
    cases hgot
  | serve _ _ => exact Or.inl ⟨_, List.mem_cons_self, rfl⟩
  | post _ _ hchanges =>
    right
    simp only [leave_ipc, Ipc.parcelsAt, hchanges.self, List.map_cons, SendNode.parcel,
      view_copyMessage]
    exact List.mem_cons_self
  | collect _ _ _ _ => exact Or.inl ⟨_, List.mem_cons_self, rfl⟩
  | ask _ _ hchanges =>
    right
    simp only [leave_ipc, Ipc.requestsAt, hchanges.self, List.map_cons, RecvNode.request]
    exact List.mem_cons_self

/-- Without a partner and a node the call returns, and has done nothing. -/
theorem Performs.lost {cur : Tid} (h : w.Inv) (hcall : Performs pml4 fuel heap vm c w w')
    (hcaller : c.caller = some cur) (hneeds : c.Needs w.clock.ipc)
    (hnull : waitNode pml4 fuel heap vm = some none) :
    w'.clock.Resumed cur ∧ ¬ w'.Kept w.calls c := by
  rcases hcall with ⟨cur', node, tail, ipc, -, hown, halloc, hrun, rfl⟩
  rcases hown cur hcaller with ⟨rfl, hresumed, -⟩
  have hnode : node = none := by
    have hsome := (halloc hneeds).symm.trans hnull
    exact Option.some.inj hsome
  have houtcome := MailCall.outcome h.blank hrun
  generalize c.taken w.calls w.clock.ipc ipc = ds at houtcome
  cases houtcome with
  | nothing hports =>
    refine ⟨hresumed, fun hkept => ?_⟩
    -- the number of the call is new
    cases c with
    | send thread port msg =>
      rcases hkept with ⟨d, hd, hparcel⟩ | hmem
      · have hlt := (h.deliveries_lt d hd).1
        rw [hparcel] at hlt
        exact Nat.lt_irrefl _ hlt
      · simp only [leave_ipc, Ipc.parcelsAt, hports] at hmem
        exact Nat.lt_irrefl _ (h.parcels_lt port _ hmem)
    | recv thread port buffer =>
      rcases hkept with ⟨d, hd, hrequest, -⟩
      have hlt := (h.deliveries_lt d hd).2
      rw [hrequest] at hlt
      exact Nat.lt_irrefl _ hlt
  | serve _ hserves =>
    have hcons := hserves.1
    rw [hneeds.2] at hcons
    cases hcons
  | post => cases hnode
  | collect _ hsenders =>
    have hnil := hneeds.symm.trans hsenders
    cases hnil
  | ask => cases hnode

/-- A call of `ipc_send` or `ipc_recv`, in any state that can be reached and with any heap,
returns only with its message handed over or pending, or with its buffer filled, exactly if
somebody waits on the other side of the port or `kmalloc` has a wait node for it. -/
theorem returns_kept_iff {cur : Tid} (hw : Reachable Init (Next pml4) w) (hcaller : c.caller = some cur)
    (hport : c.port < maxPorts) (hcall : Performs pml4 fuel heap vm c w w') :
    (∀ w'', ReflTransGen (Next pml4) w' w'' → w''.clock.Resumed cur →
      w''.Kept w.calls c) ↔
    (c.Needs w.clock.ipc → ∃ old, waitNode pml4 fuel heap vm = some (some old)) := by
  have hinv := reachable_inv hw
  constructor
  · intro hall hneeds
    have halloc : ∃ node, waitNode pml4 fuel heap vm = some node := by
      rcases hcall with ⟨-, node, -, -, -, -, halloc, -⟩
      exact ⟨node, halloc hneeds⟩
    rcases halloc with ⟨_ | old, halloc⟩
    · have hlost := hcall.lost hinv hcaller hneeds halloc
      exact absurd (hall w' .refl hlost.1) hlost.2
    · exact ⟨old, halloc⟩
  · intro hnode w'' hrun hresumed
    rcases (hcall.inv hinv).run hrun with ⟨hinv'', hadvances⟩
    have hopen := hadvances.stays_open (hcall.opens hinv hcaller hport hnode)
    exact hinv''.kept_of_open hcaller hport hresumed hopen

/-- Thread 2 runs, before any call. -/
def unused : Mail := ⟨Clocked.sleeper 0, 0, []⟩

theorem unused_reachable (pml4 : Nat) : Reachable Init (Next pml4) unused := by
  rcases Clocked.booted_steps with ⟨w, hmade, hipc, hdispatched⟩
  have hinit : Init ⟨Clocked.booted, 0, []⟩ := ⟨Clocked.init_booted, rfl⟩
  have hbefore : Reachable Init (Next pml4) ⟨w, 0, []⟩ :=
    .step (.init hinit) (.other hmade hipc)
  exact hbefore.step (.other hdispatched hipc.symm)

/-- A heap of one page that is one block. -/
def onePage (free : Nat) : Heap where
  mem := setHeader (fun _ => 0) heapStartVirt (pageSize - headerSize) free 0
  head := heapStartVirt
  endVirt := heapStartVirt + pageSize
  initialized := true

theorem unused_calls {c : MailCall} (hcaller : c.caller = some 2) (t : Tid)
    (ht : c.caller = some t) : t = 2 ∧ unused.clock.Calls 2 :=
  ⟨Option.some.inj (ht.symm.trans hcaller), ⟨rfl, rfl, rfl⟩, nofun, rfl⟩

/-- With a free block thread 2 gets a node, and returns with a message or not at all. -/
theorem returns_kept_free_block : ∃ w', Performs 0x1000 2 (onePage 1) ⟨fun _ => 0, []⟩ (.recv 2 0 1)
      unused w' ∧
    ∀ w'', ReflTransGen (Next 0x1000) w' w'' → w''.clock.Resumed 2 →
      w''.Kept 0 (.recv 2 0 1) := by
  have hnode : ∃ old, waitNode 0x1000 2 (onePage 1) ⟨fun _ => 0, []⟩ = some (some old) := ⟨_, rfl⟩
  have hcall : ∃ w', Performs 0x1000 2 (onePage 1) ⟨fun _ => 0, []⟩ (.recv 2 0 1) unused w' :=
    ⟨_, 2, _, _, _, rfl, unused_calls rfl, fun _ => hnode.choose_spec, rfl, rfl⟩
  rcases hcall with ⟨w', hcall⟩
  refine ⟨w', hcall, ?_⟩
  exact (returns_kept_iff (unused_reachable 0x1000) rfl (by decide) hcall).mpr fun _ => hnode

/-- With the only block in use and no free page, `ipc_recv` is back with the buffer as it
was, and `ipc_send` is back with its message gone. -/
theorem lost_without_memory : Reachable Init (Next 0x1000) unused ∧
    (∃ w', Performs 0x1000 2 (onePage 0) ⟨fun _ => 0, []⟩ (.recv 2 0 1) unused w' ∧
      w'.clock.Resumed 2 ∧ ¬ w'.Kept 0 (.recv 2 0 1) ∧
      w'.clock.ipc.buffers = unused.clock.ipc.buffers) ∧
    ∃ w', Performs 0x1000 2 (onePage 0) ⟨fun _ => 0, []⟩ (.send (some 2) 0 ⟨1, fun _ => 65⟩)
        unused w' ∧
      w'.clock.Resumed 2 ∧ ¬ w'.Kept 0 (.send (some 2) 0 ⟨1, fun _ => 65⟩) := by
  have hreach := unused_reachable 0x1000
  have hinv := reachable_inv hreach
  have hnull : waitNode 0x1000 2 (onePage 0) ⟨fun _ => 0, []⟩ = some none := rfl
  have hrecv : Performs 0x1000 2 (onePage 0) ⟨fun _ => 0, []⟩ (.recv 2 0 1) unused _ :=
    ⟨2, none, _, _, rfl, unused_calls rfl, fun _ => hnull, rfl, rfl⟩
  have hsend : Performs 0x1000 2 (onePage 0) ⟨fun _ => 0, []⟩ (.send (some 2) 0 ⟨1, fun _ => 65⟩)
      unused _ :=
    ⟨2, none, _, _, rfl, unused_calls rfl, fun _ => hnull, rfl, rfl⟩
  have hunanswered := hrecv.lost hinv rfl rfl hnull
  have hgone := hsend.lost hinv rfl ⟨rfl, rfl⟩ hnull
  exact ⟨hreach, ⟨_, hrecv, hunanswered.1, hunanswered.2, rfl⟩, ⟨_, hsend, hgone⟩⟩

end Mail

end Orchid
