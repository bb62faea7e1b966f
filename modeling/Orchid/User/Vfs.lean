import Orchid.Ipc.Irq
import Orchid.Syscall.Write

/-! # The file service and the keyboard service

A model of `user/vfs.c` and of the messages of `user/kbd.c`. `vfs_service` receives requests on
its port, and a request to write file 1 or 2 is printed on the serial line, one character at a
time. Other threads send to the port and receive from it at any time, also while a request is
being printed.

* What is printed is the text of the requests in the order in which they were handed over, each
  of them once. A request is not overwritten while it is printed, and nothing of an earlier and
  longer one is printed with it (`vfs_prints_requests`).
* If there is no memory for its wait node, `ipc_recv` returns without a message, and the service
  goes on with what the variable happens to hold.
* A key comes as a message of one byte, which is too short for a request. So of what
  `kbd_service` sends, nothing is printed (`keys_not_printed`).
-/

namespace Orchid

open Machine Function

/-! ## Model -/

/-- The port of the service, its thread, and where its variable `req` is. -/
structure VfsSetup where
  port : Nat
  service : Tid
  req : Nat
  port_lt : port < maxPorts
  req_ne : req ≠ 0

/-- The loop of `vfs_service`. -/
inductive VfsPc where
  | recv
  /-- In `ipc_recv`, blocked. -/
  | blocked
  /-- Behind `ipc_recv`. -/
  | received
  /-- At the head of the loop that prints. -/
  | print (i len : Nat)
  deriving DecidableEq, Repr

/-- The tests up to the loop that prints. -/
def vfsDispatch (req : IpcMessage) : VfsPc :=
  if req.length < 2 then .recv else
  let opcode := req.data 0
  let fd := (req.data 1).toInt8.toInt
  if opcode = 1 then
    let len := req.length - 2
    if fd = 1 ∨ fd = 2 then .print 0 len else .recv
  else
    -- `case 2` has no code
    .recv

/-- What the service gets for a call of `ipc_recv`; without memory it is what `req` held. -/
inductive Round where
  | message (bytes : List UInt8)
  | noMemory (bytes : List UInt8)
  deriving DecidableEq, Repr

structure Vfs where
  ipc : Ipc
  pc : VfsPc
  /-- What the service has sent on the serial line. -/
  line : List UInt8
  rounds : List Round

/-- The bytes of a message. -/
def IpcMessage.bytes (m : IpcMessage) : List UInt8 := (List.range m.length).map m.data

namespace Vfs

section Steps

variable (v : VfsSetup)

/-- The message in `req`. -/
def req (s : Vfs) : IpcMessage := s.ipc.buffers v.req

/-- A message to `port` is one for the service if that is the first to wait there. -/
def handed (port : Nat) (msg : IpcMessage) (ipc : Ipc) : List Round :=
  match ((ipcEnsureInit ipc).ports port).recvers with
  | n :: _ => if n.thread = v.service then [.message msg.view] else []
  | [] => []

/-- The result of `ipc_recv`, if it returns at once. -/
def taken (ipc : Ipc) : Tail → List Round
  | .wake _ => ((ipcEnsureInit ipc).ports v.port).senders.head?.toList.map
      fun n => .message n.pendingMsg.view
  | .done => [.noMemory (ipc.buffers v.req).bytes]
  | .sleep => []

/-- A step of the service. The variable `req` is a new one in each round, with anything in it. -/
inductive Step : Action Vfs where
  | recv {s : Vfs} {alloc : Bool} {call : Nat} {junk : IpcMessage} {ipc ipc' : Ipc} {tail : Tail} :
      s.pc = .recv → ipc = { s.ipc with buffers := update s.ipc.buffers v.req junk } →
      ipcRecvLocked alloc call v.service v.port v.req ipc = (tail, ipc') →
      Step s { s with
        ipc := ipc'
        pc := if tail = .sleep then .blocked else .received
        rounds := s.rounds ++ taken v ipc tail }
  | resumed {s : Vfs} : s.pc = .blocked →
      (∀ n ∈ ((ipcEnsureInit s.ipc).ports v.port).recvers, n.thread ≠ v.service) →
      Step s { s with pc := .received }
  | dispatch {s : Vfs} : s.pc = .received → Step s { s with pc := vfsDispatch (s.req v) }
  | putc {s : Vfs} {i len : Nat} : s.pc = .print i len → i < len →
      Step s { s with
        pc := .print (i + 1) len
        line := serialPutc ((s.req v).data (2 + i)) s.line }
  | endFor {s : Vfs} {i len : Nat} : s.pc = .print i len → ¬ i < len → Step s { s with pc := .recv }

/-- A step of the service, or of others. What threads send to the port of the service is in
`Sends`; the kernel sends empty messages. -/
inductive Next (Sends : IpcMessage → Prop) : Action Vfs where
  | step {s s' : Vfs} : Step v s s' → Next Sends s s'
  | send {s : Vfs} {cur : Tid} {port call : Nat} {msg : IpcMessage} {node : Option IpcMessage}
      {ipc : Ipc} {tail : Tail} : cur ≠ v.service → port < maxPorts →
      (port = v.port → Sends msg) → ipcSendLocked node call cur port msg s.ipc = (tail, ipc) →
      Next Sends s { s with ipc := ipc, rounds := s.rounds ++ handed v port msg s.ipc }
  | kernelSend {s : Vfs} {port : Nat} {msg : IpcMessage} {ipc : Ipc} {tail : Tail} :
      port < maxPorts → msg.length = 0 → ipcKernelSendLocked port msg s.ipc = (tail, ipc) →
      Next Sends s { s with ipc := ipc, rounds := s.rounds ++ handed v port msg s.ipc }
  | recv {s : Vfs} {cur : Tid} {port buffer call : Nat} {alloc : Bool} {ipc : Ipc} {tail : Tail} :
      cur ≠ v.service → buffer ≠ v.req → port < maxPorts →
      ipcRecvLocked alloc call cur port buffer s.ipc = (tail, ipc) →
      Next Sends s { s with ipc := ipc }
  /-- Others change their variables. -/
  | store {s : Vfs} {buffers : Nat → IpcMessage} : buffers v.req = s.ipc.buffers v.req →
      Next Sends s { s with ipc := { s.ipc with buffers := buffers } }

/-- The service has its port, where others may wait by now. -/
def Init (Sends : IpcMessage → Prop) : StatePred Vfs := fun s =>
  s.ipc.Blank ∧ s.pc = .recv ∧ s.line = [] ∧ s.rounds = [] ∧
    (∀ p, ∀ n ∈ (s.ipc.ports p).recvers, n.thread ≠ v.service ∧ n.buffer ≠ v.req) ∧
    ∀ n ∈ (s.ipc.ports v.port).senders, ∃ m, Sends m ∧ n.pendingMsg.view = m.view

end Steps

end Vfs

/-- The loop of `kbd_service` from the scancode on: the message it sends, if it sends one. -/
def kbdMessage (sc : UInt8) (msg : IpcMessage) : Option IpcMessage :=
  if sc &&& 0x80 ≠ 0 then none else
  let ch := scancodeToAscii sc
  if ch = 0 then none else
  some ⟨1, update msg.data 0 ch⟩

/-! ## Requests -/

/-- What is printed for a request. -/
def vfsText : List UInt8 → List UInt8
  | opcode :: fd :: text => if opcode = 1 ∧ (fd = 1 ∨ fd = 2) then text else []
  | _ => []

def Round.bytes : Round → List UInt8
  | message bytes | noMemory bytes => bytes

/-- What is printed for some rounds. -/
def vfsTexts (rounds : List Round) : List UInt8 := rounds.flatMap fun r => vfsText r.bytes

theorem vfsTexts_concat (rounds : List Round) (r : Round) :
    vfsTexts (rounds ++ [r]) = vfsTexts rounds ++ vfsText r.bytes := by
  simp [vfsTexts]

theorem vfsText_short {bytes : List UInt8} (h : bytes.length < 2) : vfsText bytes = [] := by
  rcases bytes with _ | ⟨a, _ | ⟨b, rest⟩⟩
  · rfl
  · rfl
  · simp only [List.length_cons] at h
    omega

theorem length_bytes (m : IpcMessage) : m.bytes.length = m.length := by simp [IpcMessage.bytes]

/-- A file number as an `int`. -/
theorem fd_iff {b c : UInt8} {n : Int} (hc : c.toInt8.toInt = n) : b.toInt8.toInt = n ↔ b = c := by
  rw [← hc, Int8.toInt_inj]
  constructor
  · exact congrArg Int8.toUInt8
  · exact congrArg UInt8.toInt8

theorem vfsText_bytes {m : IpcMessage} {n : Nat} (hlen : m.length = n + 2) :
    vfsText m.bytes = if m.data 0 = 1 ∧ (m.data 1 = 1 ∨ m.data 1 = 2) then
      (List.range n).map fun i => m.data (2 + i) else [] := by
  have hbytes : m.bytes = m.data 0 :: m.data 1 :: (List.range n).map fun i => m.data (2 + i) := by
    unfold IpcMessage.bytes
    rw [hlen, Nat.add_comm, List.range_add, List.map_append, List.map_map]
    rfl
  rw [hbytes, vfsText]

/-- The tests lead to the text of the request, or to none. -/
theorem vfsDispatch_cases (m : IpcMessage) :
    vfsDispatch m = .recv ∧ vfsText m.bytes = [] ∨
    ∃ len, vfsDispatch m = .print 0 len ∧
      vfsText m.bytes = (List.range len).map fun i => m.data (2 + i) := by
  unfold vfsDispatch
  by_cases hshort : m.length < 2
  · left
    rw [if_pos hshort]
    exact ⟨rfl, vfsText_short (by rw [length_bytes]; exact hshort)⟩
  · rcases Nat.exists_eq_add_of_le' (Nat.not_lt.mp hshort) with ⟨n, hn⟩
    rw [if_neg hshort, vfsText_bytes hn]
    simp only [@fd_iff (m.data 1) 1 1 rfl, @fd_iff (m.data 1) 2 2 rfl, hn, Nat.add_sub_cancel]
    by_cases hop : m.data 0 = 1
    · by_cases hfd : m.data 1 = 1 ∨ m.data 1 = 2
      · right
        rw [if_pos hop, if_pos hfd, if_pos ⟨hop, hfd⟩]
        exact ⟨n, rfl, rfl⟩
      · left
        rw [if_pos hop, if_neg hfd, if_neg fun h => hfd h.2]
        exact ⟨rfl, rfl⟩
    · left
      rw [if_neg hop, if_neg fun h => hop h.1]
      exact ⟨rfl, rfl⟩

theorem bytes_copyMessage (src dst : IpcMessage) : (copyMessage src dst).bytes = src.view := by
  rw [← view_copyMessage src dst, IpcMessage.view, IpcMessage.bytes, copyMessage_length, ipcMsgMax,
    min_eq_left (min_le_right src.length 256)]

/-! ## What a call does to the receivers and to the variables -/

section Calls

variable {s s' : Ipc} {cur : Tid} {port : Nat} {msg : IpcMessage} {tail : Tail}

/-- The first receiver on the port is served, if there is one. -/
structure Ipc.Delivers (port : Nat) (msg : IpcMessage) (s s' : Ipc) : Prop where
  blank : s'.Blank
  others : ∀ q, q ≠ port → (s'.ports q).recvers = (s.ports q).recvers
  recvers : (s'.ports port).recvers = (s.ports port).recvers.tail
  frame : ∀ x, (∀ n ∈ (s.ports port).recvers.head?, n.buffer ≠ x) → s'.buffers x = s.buffers x
  stored : ∀ n ∈ (s.ports port).recvers.head?, n.buffer ≠ 0 →
    s'.buffers n.buffer = copyMessage msg (s.buffers n.buffer)
  /-- If there is none, the message may be left to wait. -/
  senders : ∀ q, ∀ n ∈ (s'.ports q).senders,
    n ∈ (s.ports q).senders ∨ q = port ∧ n.pendingMsg.view = msg.view

theorem delivers_handOver {node : RecvNode} {rest : List RecvNode} (h : s.Blank)
    (hrecvers : (s.ports port).recvers = node :: rest) :
    s.Delivers port msg (handOver port msg node rest (ipcEnsureInit s)) := by
  rcases handOver_serves h hrecvers with ⟨-, hchanges, hstored⟩
  constructor
  · exact hchanges.blank
  · intro q hq
    rw [hchanges.others q hq]
  · rw [hchanges.self, hrecvers]
    rfl
  · intro x hx
    have hne : x ≠ node.buffer := by
      rw [hrecvers] at hx
      exact (hx node rfl).symm
    unfold handOver
    dsimp only
    split
    · exact congrFun (ensureInit_buffers s) x
    · simp [Ipc.fill, Ipc.setPort, ensureInit_buffers, hne]
  · intro n hn
    rw [hrecvers] at hn
    cases hn
    exact hstored
  · intro q n hn
    left
    by_cases hq : q = port
    · rw [hq, hchanges.self] at hn
      rw [hq]
      exact hn
    · rw [hchanges.others q hq] at hn
      exact hn

/-- Nobody waits. -/
theorem delivers_nobody (hrecvers : (s.ports port).recvers = []) (hblank : s'.Blank)
    (hports : ∀ q, (s'.ports q).recvers = (s.ports q).recvers) (hbuffers : s'.buffers = s.buffers)
    (hsenders : ∀ q, ∀ n ∈ (s'.ports q).senders,
      n ∈ (s.ports q).senders ∨ q = port ∧ n.pendingMsg.view = msg.view) :
    s.Delivers port msg s' where
  blank := hblank
  others q _ := hports q
  recvers := by
    rw [hports, hrecvers]
    rfl
  frame x _ := congrFun hbuffers x
  stored n hn := by
    rw [hrecvers] at hn
    cases hn
  senders := hsenders

theorem delivers_ensureInit (h : s.Blank) (hrecvers : (s.ports port).recvers = []) :
    s.Delivers port msg (ipcEnsureInit s) := by
  apply delivers_nobody hrecvers (blank_of_initialized (ensureInit_initialized s)) ?_
    (ensureInit_buffers s)
  · intro q n hn
    rw [ensureInit_ports h] at hn
    exact .inl hn
  · intro q
    rw [ensureInit_ports h]

theorem ipcSendLocked_delivers {node : Option IpcMessage} {call : Nat} (h : s.Blank)
    (hport : port < maxPorts) (hcall : ipcSendLocked node call cur port msg s = (tail, s')) :
    s.Delivers port msg s' := by
  unfold ipcSendLocked at hcall
  simp only [ensureInit_ports h, if_neg (Nat.not_le.mpr hport)] at hcall
  split at hcall
  · next n rest hrecvers =>
    cases hcall
    exact delivers_handOver h hrecvers
  · next hrecvers =>
    cases node with
    | none =>
      cases hcall
      exact delivers_ensureInit h hrecvers
    | some old =>
      cases hcall
      have hset := @changes_setPort s port
        ⟨⟨cur, copyMessage msg old, call⟩ :: (s.ports port).senders, (s.ports port).recvers⟩ h
      apply delivers_nobody hrecvers hset.blank ?_ (ensureInit_buffers s)
      · intro q n hn
        by_cases hq : q = port
        · subst hq
          rw [hset.self] at hn
          rcases List.mem_cons.mp hn with rfl | hn
          · exact .inr ⟨rfl, view_copyMessage msg old⟩
          · exact .inl hn
        · rw [hset.others q hq] at hn
          exact .inl hn
      · intro q
        by_cases hq : q = port
        · rw [hq, hset.self]
        · rw [hset.others q hq]

/-- The variables after a receive. -/
theorem ipcRecvLocked_buffers {alloc : Bool} {call buffer : Nat} (h : s.Blank)
    (hcall : ipcRecvLocked alloc call cur port buffer s = (tail, s')) {x : Nat} (hx : x ≠ buffer) :
    s'.buffers x = s.buffers x := by
  unfold ipcRecvLocked at hcall
  simp only [ensureInit_ports h] at hcall
  split at hcall
  · cases hcall
    exact congrFun (ensureInit_buffers s) x
  · split at hcall
    · cases hcall
      simp [Ipc.fill, Ipc.setPort, ensureInit_buffers, hx]
    · split at hcall
      · cases hcall
        exact congrFun (ensureInit_buffers s) x
      · cases hcall
        exact congrFun (ensureInit_buffers s) x

end Calls

/-! ## Runs -/

namespace Vfs

section Runs

variable {v : VfsSetup} {Sends : IpcMessage → Prop} {s s' : Vfs} {ipc : Ipc}

/-- The nodes that are the service's or refer to its variable. -/
def ownNodes (v : VfsSetup) (ipc : Ipc) (p : Nat) : List RecvNode :=
  (ipc.ports p).recvers.filter fun n => n.thread = v.service ∨ n.buffer = v.req

/-- The last round is in `req`, and `i` characters of it are printed. -/
structure Ahead (v : VfsSetup) (s : Vfs) (done : List Round) (r : Round) (i : Nat) : Prop where
  rounds : s.rounds = done ++ [r]
  req : (s.req v).bytes = r.bytes
  line : s.line = onLine (vfsTexts done ++ (vfsText r.bytes).take i)

def Place (v : VfsSetup) (s : Vfs) : VfsPc → Prop
  | .recv => ownNodes v s.ipc v.port = [] ∧ s.line = onLine (vfsTexts s.rounds)
  | .blocked =>
    (∃ call, ownNodes v s.ipc v.port = [⟨v.service, v.req, call⟩] ∧
      s.line = onLine (vfsTexts s.rounds)) ∨
    (ownNodes v s.ipc v.port = [] ∧ ∃ done r, Ahead v s done r 0)
  | .received => ownNodes v s.ipc v.port = [] ∧ ∃ done r, Ahead v s done r 0
  | .print i len => ownNodes v s.ipc v.port = [] ∧ ∃ done r, Ahead v s done r i ∧ i ≤ len ∧
      vfsText r.bytes = (List.range len).map fun j => (s.req v).data (2 + j)

/-- Bytes that somebody can have sent to the service. -/
def Allowed (Sends : IpcMessage → Prop) (bytes : List UInt8) : Prop :=
  bytes = [] ∨ ∃ m, Sends m ∧ bytes = m.view

structure Inv (v : VfsSetup) (Sends : IpcMessage → Prop) (s : Vfs) : Prop where
  blank : s.ipc.Blank
  elsewhere : ∀ p, p ≠ v.port → ownNodes v s.ipc p = []
  place : Place v s s.pc
  senders : ∀ n ∈ (s.ipc.ports v.port).senders, Allowed Sends n.pendingMsg.view
  rounds : ∀ bytes, .message bytes ∈ s.rounds → Allowed Sends bytes

theorem place_congr (hown : ownNodes v ipc v.port = ownNodes v s.ipc v.port)
    (hreq : ipc.buffers v.req = s.ipc.buffers v.req) {pc : VfsPc} (h : Place v s pc) :
    Place v { s with ipc := ipc } pc := by
  have hreq' : Vfs.req v { s with ipc := ipc } = s.req v := hreq
  have hahead : ∀ done r i, Ahead v s done r i → Ahead v { s with ipc := ipc } done r i := by
    intro done r i h
    exact ⟨h.rounds, hreq'.symm ▸ h.req, h.line⟩
  cases pc with
  | recv => exact ⟨hown.trans h.1, h.2⟩
  | blocked =>
    rcases h with ⟨call, hnode, hline⟩ | ⟨hnode, done, r, h⟩
    · exact .inl ⟨call, hown.trans hnode, hline⟩
    · exact .inr ⟨hown.trans hnode, done, r, hahead _ _ _ h⟩
  | received =>
    rcases h with ⟨hnode, done, r, h⟩
    exact ⟨hown.trans hnode, done, r, hahead _ _ _ h⟩
  | print i len =>
    rcases h with ⟨hnode, done, r, h, hle, htext⟩
    refine ⟨hown.trans hnode, done, r, hahead _ _ _ h, hle, ?_⟩
    rw [hreq']
    exact htext

/-- Others do something that leaves the service's nodes and its variable alone. -/
theorem Inv.frame (h : s.Inv v Sends) (hblank : ipc.Blank)
    (hown : ∀ p, ownNodes v ipc p = ownNodes v s.ipc p)
    (hreq : ipc.buffers v.req = s.ipc.buffers v.req)
    (hsenders : ∀ n ∈ (ipc.ports v.port).senders, Allowed Sends n.pendingMsg.view) :
    Inv v Sends { s with ipc := ipc } where
  blank := hblank
  elsewhere p hp := (hown p).trans (h.elsewhere p hp)
  place := place_congr (hown v.port) hreq h.place
  senders := hsenders
  rounds := h.rounds

/-- A node of the service is there only while it waits. -/
theorem Inv.waits (h : s.Inv v Sends) {p : Nat} {n : RecvNode} {rest : List RecvNode}
    (hnodes : ownNodes v s.ipc p = n :: rest) :
    p = v.port ∧ s.pc = .blocked ∧ n.thread = v.service ∧ n.buffer = v.req ∧ rest = [] ∧
      s.line = onLine (vfsTexts s.rounds) := by
  by_cases hp : p = v.port
  · subst hp
    have hplace := h.place
    cases hpc : s.pc with
    | blocked =>
      rw [hpc] at hplace
      rcases hplace with ⟨call, hnode, hline⟩ | ⟨hnode, -⟩
      · rw [hnode] at hnodes
        cases hnodes
        exact ⟨rfl, rfl, rfl, rfl, rfl, hline⟩
      · rw [hnode] at hnodes
        cases hnodes
    | recv | received | print =>
      rw [hpc] at hplace
      have hnode := hplace.1
      rw [hnode] at hnodes
      cases hnodes
  · rw [h.elsewhere p hp] at hnodes
    cases hnodes

theorem handed_nil {port : Nat} {msg : IpcMessage} (h : s.ipc.Blank)
    (hrecvers : (s.ipc.ports port).recvers = []) : handed v port msg s.ipc = [] := by
  rw [handed, ensureInit_ports h, hrecvers]

theorem handed_cons {port : Nat} {msg : IpcMessage} {n : RecvNode} {rest : List RecvNode}
    (h : s.ipc.Blank) (hrecvers : (s.ipc.ports port).recvers = n :: rest) :
    handed v port msg s.ipc = if n.thread = v.service then [.message msg.view] else [] := by
  rw [handed, ensureInit_ports h, hrecvers]

/-- A message that is sent is one for the service, or does not concern it. -/
theorem Inv.delivers {port : Nat} {msg : IpcMessage} (h : s.Inv v Sends)
    (hsent : s.ipc.Delivers port msg ipc) (hallowed : port = v.port → Allowed Sends msg.view) :
    Inv v Sends { s with ipc := ipc, rounds := s.rounds ++ handed v port msg s.ipc } := by
  have hsenders : ∀ n ∈ (ipc.ports v.port).senders, Allowed Sends n.pendingMsg.view := by
    intro n hn
    rcases hsent.senders v.port n hn with hn | ⟨hport, hview⟩
    · exact h.senders n hn
    · rw [hview]
      exact hallowed hport.symm
  have hothers : ∀ p, p ≠ port → ownNodes v ipc p = ownNodes v s.ipc p := by
    intro p hp
    unfold ownNodes
    rw [hsent.others p hp]
  cases hrecvers : (s.ipc.ports port).recvers with
  | nil =>
    rw [handed_nil h.blank hrecvers, List.append_nil]
    refine h.frame hsent.blank ?_ ?_ hsenders
    · intro p
      by_cases hp : p = port
      · unfold ownNodes
        rw [hp, hsent.recvers, hrecvers]
        rfl
      · exact hothers p hp
    · apply hsent.frame
      intro n hn
      rw [hrecvers] at hn
      cases hn
  | cons n rest =>
    have htail : ownNodes v ipc port =
        rest.filter fun n => n.thread = v.service ∨ n.buffer = v.req := by
      unfold ownNodes
      rw [hsent.recvers, hrecvers]
      rfl
    rw [handed_cons h.blank hrecvers]
    by_cases hown : n.thread = v.service ∨ n.buffer = v.req
    · -- the service's own node is taken off the port
      have hnodes : ownNodes v s.ipc port =
          n :: rest.filter fun n => n.thread = v.service ∨ n.buffer = v.req := by
        unfold ownNodes
        rw [hrecvers, List.filter_cons_of_pos (by simpa using hown)]
      rcases h.waits hnodes with ⟨rfl, hpc, hthread, hbuffer, hrest, hline⟩
      rw [if_pos hthread]
      have hstored := hsent.stored n (by rw [hrecvers]; rfl) (hbuffer ▸ v.req_ne)
      rw [hbuffer] at hstored
      refine ⟨hsent.blank, ?_, ?_, hsenders, ?_⟩
      · intro p hp
        exact (hothers p hp).trans (h.elsewhere p hp)
      · show Place v _ s.pc
        rw [hpc]
        refine .inr ⟨htail.trans hrest, s.rounds, .message msg.view, rfl, ?_, ?_⟩
        · show (ipc.buffers v.req).bytes = msg.view
          rw [hstored, bytes_copyMessage]
        · rw [List.take_zero, List.append_nil]
          exact hline
      · intro bytes hbytes
        rcases List.mem_append.mp hbytes with hbytes | hbytes
        · exact h.rounds bytes hbytes
        · cases List.mem_singleton.mp hbytes
          exact hallowed rfl
    · -- somebody else's
      rcases not_or.mp hown with ⟨hthread, hbuffer⟩
      rw [if_neg hthread, List.append_nil]
      refine h.frame hsent.blank ?_ ?_ hsenders
      · intro p
        by_cases hp : p = port
        · rw [hp, htail]
          unfold ownNodes
          rw [hrecvers, List.filter_cons_of_neg (by simpa using hown)]
        · exact hothers p hp
      · apply hsent.frame
        intro n' hn'
        rw [hrecvers] at hn'
        cases hn'
        exact hbuffer

/-- Another thread receives. -/
theorem Inv.receives {cur : Tid} {port buffer call : Nat} {alloc : Bool} {tail : Tail}
    (h : s.Inv v Sends) (hcur : cur ≠ v.service) (hbuffer : buffer ≠ v.req) (hport : port < maxPorts)
    (hcall : ipcRecvLocked alloc call cur port buffer s.ipc = (tail, ipc)) :
    Inv v Sends { s with ipc := ipc } := by
  have hreq := ipcRecvLocked_buffers h.blank hcall hbuffer.symm
  rcases ipcRecvLocked_cases h.blank hport hcall with
    ⟨n, rest, hsenders, -, hchanges, -⟩ | ⟨hnone, ⟨-, -, rfl⟩ | ⟨-, -, hchanges⟩⟩
  · refine h.frame hchanges.blank ?_ hreq ?_
    · intro p
      unfold ownNodes
      by_cases hp : p = port
      · rw [hp, hchanges.self]
      · rw [hchanges.others p hp]
    · intro n' hn'
      apply h.senders
      by_cases hp : v.port = port
      · rw [hp, hchanges.self] at hn'
        rw [hp, hsenders]
        exact List.mem_cons_of_mem n hn'
      · rw [hchanges.others _ hp] at hn'
        exact hn'
  · have hports := ensureInit_ports h.blank
    refine h.frame (blank_of_initialized (ensureInit_initialized s.ipc)) ?_ hreq ?_
    · intro p
      unfold ownNodes
      rw [hports]
    · rw [hports]
      exact h.senders
  · refine h.frame hchanges.blank ?_ hreq ?_
    · intro p
      unfold ownNodes
      by_cases hp : p = port
      · have hnot : ¬ (cur = v.service ∨ buffer = v.req) := not_or.mpr ⟨hcur, hbuffer⟩
        rw [hp, hchanges.self, List.filter_cons_of_neg (by simpa using hnot)]
      · rw [hchanges.others p hp]
    · intro n' hn'
      by_cases hp : v.port = port
      · rw [hp, hchanges.self] at hn'
        cases hn'
      · rw [hchanges.others _ hp] at hn'
        exact h.senders n' hn'

/-- The service receives: it has a message, or none for lack of memory, or it waits. -/
theorem Inv.recv {alloc : Bool} {call : Nat} {ipc' : Ipc} {tail : Tail} (h : s.Inv v Sends)
    (hpc : s.pc = .recv) (hports : ipc.ports = s.ipc.ports) (hblank : ipc.Blank)
    (hcall : ipcRecvLocked alloc call v.service v.port v.req ipc = (tail, ipc')) :
    Inv v Sends { s with
      ipc := ipc'
      pc := if tail = .sleep then .blocked else .received
      rounds := s.rounds ++ taken v ipc tail } := by
  have hplace := h.place
  rw [hpc] at hplace
  rcases hplace with ⟨hnodes, hline⟩
  have hline₀ : s.line = onLine (vfsTexts s.rounds ++ []) := by
    rw [List.append_nil]
    exact hline
  rcases ipcRecvLocked_cases hblank v.port_lt hcall with
    ⟨n, rest, hsenders, rfl, hchanges, hstored⟩ | ⟨hnone, ⟨-, rfl, rfl⟩ | ⟨-, rfl, hchanges⟩⟩
  · have hown : ∀ p, ownNodes v ipc' p = ownNodes v s.ipc p := by
      intro p
      unfold ownNodes
      by_cases hp : p = v.port
      · rw [hp, hchanges.self, hports]
      · rw [hchanges.others p hp, hports]
    have htaken : taken v ipc (.wake n.thread) = [.message n.pendingMsg.view] := by
      rw [taken, ensureInit_ports hblank, hsenders]
      rfl
    rw [hports] at hsenders
    rw [htaken]
    refine ⟨hchanges.blank, fun p hp => (hown p).trans (h.elsewhere p hp), ?_, ?_, ?_⟩
    · refine ⟨(hown _).trans hnodes, s.rounds, _, rfl, ?_, hline₀⟩
      show (ipc'.buffers v.req).bytes = _
      rw [hstored, bytes_copyMessage]
      rfl
    · intro n' hn'
      rw [hchanges.self] at hn'
      apply h.senders
      rw [hsenders]
      exact List.mem_cons_of_mem n hn'
    · intro bytes hbytes
      rcases List.mem_append.mp hbytes with hbytes | hbytes
      · exact h.rounds bytes hbytes
      · cases List.mem_singleton.mp hbytes
        apply h.senders
        rw [hsenders]
        exact List.mem_cons_self
  · have hsame : (ipcEnsureInit ipc).ports = s.ipc.ports := (ensureInit_ports hblank).trans hports
    have hown : ∀ p, ownNodes v (ipcEnsureInit ipc) p = ownNodes v s.ipc p := by
      intro p
      unfold ownNodes
      rw [hsame]
    refine ⟨blank_of_initialized (ensureInit_initialized ipc),
      fun p hp => (hown p).trans (h.elsewhere p hp), ?_, ?_, ?_⟩
    · refine ⟨(hown _).trans hnodes, s.rounds, _, rfl, ?_, hline₀⟩
      show ((ipcEnsureInit ipc).buffers v.req).bytes = _
      rw [ensureInit_buffers]
      rfl
    · dsimp only
      rw [hsame]
      exact h.senders
    · intro bytes hbytes
      rcases List.mem_append.mp hbytes with hbytes | hbytes
      · exact h.rounds bytes hbytes
      · cases List.mem_singleton.mp hbytes
  · have hown : ∀ p, p ≠ v.port → ownNodes v ipc' p = ownNodes v s.ipc p := by
      intro p hp
      unfold ownNodes
      rw [hchanges.others p hp, hports]
    show Inv v Sends { s with ipc := ipc', pc := .blocked, rounds := s.rounds ++ [] }
    rw [List.append_nil]
    refine ⟨hchanges.blank, fun p hp => (hown p hp).trans (h.elsewhere p hp), ?_, ?_, h.rounds⟩
    · refine .inl ⟨call, ?_, hline⟩
      unfold ownNodes at hnodes ⊢
      rw [hchanges.self, List.filter_cons_of_pos (by simp), hports, hnodes]
    · intro n hn
      rw [hchanges.self] at hn
      cases hn

/-- The node of the service is off the port. -/
theorem Inv.resumed (h : s.Inv v Sends) (hpc : s.pc = .blocked)
    (hoff : ∀ n ∈ ((ipcEnsureInit s.ipc).ports v.port).recvers, n.thread ≠ v.service) :
    Inv v Sends { s with pc := .received } := by
  have hplace := h.place
  rw [hpc] at hplace
  refine ⟨h.blank, h.elsewhere, ?_, h.senders, h.rounds⟩
  rcases hplace with ⟨call, hnode, -⟩ | hplace
  · rw [ensureInit_ports h.blank] at hoff
    have hmem : ⟨v.service, v.req, call⟩ ∈ ownNodes v s.ipc v.port := by
      rw [hnode]
      exact List.mem_cons_self
    exact absurd rfl (hoff _ (List.mem_of_mem_filter hmem))
  · rcases hplace with ⟨hnode, done, r, hahead⟩
    exact ⟨hnode, done, r, hahead.rounds, hahead.req, hahead.line⟩

/-- The tests of the service. -/
theorem Inv.dispatch (h : s.Inv v Sends) (hpc : s.pc = .received) :
    Inv v Sends { s with pc := vfsDispatch (s.req v) } := by
  have hplace := h.place
  rw [hpc] at hplace
  rcases hplace with ⟨hnode, done, r, hahead⟩
  refine ⟨h.blank, h.elsewhere, ?_, h.senders, h.rounds⟩
  show Place v _ (vfsDispatch (s.req v))
  rcases vfsDispatch_cases (s.req v) with ⟨hpc', htext⟩ | ⟨len, hpc', htext⟩
  · rw [hahead.req] at htext
    rw [hpc']
    refine ⟨hnode, ?_⟩
    show s.line = onLine (vfsTexts s.rounds)
    rw [hahead.line, hahead.rounds, vfsTexts_concat, htext, List.take_nil]
  · rw [hahead.req] at htext
    rw [hpc']
    exact ⟨hnode, done, r, ⟨hahead.rounds, hahead.req, hahead.line⟩, Nat.zero_le len, htext⟩

theorem Inv.putc {i len : Nat} (h : s.Inv v Sends) (hpc : s.pc = .print i len) (hi : i < len) :
    Inv v Sends { s with
      pc := .print (i + 1) len
      line := serialPutc ((s.req v).data (2 + i)) s.line } := by
  have hplace := h.place
  rw [hpc] at hplace
  rcases hplace with ⟨hnode, done, r, hahead, -, htext⟩
  refine ⟨h.blank, h.elsewhere, ?_, h.senders, h.rounds⟩
  refine ⟨hnode, done, r, ⟨hahead.rounds, hahead.req, ?_⟩, hi, htext⟩
  have htake : (vfsText r.bytes).take (i + 1) =
      (vfsText r.bytes).take i ++ [(s.req v).data (2 + i)] := by
    rw [List.take_add_one, htext]
    simp [hi]
  show serialPutc _ s.line = _
  rw [serialPutc_eq, hahead.line, htake, ← onLine_append, List.append_assoc]

theorem Inv.endFor {i len : Nat} (h : s.Inv v Sends) (hpc : s.pc = .print i len) (hi : ¬ i < len) :
    Inv v Sends { s with pc := .recv } := by
  have hplace := h.place
  rw [hpc] at hplace
  rcases hplace with ⟨hnode, done, r, hahead, -, htext⟩
  refine ⟨h.blank, h.elsewhere, ⟨hnode, ?_⟩, h.senders, h.rounds⟩
  have hall : (vfsText r.bytes).take i = vfsText r.bytes := by
    apply List.take_of_length_le
    rw [htext, List.length_map, List.length_range]
    omega
  show s.line = onLine (vfsTexts s.rounds)
  rw [hahead.line, hall, hahead.rounds, vfsTexts_concat]

theorem Inv.step (h : s.Inv v Sends) (hstep : Step v s s') : s'.Inv v Sends := by
  cases hstep with
  | recv hpc hipc hcall =>
    subst hipc
    exact h.recv hpc rfl h.blank hcall
  | resumed hpc hoff => exact h.resumed hpc hoff
  | dispatch hpc => exact h.dispatch hpc
  | putc hpc hi => exact h.putc hpc hi
  | endFor hpc hi => exact h.endFor hpc hi

theorem view_empty {m : IpcMessage} (h : m.length = 0) : m.view = [] := by
  simp [IpcMessage.view, h]

theorem Inv.next (h : s.Inv v Sends) (hnext : Next v Sends s s') : s'.Inv v Sends := by
  cases hnext with
  | step hstep => exact h.step hstep
  | send _ hport hsends hcall =>
    exact h.delivers (ipcSendLocked_delivers h.blank hport hcall)
      fun heq => .inr ⟨_, hsends heq, rfl⟩
  | kernelSend hport hempty hcall =>
    rw [ipcKernelSendLocked_eq 0 0] at hcall
    exact h.delivers (ipcSendLocked_delivers h.blank hport hcall)
      fun _ => .inl (view_empty hempty)
  | recv hcur hbuffer hport hcall => exact h.receives hcur hbuffer hport hcall
  | store hbuffers => exact h.frame h.blank (fun _ => rfl) hbuffers h.senders

theorem Init.inv (h : Init v Sends s) : s.Inv v Sends := by
  rcases h with ⟨hblank, hpc, hline, hrounds, hrecvers, hsenders⟩
  have hown : ∀ p, ownNodes v s.ipc p = [] := by
    intro p
    unfold ownNodes
    rw [List.filter_eq_nil_iff]
    intro n hn
    simpa using hrecvers p n hn
  refine ⟨hblank, fun p _ => hown p, ?_, fun n hn => .inr (hsenders n hn), ?_⟩
  · rw [hpc]
    refine ⟨hown _, ?_⟩
    rw [hline, hrounds]
    rfl
  · intro bytes hbytes
    rw [hrounds] at hbytes
    cases hbytes

theorem inv_of_reachable (h : Reachable (Init v Sends) (Next v Sends) s) : s.Inv v Sends :=
  h.invariant (fun _ hs => Init.inv hs) fun _ _ hnext hinv => hinv.next hnext

/-- The service has printed what there is to print. -/
def Idle (v : VfsSetup) (s : Vfs) : Prop :=
  s.pc = .recv ∨ s.pc = .blocked ∧ ∃ n ∈ (s.ipc.ports v.port).recvers, n.thread = v.service

/-- All rounds are printed, except perhaps the last one. -/
theorem Inv.printed (h : s.Inv v Sends) :
    s.line = onLine (vfsTexts s.rounds) ∨ ¬ s.Idle v ∧ ∃ done r i, Ahead v s done r i := by
  have hplace := h.place
  cases hpc : s.pc with
  | recv =>
    rw [hpc] at hplace
    exact .inl hplace.2
  | blocked =>
    rw [hpc] at hplace
    rcases hplace with ⟨call, -, hline⟩ | ⟨hnode, done, r, hahead⟩
    · exact .inl hline
    · refine .inr ⟨?_, done, r, 0, hahead⟩
      rintro (hrecv | ⟨-, n, hn, hthread⟩)
      · rw [hpc] at hrecv
        cases hrecv
      · have hmem : n ∈ ownNodes v s.ipc v.port := by
          unfold ownNodes
          simp [hn, hthread]
        rw [hnode] at hmem
        cases hmem
  | received =>
    rw [hpc] at hplace
    rcases hplace with ⟨-, done, r, hahead⟩
    exact .inr ⟨by simp [Idle, hpc], done, r, 0, hahead⟩
  | print i len =>
    rw [hpc] at hplace
    rcases hplace with ⟨-, done, r, hahead, -⟩
    exact .inr ⟨by simp [Idle, hpc], done, r, i, hahead⟩

/-- What is printed lies between the rounds that are done and all of them. -/
theorem Inv.between (h : s.Inv v Sends) :
    ∃ done rest, s.rounds = done ++ rest ∧ rest.length ≤ 1 ∧ (s.Idle v → rest = []) ∧
      onLine (vfsTexts done) <+: s.line ∧ s.line <+: onLine (vfsTexts s.rounds) := by
  rcases h.printed with hline | ⟨hbusy, done, r, i, hahead⟩
  · refine ⟨s.rounds, [], (List.append_nil _).symm, Nat.zero_le 1, fun _ => rfl, ?_, ?_⟩
    · rw [hline]
    · rw [hline]
  · refine ⟨done, [r], hahead.rounds, Nat.le_refl 1, fun hidle => absurd hidle hbusy, ?_, ?_⟩
    · rw [hahead.line, onLine_append]
      exact List.prefix_append ..
    · have hsplit := List.take_append_drop i (vfsText r.bytes)
      rw [hahead.line, hahead.rounds, vfsTexts_concat, ← hsplit, ← List.append_assoc,
        onLine_append (vfsTexts done ++ _), List.take_append_drop]
      exact List.prefix_append ..

/-- In every run, with any threads sending to the port of the service and receiving from it at
any time: of the messages that the service got, in their order, all are printed, with the
exception of the last one as long as the service is not back in its `ipc_recv`. Of a message
exactly its text is printed, and each is one that somebody has sent. -/
theorem vfs_prints_requests (v : VfsSetup) (Sends : IpcMessage → Prop)
    (h : Reachable (Init v Sends) (Next v Sends) s) :
    (∃ done rest, s.rounds = done ++ rest ∧ rest.length ≤ 1 ∧ (s.Idle v → rest = []) ∧
      onLine (vfsTexts done) <+: s.line ∧ s.line <+: onLine (vfsTexts s.rounds)) ∧
    ∀ bytes, .message bytes ∈ s.rounds → Allowed Sends bytes := by
  have hinv := inv_of_reachable h
  exact ⟨hinv.between, hinv.rounds⟩

/-- The service on port 3, with nobody there. -/
def vfsStart : Vfs := ⟨⟨fun _ => ⟨[], []⟩, false, fun _ => ⟨0, fun _ => 0⟩⟩, .recv, [], []⟩

def vfsSetup : VfsSetup := ⟨3, 1, 24, by decide, by decide⟩

theorem init_vfsStart (Sends : IpcMessage → Prop) : Init vfsSetup Sends vfsStart := by
  refine ⟨fun _ _ => rfl, rfl, rfl, rfl, ?_, ?_⟩
  · intro p n hn
    cases hn
  · intro n hn
    cases hn

/-- `hi` is written to file 1 while the service waits. -/
theorem vfs_prints_requests_hi : ∃ s, Reachable (Init vfsSetup fun _ => True)
      (Next vfsSetup fun _ => True) s ∧ s.rounds = [.message [1, 1, 104, 105]] ∧
      s.line = [104, 105] := by
  let msg : IpcMessage := ⟨4, fun i => [1, 1, 104, 105].getD i 0⟩
  have h₀ : Reachable (Init vfsSetup fun _ => True) (Next vfsSetup fun _ => True) vfsStart :=
    .init (init_vfsStart _)
  have h₁ := h₀.step (.step (@Step.recv vfsSetup _ true 0 ⟨0, fun _ => 0⟩ _ _ _ rfl rfl rfl))
  have h₂ := h₁.step (@Next.send _ _ _ 2 3 0 msg none _ _ (by decide) (by decide)
    (fun _ => trivial) rfl)
  have h₃ := h₂.step (.step (.resumed rfl (by intro n hn; cases hn)))
  have h₄ := h₃.step (.step (.dispatch rfl))
  have h₅ := h₄.step (.step (@Step.putc _ _ 0 2 rfl (by decide)))
  have h₆ := h₅.step (.step (@Step.putc _ _ 1 2 rfl (by decide)))
  have h₇ := h₆.step (.step (@Step.endFor _ _ 2 2 rfl (by decide)))
  refine ⟨_, h₇, rfl, ?_⟩
  rcases (vfs_prints_requests vfsSetup _ h₇).1 with ⟨done, rest, hrounds, -, hidle, hlow, hhigh⟩
  rw [hidle (.inl rfl), List.append_nil] at hrounds
  rw [← hrounds] at hlow
  exact hlow.eq_of_length_le hhigh.length_le |>.symm

/-! ## Keys -/

/-- A message of `kbd_service`. -/
def KeyMessage (m : IpcMessage) : Prop := ∃ sc msg, kbdMessage sc msg = some m

theorem KeyMessage.length_eq {m : IpcMessage} (h : KeyMessage m) : m.length = 1 := by
  rcases h with ⟨sc, msg, hm⟩
  unfold kbdMessage at hm
  split at hm
  · cases hm
  · dsimp only at hm
    split at hm
    · cases hm
    · cases hm
      rfl

theorem vfsTexts_short {rounds : List Round} (h : ∀ r ∈ rounds, r.bytes.length < 2) :
    vfsTexts rounds = [] := by
  apply List.flatMap_eq_nil_iff.mpr
  intro r hr
  exact vfsText_short (h r hr)

/-- If nothing is sent to the service but keys and interrupts, and there was memory for its wait
nodes, it never prints anything. -/
theorem keys_not_printed (v : VfsSetup) (h : Reachable (Init v KeyMessage) (Next v KeyMessage) s)
    (hmemory : ∀ bytes, .noMemory bytes ∉ s.rounds) : s.line = [] := by
  have hinv := inv_of_reachable h
  have hshort : ∀ r ∈ s.rounds, r.bytes.length < 2 := by
    intro r hr
    cases r with
    | noMemory bytes => exact absurd hr (hmemory bytes)
    | message bytes =>
      rcases hinv.rounds bytes hr with hempty | ⟨m, hkey, hview⟩
      · simp [Round.bytes, hempty]
      · simp [Round.bytes, hview, view_length, hkey.length_eq]
  rcases hinv.between with ⟨-, -, -, -, -, -, hline⟩
  rw [vfsTexts_short hshort] at hline
  exact List.prefix_nil.mp hline

/-- The key `a`, pressed while the service waits. -/
theorem keys_not_printed_a : ∃ s, Reachable (Init vfsSetup KeyMessage) (Next vfsSetup KeyMessage) s ∧
    s.rounds = [.message [97]] ∧ s.pc = .recv ∧ s.line = [] := by
  have hkey : kbdMessage 30 ⟨0, fun _ => 0⟩ = some ⟨1, update (fun _ => 0) 0 97⟩ := rfl
  have h₀ : Reachable (Init vfsSetup KeyMessage) (Next vfsSetup KeyMessage) vfsStart :=
    .init (init_vfsStart _)
  have h₁ := h₀.step (.step (@Step.recv vfsSetup _ true 0 ⟨0, fun _ => 0⟩ _ _ _ rfl rfl rfl))
  have h₂ := h₁.step (@Next.send _ _ _ 2 3 0 _ none _ _ (by decide) (by decide)
    (fun _ => ⟨30, _, hkey⟩) rfl)
  have h₃ := h₂.step (.step (.resumed rfl (by intro n hn; cases hn)))
  have h₄ := h₃.step (.step (.dispatch rfl))
  refine ⟨_, h₄, rfl, rfl, keys_not_printed vfsSetup h₄ ?_⟩
  intro bytes hbytes
  cases List.mem_singleton.mp hbytes

end Runs

end Vfs

end Orchid
