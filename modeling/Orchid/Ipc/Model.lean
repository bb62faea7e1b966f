import Orchid.Core.ByteMem
import Orchid.Scheduler.Timer

/-! # Messages between threads

A model of `kernel/ipc.c`. A port has a list of waiting senders, each with its
message, and one of waiting receivers, each with the buffer it wants filled;
both are pushed and popped at the front.

* Each function is given up to the point where it releases the lock of the port,
  with what it does next (`Tail`).
* A wait node comes from `kmalloc` with whatever its memory held; `none` is NULL.
* `call` is a ghost: the number of the call that made the node.
-/

namespace Orchid

open ByteMem Function

/-- `IPC_MSG_MAX`. -/
def ipcMsgMax : Nat := 256

/-- `MAX_PORTS`. -/
def maxPorts : Nat := 64

/-- `struct ipc_message`. -/
structure IpcMessage where
  length : Nat
  data : ByteMem

/-- A `wait_node_t` in a list of senders. -/
structure SendNode where
  thread : Tid
  pendingMsg : IpcMessage
  call : Nat

/-- A `wait_node_t` in a list of receivers; buffer 0 is NULL. -/
structure RecvNode where
  thread : Tid
  buffer : Nat
  call : Nat

/-- `port_t`. -/
structure Port where
  senders : List SendNode
  recvers : List RecvNode

/-- The static variables of `ipc.c`, and the messages the callers' pointers
refer to. -/
structure Ipc where
  ports : Nat → Port
  initialized : Bool
  buffers : Nat → IpcMessage

/-- `ipc_init`. -/
def ipcInit (s : Ipc) : Ipc := { s with ports := fun _ => ⟨[], []⟩, initialized := true }

/-- The start of each function. -/
def ipcEnsureInit (s : Ipc) : Ipc := if s.initialized then s else ipcInit s

/-- The copy loop: the length is cut off, and only that many bytes are written. -/
def copyMessage (src dst : IpcMessage) : IpcMessage :=
  let len := if ipcMsgMax < src.length then ipcMsgMax else src.length
  { length := len, data := store dst.data 0 src.data len }

/-- `*ptr` is overwritten with a copy of `msg`. -/
def Ipc.fill (s : Ipc) (ptr : Nat) (msg : IpcMessage) : Ipc :=
  { s with buffers := update s.buffers ptr (copyMessage msg (s.buffers ptr)) }

/-- Overwrite port `p`. -/
def Ipc.setPort (s : Ipc) (p : Nat) (port : Port) : Ipc :=
  { s with ports := update s.ports p port }

/-- A waiting receiver is taken off the list, and its buffer is filled unless it
is NULL. -/
def handOver (port : Nat) (msg : IpcMessage) (node : RecvNode) (rest : List RecvNode) (s : Ipc) :
    Ipc :=
  let s := s.setPort port { s.ports port with recvers := rest }
  if node.buffer = 0 then s else s.fill node.buffer msg

/-- `ipc_kernel_send`. -/
def ipcKernelSendLocked (port : Nat) (msg : IpcMessage) (s : Ipc) : Tail × Ipc :=
  let s := ipcEnsureInit s
  if maxPorts ≤ port then (.done, s) else
  match (s.ports port).recvers with
  | node :: rest => (.wake node.thread, handOver port msg node rest s)
  | [] => (.done, s)

/-- `ipc_send`. -/
def ipcSendLocked (node : Option IpcMessage) (call : Nat) (cur : Tid) (port : Nat)
    (msg : IpcMessage) (s : Ipc) : Tail × Ipc :=
  let s := ipcEnsureInit s
  if maxPorts ≤ port then (.done, s) else
  match (s.ports port).recvers with
  | node :: rest => (.wake node.thread, handOver port msg node rest s)
  | [] =>
    match node with
    | none => (.done, s)
    | some old =>
      let senders := ⟨cur, copyMessage msg old, call⟩ :: (s.ports port).senders
      (.sleep, s.setPort port { s.ports port with senders := senders })

/-- `ipc_kernel_send` is an `ipc_send` that gets no node. -/
theorem ipcKernelSendLocked_eq (call : Nat) (cur : Tid) (port : Nat) (msg : IpcMessage) (s : Ipc) :
    ipcKernelSendLocked port msg s = ipcSendLocked none call cur port msg s := rfl

/-- `ipc_recv`. -/
def ipcRecvLocked (alloc : Bool) (call : Nat) (cur : Tid) (port msg : Nat) (s : Ipc) :
    Tail × Ipc :=
  let s := ipcEnsureInit s
  if maxPorts ≤ port then (.done, s) else
  match (s.ports port).senders with
  | node :: rest =>
    let s := s.setPort port { s.ports port with senders := rest }
    (.wake node.thread, s.fill msg node.pendingMsg)
  | [] =>
    if !alloc then (.done, s) else
    let recvers := ⟨cur, msg, call⟩ :: (s.ports port).recvers
    (.sleep, s.setPort port { s.ports port with recvers := recvers })

/-! ## Copies of messages -/

theorem copyMessage_length (src dst : IpcMessage) :
    (copyMessage src dst).length = min src.length 256 := by
  unfold copyMessage ipcMsgMax
  dsimp only
  split <;> omega

theorem copyMessage_data (src dst : IpcMessage) {i : Nat} (hi : i < min src.length 256) :
    (copyMessage src dst).data i = src.data i := by
  have hlen : i < (copyMessage src dst).length := by
    rw [copyMessage_length]
    exact hi
  simp only [copyMessage] at hlen ⊢
  rw [store_apply, if_pos ⟨Nat.zero_le i, by omega⟩, Nat.sub_zero]

end Orchid
