import Orchid.Core.Sections
import Orchid.Device.Printf
import Orchid.Syscall.Write

/-! # Lines on the serial port

The kernel threads of `kernel/main.c` print with `serial_lock` held: `thread_a` and `thread_b`
ten lines each, `echo_service` one when it has its port, and `echo_client` two when it has found
the service. Without a port these two print a line without the lock. Between its lines the client
is in `ipc_send` and `ipc_recv`, from which it need not return. A thread can lose the processor
after any byte that it sends, and the rest of the kernel prints without the lock.

Whatever the order of the steps, the bytes sent with the lock held are whole lines, each thread's
bytes are in its order, and a thread that waits for the lock needs nothing but steps of the holder
to get it (`serial_lines_whole`).
-/

namespace Orchid

open Machine Sections Relation

/-! ## Model -/

/-- A call of `serial_printf` with the arguments that its format asks for. -/
structure PrintfCall where
  format : CString
  args : List PrintArg
  argsMatch : (formatted format.text args).isSome
  notPercent : endsInPercent format.text = false

namespace PrintfCall

def text (c : PrintfCall) : List UInt8 :=
  ((formatted c.format.text c.args).get c.argsMatch).map (Glyph.byte serialHex)

/-- What is sent. -/
def bytes (c : PrintfCall) : List UInt8 := onLine c.text

/-- The call prints this and returns. -/
theorem stopsAtEnd (c : PrintfCall) (junk : Nat → Int → UInt8) :
    StopsAtEnd (serialPrintf junk c.format.byte c.args) c.format c.text :=
  stopsAtEnd_of_formatted serialHex_digits junk (Option.some_get c.argsMatch).symm c.notPercent

end PrintfCall

/-- The call in a round of the loop: `"Thread A: %d\n"`, or with a `B`. The `int` comes as the
`int64_t` that `%d` reads. -/
def threadCall (letter : { c : Char // c = 'A' ∨ c = 'B' }) (i : Nat) : PrintfCall where
  format := CString.ofList (("Thread ".toList ++ letter.val :: ": %d\n".toList).map ascii)
    (by rcases letter with ⟨_, rfl | rfl⟩ <;> exact ne_zero_of_all (by decide))
  args := [.dec (Int64.ofNat i)]
  argsMatch := by rcases letter with ⟨_, rfl | rfl⟩ <;> rfl
  notPercent := by rcases letter with ⟨_, rfl | rfl⟩ <;> decide

/-- What a thread does on the line: calls of `serial_printf` with the lock held, bytes without
it, and waiting in IPC. -/
abbrev Prints := List (Piece PrintfCall UInt8)

/-- `thread_a`. -/
def threadA : Prints := (List.range 10).map fun i => .locked (threadCall ⟨'A', .inl rfl⟩ i)

/-- `thread_b`. -/
def threadB : Prints := (List.range 10).map fun i => .locked (threadCall ⟨'B', .inr rfl⟩ i)

/-- The variables of the two threads of the echo service: the results of `bus_register` and
`bus_lookup` as `%d` reads them, and of the client's message what is in it up to the first zero,
before and after the service. -/
structure EchoTexts where
  registered : Int64
  found : Int64
  sent : CString
  reply : CString

/-- `echo_service`, behind `bus_register`. -/
def echoService (e : EchoTexts) : Prints :=
  if e.registered < 0 then
    (onLine ("Failed to register echo service\n".toList.map ascii)).map .plain
  else
    [.locked
      { format := CString.ofList ("Echo service started on port %d\n".toList.map ascii)
          (ne_zero_of_all (by decide))
        args := [.dec e.registered]
        argsMatch := rfl
        notPercent := by decide },
     -- the loop
     .away]

/-- `echo_client`, behind `bus_lookup`. -/
def echoClient (e : EchoTexts) : Prints :=
  if e.found < 0 then
    (onLine ("Echo service not found!\n".toList.map ascii)).map .plain
  else
    [.locked
      { format := CString.ofList ("Client sending to port %d: %s\n".toList.map ascii)
          (ne_zero_of_all (by decide))
        args := [.dec e.found, .str (some e.sent)]
        argsMatch := rfl
        notPercent := by decide },
     -- ipc_send, ipc_recv
     .away,
     .away,
     .locked
      { format := CString.ofList ("Client received reply: %s\n".toList.map ascii)
          (ne_zero_of_all (by decide))
        args := [.str (some e.reply)]
        argsMatch := rfl
        notPercent := by decide }]

/-- The threads that take the lock. -/
inductive Printer where
  | threadA
  | threadB
  | echoService
  | echoClient
  deriving DecidableEq, Repr

def Printer.prints (e : EchoTexts) : Printer → Prints
  | threadA => Orchid.threadA
  | threadB => Orchid.threadB
  | echoService => Orchid.echoService e
  | echoClient => Orchid.echoClient e

/-! ## Runs -/

namespace SerialLine

/-- The line with the threads that print on it; their sections are their calls. -/
def Init (e : EchoTexts) : StatePred (Output Printer UInt8) :=
  Output.Init PrintfCall.bytes (Printer.prints e)

/-- In every run, with the threads' steps in any order and any bytes of others in between:
the bytes that the threads send with the lock held are whole lines and a part of one, and there is
a part only while the lock is held. Each thread's lines are the first of those it is to print, in
order, and each is what `serial_printf` prints. What a thread has sent, with the lock or without
it, and what it has left are all it is to print. A thread in front of a line can print it after
steps of the holder of the lock alone. -/
theorem serial_lines_whole {s : Output Printer UInt8} (e : EchoTexts)
    (h : Reachable (Init e) Output.Next s) :
    (∃ done part, Split (Printer.prints e) PrintfCall.bytes s done part ∧
      ∀ d ∈ done, ∀ junk, ∃ text, d.2.bytes = onLine text ∧
        StopsAtEnd (serialPrintf junk d.2.format.byte d.2.args) d.2.format text) ∧
    (∀ t, sentBy t s.items ++ left (s.todo t) = left (acts PrintfCall.bytes (t.prints e))) ∧
    ∀ t todo, s.todo t = .lock :: todo → ∃ u s₁ s₂ c ps,
      ReflTransGen (Output.Step u) s s₁ ∧ ReflTransGen (Output.Step t) s₁ s₂ ∧
      todo = closing (PrintfCall.bytes c) ++ acts PrintfCall.bytes ps ∧
      s₂.todo t = acts PrintfCall.bytes ps := by
  have hinv := inv_of_reachable h
  refine ⟨?_, kept_of_reachable h, fun t todo hat => hinv.served hat⟩
  rcases hinv.split with ⟨done, part, hsplit⟩
  exact ⟨done, part, hsplit, fun d _ junk => ⟨d.2.text, rfl, d.2.stopsAtEnd junk⟩⟩

/-- `thread_a` is in its first line when the client, without a port, prints; then `thread_b` can
print its first one. -/
theorem serial_lines_whole_unlocked : ∃ e s, Reachable (Init e) Output.Next s ∧
    s.items = [⟨some .threadA, true, ascii 'T'⟩, ⟨some .echoClient, false, ascii 'E'⟩] ∧
    ∃ u s₁ s₂ c ps, ReflTransGen (Output.Step u) s s₁ ∧
      ReflTransGen (Output.Step .threadB) s₁ s₂ ∧
      s.todo .threadB = .lock :: (closing (PrintfCall.bytes c) ++ acts PrintfCall.bytes ps) ∧
      s₂.todo .threadB = acts PrintfCall.bytes ps := by
  let e : EchoTexts :=
    ⟨0, -1, CString.ofList [] (ne_zero_of_all rfl), CString.ofList [] (ne_zero_of_all rfl)⟩
  have h₀ : Reachable (Init e) Output.Next
      ⟨false, fun t => acts PrintfCall.bytes (t.prints e), []⟩ := .init ⟨rfl, fun _ => rfl, rfl⟩
  have h₁ := h₀.step (.step .threadA (.act rfl fun _ => rfl))
  have h₂ := h₁.step (.step .threadA
    (@Output.Step.act _ _ _ _ _ (.put true (ascii 'T')) _ rfl nofun))
  have h₃ := h₂.step (.step .echoClient
    (@Output.Step.act _ _ _ _ _ (.put false (ascii 'E'))
      (acts PrintfCall.bytes (echoClient e)).tail rfl nofun))
  rcases (serial_lines_whole e h₃).2.2 .threadB _ rfl with
    ⟨u, s₁, s₂, c, ps, hrun, hrun', heq, hthen⟩
  exact ⟨e, _, h₃, rfl, u, s₁, s₂, c, ps, hrun, hrun', congrArg _ heq, hthen⟩

end SerialLine

end Orchid
