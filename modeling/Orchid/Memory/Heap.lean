import Orchid.Core.LinkedList
import Orchid.Core.Tiling
import Orchid.Memory.Vmm

/-! # The kernel heap

A model of the heap in `kernel/vmm.c`. The heap lives in its own window of
virtual addresses, from `HEAP_START_VIRT` to `heap_end_virt`; `Heap.mem` are the
bytes of that window (a page of it is readable and writable once it has been
mapped). Block headers are 24 bytes in that memory: the size at offset 0, the
`int free` at 8, `next` at 16.

Pages for the window come from the free stack and are mapped in the kernel's
own page tables, so the functions also pass the machine's memory along. The
loops that follow `next` are cut off by `fuel`; a result of `none` means that
a loop was still running.
-/

namespace Orchid

open ByteMem LinkedList Tiling

/-- The static variables of the heap and its memory. -/
structure Heap where
  mem : ByteMem
  /-- `heap_head`; 0 is NULL. -/
  head : Nat
  /-- `heap_end_virt`. -/
  endVirt : Nat
  /-- `heap_initialized`. -/
  initialized : Bool

/-- `HEAP_START_VIRT`. -/
def heapStartVirt : Nat := 0xFFFFF00000000000

/-- `HEAP_INITIAL_PAGES`. -/
def heapInitialPages : Nat := 16

/-- `sizeof(heap_block_t)`. -/
def headerSize : Nat := 24

/-! ## Block headers -/

/-- `block->size`. -/
def blockSize (mem : ByteMem) (block : Nat) : Nat := read64 mem block
/-- The test `block->free`. -/
def BlockFree (mem : ByteMem) (block : Nat) : Prop := read32 mem (block + 8) ≠ 0
/-- `block->next`. -/
def blockNext (mem : ByteMem) (block : Nat) : Nat := read64 mem (block + 16)

instance (mem : ByteMem) (block : Nat) : Decidable (BlockFree mem block) :=
  inferInstanceAs (Decidable (_ ≠ _))

/-- `block->size = v`. -/
def setSize (mem : ByteMem) (block v : Nat) : ByteMem := write64 mem block v
/-- `block->free = v`. -/
def setFree (mem : ByteMem) (block v : Nat) : ByteMem := write32 mem (block + 8) v
/-- `block->next = v`. -/
def setNext (mem : ByteMem) (block v : Nat) : ByteMem := write64 mem (block + 16) v

/-- The three stores that make a header. -/
def setHeader (mem : ByteMem) (block size free next : Nat) : ByteMem :=
  setNext (setFree (setSize mem block size) block free) block next

/-- The link as the list loops test it. -/
def linkOf (mem : ByteMem) (block : Nat) : Option Nat :=
  if blockNext mem block = 0 then none else some (blockNext mem block)

/-! ## The functions -/

/-- The loop of `heap_init`, from page `i`, with `n` pages to go. -/
def heapInitLoop (pml4 i : Nat) : Nat → Nat → Vm → Nat × Vm
  | 0, endVirt, vm => (endVirt, vm)
  | n + 1, endVirt, vm =>
    let (phys, vm) := vm.allocPage
    if phys = 0 then (endVirt, vm) else
    let vm := vmmMap pml4 (heapStartVirt + i * pageSize) phys (vmmPresent ||| vmmWritable) vm
    heapInitLoop pml4 (i + 1) n (heapStartVirt + (i + 1) * pageSize) vm

/-- `heap_init`. -/
def heapInit (pml4 : Nat) (h : Heap) (vm : Vm) : Heap × Vm :=
  let (endVirt, vm) := heapInitLoop pml4 0 heapInitialPages h.endVirt vm
  ({ mem := setHeader h.mem heapStartVirt
       ((endVirt + 2 ^ 64 - heapStartVirt - headerSize) % 2 ^ 64) 1 0
     head := heapStartVirt
     endVirt := endVirt
     initialized := true }, vm)

/-- What `heap_expand_locked` does with the new page: enlarge the last block if
it is free and ends there, or link it to the new block. -/
def appendBlock (mem : ByteMem) (last newBlock : Nat) : ByteMem :=
  if BlockFree mem last ∧ last + headerSize + blockSize mem last = newBlock then
    setSize mem last (blockSize mem last + (headerSize + blockSize mem newBlock))
  else
    setNext mem last newBlock

/-- `heap_expand_locked`; the flag is its result. -/
def heapExpandLocked (pml4 fuel : Nat) (h : Heap) (vm : Vm) : Option (Bool × Heap × Vm) :=
  let (phys, vm) := vm.allocPage
  if phys = 0 then some (false, h, vm) else
  let vm := vmmMap pml4 h.endVirt phys (vmmPresent ||| vmmWritable) vm
  let newBlock := h.endVirt
  let mem := setHeader h.mem newBlock (pageSize - headerSize) 1 0
  let endVirt := h.endVirt + pageSize
  if h.head = 0 then
    some (true, { h with mem := mem, head := newBlock, endVirt := endVirt }, vm)
  else
    (walkTail (linkOf mem) fuel h.head).map fun last =>
      (true, { h with mem := appendBlock mem last newBlock, endVirt := endVirt }, vm)

/-- The inner loop of `kmalloc`: the first free block that is large enough.
`some none` is the end of the list. -/
def firstFit (mem : ByteMem) (size : Nat) : Nat → Nat → Option (Option Nat)
  | 0, _ => none
  | fuel + 1, curr =>
    if curr = 0 then some none
    else if BlockFree mem curr ∧ size ≤ blockSize mem curr then some (some curr)
    else firstFit mem size fuel (blockNext mem curr)

/-- What `kmalloc` does to the block it found: split it if the rest can hold a
header and 8 bytes, and mark it used. The sums are those of `size_t`. -/
def carve (mem : ByteMem) (curr size : Nat) : ByteMem :=
  let mem :=
    if (size + headerSize + 8) % 2 ^ 64 ≤ blockSize mem curr then
      let newBlock := (curr + headerSize + size) % 2 ^ 64
      let mem := setHeader mem newBlock
        ((blockSize mem curr + 2 * 2 ^ 64 - size - headerSize) % 2 ^ 64) 1 (blockNext mem curr)
      setNext (setSize mem curr size) curr newBlock
    else mem
  setFree mem curr 0

/-- The outer loop of `kmalloc`. -/
def kmallocLoop (pml4 walkFuel size : Nat) : Nat → Heap → Vm → Option (Nat × Heap × Vm)
  | 0, _, _ => none
  | fuel + 1, h, vm =>
    match firstFit h.mem size walkFuel h.head with
    | none => none
    | some (some curr) => some (curr + headerSize, { h with mem := carve h.mem curr size }, vm)
    | some none =>
      match heapExpandLocked pml4 walkFuel h vm with
      | none => none
      | some (false, h, vm) => some (0, h, vm)
      | some (true, h, vm) => kmallocLoop pml4 walkFuel size fuel h vm

/-- `(size + 7) & ~7` on 64 bits. -/
def roundUp (size : Nat) : Nat := (size + 7) % 2 ^ 64 &&& 0xFFFFFFFFFFFFFFF8

/-- `kmalloc`. -/
def kmalloc (pml4 fuel size : Nat) (h : Heap) (vm : Vm) : Option (Nat × Heap × Vm) :=
  let (h, vm) := if h.initialized then (h, vm) else heapInit pml4 h vm
  kmallocLoop pml4 fuel (roundUp size) fuel h vm

/-- The loop of `kfree` that looks for the block before `block`. -/
def findPrev (mem : ByteMem) (block : Nat) : Nat → Nat → Nat → Option Nat
  | 0, _, _ => none
  | fuel + 1, cur, prev =>
    if cur = 0 then some prev
    else if cur = block then some prev
    else findPrev mem block fuel (blockNext mem cur) cur

/-- The two stores of a merge: `block` takes over `next`, the block behind it. -/
def absorb (mem : ByteMem) (block next : Nat) : ByteMem :=
  let mem := setSize mem block (blockSize mem block + (headerSize + blockSize mem next))
  setNext mem block (blockNext mem next)

/-- The forward merge of `kfree`. -/
def mergeNext (mem : ByteMem) (block : Nat) : ByteMem :=
  let next := blockNext mem block
  if next ≠ 0 ∧ BlockFree mem next then absorb mem block next else mem

/-- The backward merge of `kfree`. -/
def mergePrev (mem : ByteMem) (prev block : Nat) : ByteMem :=
  if prev ≠ 0 ∧ BlockFree mem prev ∧ prev + headerSize + blockSize mem prev = block then
    absorb mem prev block
  else mem

/-- `kfree`. -/
def kfree (fuel ptr : Nat) (h : Heap) : Option Heap :=
  if ptr = 0 then some h else
  let block := ptr - headerSize
  let mem := mergeNext (setFree h.mem block 1) block
  (findPrev mem block fuel h.head 0).map fun prev =>
    { h with mem := mergePrev mem prev block }

end Orchid
