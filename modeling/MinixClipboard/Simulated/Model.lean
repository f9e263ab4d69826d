import MinixClipboard.Client.Model
import MinixClipboard.Codec.Model

/-!
# The simulated clipboard

`clipboard.c` and `copy_paste_clipboard.c` of the codec's tests: the table and the stack of the
driver once more, without a device between them and the library. A write and a read are all there
is; a read takes an entry out at once, and nobody owns it. A deleted entry becomes empty, but its id
does not go back to the stack.

The arrays a caller passes are lists, and an access outside them is a fault, as for the codec.
-/

namespace MinixClipboard

namespace Simulated

/-- The values of `in_use`. -/
inductive InUse
  /-- `EMPTY` -/
  | empty
  /-- `USED` -/
  | used
  deriving DecidableEq, Repr

/-- `struct Entry`. -/
structure Entry where
  bufferLen : UInt32
  buffer : Addr
  decompressedLen : UInt32
  inUse : InUse
  deriving DecidableEq, Repr

/-- `struct Clipboard`. -/
structure Clipboard where
  entries : Fin bufMaxCount → Entry
  availableEntries : Stack

/-- The state of the process: the static `CLIPBOARD`, the address its stack lies at, and the heap.
-/
structure Process extends Clipboard where
  /-- Where `CLIPBOARD.available_entries` lies. -/
  addr : Addr
  heap : CHeap

/-- The functions of the simulated clipboard. -/
abbrev ProcessM := StateT Process (Except Fault)

/-! ## The macros of the entry table -/

/-- The index of an access `entries[id]`. -/
def index (id : ℤ) : ProcessM (Fin bufMaxCount) :=
  if h : 0 ≤ id ∧ id < bufMaxCount then pure ⟨id.toNat, toNat_lt_bufMaxCount h⟩
  else throw (.index id)

def entry (id : ℤ) : ProcessM Entry := do
  let i ← index id
  return (← get).entries i

/-- An assignment to fields of `entry(id)`. -/
def modifyEntry (id : ℤ) (f : Entry → Entry) : ProcessM Unit := do
  let i ← index id
  modify fun s ↦ { s with entries := Function.update s.entries i (f (s.entries i)) }

def busy (id : ℤ) : ProcessM Bool := do return (← entry id).inUse == .used

/-! ## The stack and the heap -/

/-- `top(&CLIPBOARD.available_entries)`. -/
def top : ProcessM UInt32 := do
  let s ← get
  s.availableEntries.top s.addr

/-- `pop(&CLIPBOARD.available_entries)`. -/
def pop : ProcessM Unit := modify fun s ↦ { s with availableEntries := s.availableEntries.pop }

/-- `malloc(size)`, when the allocator makes this choice. -/
def malloc (choice : Option Addr) (size : UInt32) : ProcessM Addr := do
  let s ← get
  let (a, heap) := s.heap.malloc 0 choice size.toNat
  set { s with heap }
  return a

def free (a : Addr) : ProcessM Unit := do
  let s ← get
  match s.heap.free a with
  | some heap => set { s with heap }
  | none => throw .pointer

/-- `memcpy` to the heap, from the array `src`. -/
def store (a : Addr) (src : List CChar) (size : UInt32) : ProcessM Unit := do
  if size.toNat > src.length then throw .pointer
  let s ← get
  match s.heap.store a (src.take size.toNat) with
  | some heap => set { s with heap }
  | none => throw .pointer

/-- `memcpy` from the heap, with what it makes of the array `dst`. -/
def load (dst : List CChar) (a : Addr) (size : UInt32) : ProcessM (List CChar) := do
  if size.toNat > dst.length then throw .pointer
  let s ← get
  match s.heap.load a size.toNat with
  | some bytes => return bytes ++ dst.drop size.toNat
  | none => throw .pointer

/-! ## `clipboard.c` -/

def useEntry (id : UInt32) (buffer : List CChar) (bufferLen : UInt32) (choice : Option Addr) :
    ProcessM Unit := do
  if ← busy id.toNat then throw .assertion
  let a ← malloc choice bufferLen
  modifyEntry id.toNat fun e ↦ { e with buffer := a }
  store (← entry id.toNat).buffer buffer bufferLen
  modifyEntry id.toNat fun e ↦ { e with bufferLen := bufferLen }
  modifyEntry id.toNat fun e ↦ { e with inUse := .used }

def deleteEntry (id : UInt32) : ProcessM Unit := do
  unless ← busy id.toNat do throw .assertion
  free (← entry id.toNat).buffer
  modifyEntry id.toNat fun e ↦ { e with inUse := .empty }

/-- `struct clipboard_write_msg`. -/
structure WriteMsg where
  buffer : List CChar
  bufferLen : UInt32
  decompressedLen : UInt32

def clipboardWrite (m : WriteMsg) (choice : Option Addr) : ProcessM Int32 := do
  let s ← get
  if s.availableEntries.isEmpty s.addr then return -1
  let id := (← top).toInt32
  pop
  if ← busy id.toInt then return -1
  useEntry id.toUInt32 m.buffer m.bufferLen choice
  modifyEntry id.toInt fun e ↦ { e with decompressedLen := m.decompressedLen }
  return id

/-- `struct clipboard_read_msg`. -/
structure ReadMsg where
  buffer : List CChar
  bufferLen : UInt32
  id : UInt32

/-- `clipboard_read`, with the `buffer` it leaves. -/
def clipboardRead (m : ReadMsg) : ProcessM (Int32 × List CChar) := do
  if !(← busy m.id.toNat) then return (-1, m.buffer)
  if m.bufferLen < (← entry m.id.toNat).bufferLen then return (-1, m.buffer)
  let e ← entry m.id.toNat
  let buffer ← load m.buffer e.buffer e.bufferLen
  deleteEntry m.id
  return (0, buffer)

def clipboardInit (s : Process) : Process :=
  { s with
    availableEntries := Stack.init s.addr
    entries := fun i ↦ { s.entries i with inUse := .empty } }

/-! ## `copy_paste_clipboard.c`

A message goes through `clipboard_ioctl`, which calls the function with the number of the request;
each of these two sends one of its two requests. -/

def copyToClipboard (choice : Option Addr) (buffer : List CChar) (bufferLen : UInt32) :
    ProcessM Int32 := do
  if bufferLen.toNat > buffer.length then throw .pointer
  clipboardWrite
    ⟨buffer, bufferLen, expectedDecompressedSize (buffer.take bufferLen.toNat)⟩ choice

/-- `paste_from_clipboard`, with the `buffer` and the `*buffer_len` it leaves. -/
def pasteFromClipboard (id : UInt32) (buffer : List CChar) (bufferLen : UInt32) :
    ProcessM (UInt32 × List CChar × UInt32) := do
  let (res, buffer) ← clipboardRead ⟨buffer, bufferLen, id⟩
  return (res.toUInt32, buffer, bufferLen)

/-- The process as it is loaded: zero-initialised statics and an empty heap. -/
def load₀ (addr : Addr) : Process where
  entries _ := ⟨0, 0, 0, .empty⟩
  availableEntries := ⟨fun _ ↦ 0, 0⟩
  addr := addr
  heap _ := none

def initial (addr : Addr) : Process := clipboardInit (load₀ addr)

end Simulated

end MinixClipboard
