import MinixClipboard.Protocol
import MinixClipboard.Stack

/-!
# The driver

`bw386389.c` and `bw386389.h`: the entry table, the stack of free ids, and the functions that serve
the requests. The state is that of the driver process: the static `CLIPBOARD`, the address its
stack of free ids lies at, and the heap its entries point into.

Everything the environment decides is an argument: the address `malloc` returns, the outcome of a
copy between address spaces, and what the local variables hold before they are set.
-/

namespace MinixClipboard

/-- The values of `in_use`. -/
inductive InUse
  /-- `EMPTY` -/
  | empty
  /-- `USED` -/
  | used
  /-- `LOCKED` -/
  | locked
  deriving DecidableEq, Repr

/-- `struct Entry`. -/
structure Entry where
  bufferLen : UInt32
  decompressedLen : UInt32
  sourcePid : Int32
  lockingPid : Int32
  buffer : Addr
  inUse : InUse
  deriving DecidableEq, Repr

/-- `struct Clipboard`. -/
structure Clipboard where
  entries : Fin bufMaxCount → Entry
  availableEntries : Stack

/-- The state of the driver process. -/
structure Driver extends Clipboard where
  /-- Where `CLIPBOARD.available_entries` lies. -/
  addr : Addr
  heap : CHeap

/-- The functions of the driver: they read and change its state, or fault. -/
abbrev DriverM := StateT Driver (Except Fault)

namespace Driver

/-! ## The macros of the entry table -/

/-- The index of an access `entries[id]`. -/
def index (id : ℤ) : DriverM (Fin bufMaxCount) :=
  if h : 0 ≤ id ∧ id < bufMaxCount then pure ⟨id.toNat, toNat_lt_bufMaxCount h⟩
  else throw (.index id)

def entry (id : ℤ) : DriverM Entry := do
  let i ← index id
  return (← get).entries i

/-- An assignment to fields of `entry(id)`. -/
def modifyEntry (id : ℤ) (f : Entry → Entry) : DriverM Unit := do
  let i ← index id
  modify fun s ↦ { s with entries := Function.update s.entries i (f (s.entries i)) }

def slot (id : ℤ) : DriverM InUse := do return (← entry id).inUse

def busy (id : ℤ) : DriverM Bool := do return (← slot id) == .used

def locked (id : ℤ) : DriverM Bool := do return (← slot id) == .locked

def unlock (id : ℤ) : DriverM Unit := modifyEntry id fun e ↦ { e with inUse := .used }

def lockBy (id : ℤ) (pid : Int32) : DriverM Unit := do
  modifyEntry id fun e ↦ { e with inUse := .locked }
  modifyEntry id fun e ↦ { e with lockingPid := pid }

/-! ## The stack and the heap, as the driver calls them -/

/-- `push(value, &CLIPBOARD.available_entries)`. -/
def push (value : UInt32) : DriverM Unit := do
  let s ← get
  let stack ← s.availableEntries.push value s.addr
  set { s with availableEntries := stack }

/-- `top(&CLIPBOARD.available_entries)`. -/
def top : DriverM UInt32 := do
  let s ← get
  s.availableEntries.top s.addr

/-- `pop(&CLIPBOARD.available_entries)`. -/
def pop : DriverM Unit := modify fun s ↦ { s with availableEntries := s.availableEntries.pop }

/-- `malloc(size)`, when the allocator makes this choice. -/
def malloc (choice : Option Addr) (size : UInt32) : DriverM Addr := do
  let s ← get
  let (a, heap) := s.heap.malloc 0 choice size.toNat
  set { s with heap }
  return a

def free (a : Addr) : DriverM Unit := do
  let s ← get
  match s.heap.free a with
  | some heap => set { s with heap }
  | none => throw .pointer

/-- `memcpy` to the heap. -/
def store (a : Addr) (bytes : List CChar) : DriverM Unit := do
  let s ← get
  match s.heap.store a bytes with
  | some heap => set { s with heap }
  | none => throw .pointer

/-- `memcpy` from the heap. -/
def load (a : Addr) (size : UInt32) : DriverM (List CChar) := do
  let s ← get
  match s.heap.load a size.toNat with
  | some bytes => return bytes
  | none => throw .pointer

/-! ## The functions -/

def deleteEntry (id : UInt32) : DriverM Unit := do
  unless ← locked (asInt id) do throw .assertion
  push id
  free (← entry (asInt id)).buffer
  modifyEntry (asInt id) fun e ↦ { e with inUse := .empty }

/-- The loop of `get_lock_id`, with `n` ids from `id` on still to look at. -/
def getLockIdFrom (pid : Int32) : ℕ → ℤ → DriverM ℤ
  | 0, _ => return -1
  | n + 1, id => do
    if (← entry id).lockingPid == pid && (← locked id) then return id
    else getLockIdFrom pid n (id + 1)

def getLockId (pid : Int32) : DriverM ℤ := getLockIdFrom pid bufMaxCount 0

/-- `do_clipboard_real_set`. Nothing bounds `msg->buffer_len`, so the copy may go on behind the
message, and nothing looks at what `malloc` returned. -/
def doClipboardRealSet (id : ℤ) (msg : SetMsg) (choice : Option Addr) : DriverM Unit := do
  let a ← malloc choice msg.bufferLen
  modifyEntry id fun e ↦ { e with buffer := a }
  store (← entry id).buffer (msg.buffer.bytes msg.bufferLen.toNat)
  modifyEntry id fun e ↦ { e with bufferLen := msg.bufferLen }
  modifyEntry id fun e ↦ { e with decompressedLen := msg.decompressedLen }
  modifyEntry id fun e ↦ { e with sourcePid := msg.pid.toInt32 }
  modifyEntry id fun e ↦ { e with inUse := .used }

def doClipboardSet (msg : SetMsg) (choice : Option Addr) : DriverM ℤ := do
  let s ← get
  if s.availableEntries.isEmpty s.addr then return -1
  let id := asInt (← top)
  pop
  if (← busy id) || (← locked id) then return -1
  doClipboardRealSet id msg choice
  return id

/-- `do_clipboard_lock`. An older lock of the same process is given up before anything else is
looked at. -/
def doClipboardLock (msg : LockMsg) : DriverM ℤ := do
  let id ← getLockId msg.pid.toInt32
  if id ≥ 0 then unlock id
  let id := asInt msg.id
  if (← slot id) == .locked || !(← busy id) then return -1
  if msg.bufferLen < (← entry id).decompressedLen then return -1
  lockBy id msg.pid.toInt32
  return ok

/-- `do_clipboard_get`, with the message it leaves. -/
def doClipboardGet (msg : GetMsg) (pid : Int32) : DriverM (ℤ × GetMsg) := do
  let id ← getLockId pid
  if id < 0 then return (-1, msg)
  let bytes ← load (← entry id).buffer (← entry id).bufferLen
  let msg := { msg with buffer := msg.buffer.write bytes }
  let msg := { msg with decompressedLen := (← entry id).decompressedLen }
  let msg := { msg with bufferLen := (← entry id).bufferLen }
  deleteEntry (UInt32.ofInt id)
  return (ok, msg)

/-- The branch of `clipboard_read` that answers a PID query. -/
def pidQuery (size : UInt32) : DriverM ℤ := do
  let id := asInt (decodeId size)
  if !isCorrectId size then return -1
  else return (← entry id).sourcePid.toInt

/-- `clipboard_read`, for a local `msg` that holds this before the call and a `sys_safecopyto` that
has this result; with what the client's buffer receives, if anything. -/
def clipboardRead (size : UInt32) (msg : GetMsg) (copied : ℤ) : DriverM (ℤ × Option GetMsg) := do
  if isPidQuery size then return (← pidQuery size, none)
  let pid := (decodePid size).toInt32
  if pid < 0 then return (-1, none)
  let (res, msg) ← doClipboardGet msg pid
  -- `msg` is a local of this function: a longer copy has run over the rest of its frame
  if res == ok && msg.bufferLen.toNat > entryLenLimit then throw .frame
  -- `ret = do_clipboard_get(..) != OK` assigns the comparison
  let ret : ℤ := if res ≠ ok then 1 else 0
  if ret ≠ 0 then return (ret, none)
  if copied ≠ ok then return (copied, none)
  return (ok, some msg)

/-- `clipboard_write`, for a `sys_safecopyfrom` that has this result and leaves this in the local
`msg`. -/
def clipboardWrite (size : UInt32) (copied : ℤ) (msg : WriteMsg) (choice : Option Addr) :
    DriverM ℤ := do
  unless lockSize ≠ getSize do throw .assertion
  if size == lockSize || size == setSize then
    if copied ≠ ok then return copied
    if size == lockSize then doClipboardLock msg.lock
    else doClipboardSet msg.set choice
  else return -1

def clipboardInit (s : Driver) : Driver :=
  { s with
    availableEntries := Stack.init s.addr
    entries := fun i ↦ { s.entries i with inUse := .empty } }

/-- The process as it is loaded: zero-initialised statics and an empty heap. -/
def load₀ (addr : Addr) : Driver where
  entries _ := ⟨0, 0, 0, 0, 0, .empty⟩
  availableEntries := ⟨fun _ ↦ 0, 0⟩
  addr := addr
  heap _ := none

/-! ## Requests -/

/-- A request to one of the driver's functions. -/
inductive Request
  /-- `do_clipboard_set`, when the allocator makes this choice. -/
  | set (msg : SetMsg) (choice : Option Addr)
  /-- `do_clipboard_lock`. -/
  | lock (msg : LockMsg)
  /-- `do_clipboard_get`, into a message that holds this before the call. -/
  | get (pid : Int32) (msg : GetMsg)
  /-- A PID query, by its size. -/
  | query (size : UInt32)

/-- The answer to a request: a return value, and the message a get fills. -/
structure Reply where
  ret : ℤ
  msg : Option GetMsg

def serve : Request → DriverM Reply
  | .set msg choice => do return ⟨← doClipboardSet msg choice, none⟩
  | .lock msg => do return ⟨← doClipboardLock msg, none⟩
  | .get pid msg => do
    let (ret, msg) ← doClipboardGet msg pid
    return ⟨ret, some msg⟩
  | .query size => do return ⟨← pidQuery size, none⟩

/-- One served request as a step of the driver. A request that faults is no step: it ends the
driver. -/
def Serves (s : Driver) (l : Request × Reply) (s' : Driver) : Prop :=
  serve l.1 s = .ok (l.2, s')

/-- The state a served request leaves. A request that faults leaves none, and `s` stands in. -/
def after (req : Request) (s : Driver) : Driver :=
  match serve req s with
  | .ok (_, s') => s'
  | .error _ => s

def initial (addr : Addr) : Driver := clipboardInit (load₀ addr)

end Driver

end MinixClipboard
