import MinixClipboard.Digits
import MinixClipboard.Driver.Calls
import MinixClipboard.Library.Program

/-!
# The library functions

`copy_paste_clipboard.c`: what a process runs to copy and to paste. A library function is a program
over system calls, so that the same text can be run to its end by a process that has the device for
itself, or one system call at a time between those of others. What a local variable holds before it
is set is an argument, and what a function writes to its caller's buffer is part of its result.

The other half of this file is the kernel's: a read or a write of the device becomes a call of the
driver, with its length, and `check_if_ancestor` is answered from a fixed relation.
-/

namespace MinixClipboard

/-! ## The announced length -/

/-- `include_char`: the length and the counter it leaves. -/
def includeChar (len counter pos : UInt32) : UInt32 × UInt32 :=
  if counter == 0 && pos > 0 then (len + 1, counter) else (len + counter, 0)

/-- The loop of `expected_decompressed_size`, with these bytes still to read. -/
def expectedFrom : List CChar → UInt32 → UInt32 → UInt32 → UInt32
  | [], len, current, pos => (includeChar len current pos).1
  | c :: cs, len, current, pos =>
    if !isDigit c then
      let (len, current) := includeChar len current pos
      expectedFrom cs len current (pos + 1)
    else expectedFrom cs len (10 * current + c.toInt32.toUInt32 - 48) (pos + 1)

def expectedDecompressedSize (buffer : List CChar) : UInt32 := expectedFrom buffer 0 0 0

/-! ## System calls -/

/-- The system calls of the library functions. -/
inductive SysCall
  /-- `open("/dev/clipboard", ..)` -/
  | openDevice
  | close (fd : Int32)
  /-- `read`, with what its buffer holds before. -/
  | read (fd : Int32) (mg : GetMsg) (size : UInt32)
  | write (fd : Int32) (msg : WriteMsg) (size : UInt32)
  | checkIfAncestor (pid₁ pid₂ : Int32)
  | getpid

/-- What a system call returns. -/
abbrev SysCall.Answer : SysCall → Type
  | .openDevice => Int32
  | .close _ => Int32
  | .read _ _ _ => Int32 × GetMsg
  | .write _ _ _ => Int32
  | .checkIfAncestor _ _ => Bool
  | .getpid => Int32

/-- The programs of a client. -/
abbrev Client := Program SysCall SysCall.Answer

namespace Client

def openDevice : Client Int32 := Program.request SysCall.openDevice

def close (fd : Int32) : Client Int32 := Program.request (SysCall.close fd)

def read (fd : Int32) (mg : GetMsg) (size : UInt32) : Client (Int32 × GetMsg) :=
  Program.request (SysCall.read fd mg size)

def write (fd : Int32) (msg : WriteMsg) (size : UInt32) : Client Int32 :=
  Program.request (SysCall.write fd msg size)

def checkIfAncestor (pid₁ pid₂ : Int32) : Client Bool :=
  Program.request (SysCall.checkIfAncestor pid₁ pid₂)

def getpid : Client Int32 := Program.request SysCall.getpid

end Client

/-- What the locals of a library function hold before they are set. -/
structure Locals where
  mg : GetMsg
  buffer : Memory

/-- `memset(&mg, 0, GET_SIZE)`. -/
def GetMsg.zeroed (mg : GetMsg) : GetMsg :=
  ⟨0, 0, fun k ↦ if k < entryLenLimit then 0 else mg.buffer k⟩

open Client in
/-- `paste_from_clipboard`: its result and what it writes to `buffer`. -/
def pasteFromClipboard (id bufferLen : UInt32) (locals : Locals) :
    Client (UInt32 × List CChar) := do
  let fd ← openDevice
  if fd < 0 then return (-1, [])
  if id.toNat ≥ bufMaxCount then return (-1, [])
  let (sourcePid, mg) ← read fd locals.mg (encodeId id)
  if sourcePid < 0 then return (-1, [])
  let lockingPid ← getpid
  if !(← checkIfAncestor sourcePid lockingPid) then return (-1, [])
  let ml : LockMsg := ⟨lockingPid.toUInt32, id, bufferLen⟩
  let ret ← write fd (ml.toWrite locals.buffer) lockSize
  if ret < 0 then return (ret.toUInt32, [])
  let (ret, mg) ← read fd mg.zeroed (encodePid ml.pid)
  if ret < 0 then return (ret.toUInt32, [])
  let bytes := mg.buffer.bytes mg.bufferLen.toNat
  let _ ← close fd
  return (ret.toUInt32, bytes)

/-- The message `copy_to_clipboard` sends. -/
def copyMsg (pid : Int32) (buffer : Memory) (bufferLen : UInt32) (locals : Locals) : SetMsg where
  pid := pid.toUInt32
  bufferLen := bufferLen
  decompressedLen := expectedDecompressedSize (buffer.bytes bufferLen.toNat)
  buffer := locals.buffer.write (buffer.bytes bufferLen.toNat)

open Client in
def copyToClipboard (buffer : Memory) (bufferLen : UInt32) (locals : Locals) :
    Client UInt32 := do
  if bufferLen.toNat > entryLenLimit then return -1
  let fd ← openDevice
  if fd < 0 then return -1
  let pid ← getpid
  let ret ← write fd (copyMsg pid buffer bufferLen locals).toWrite setSize
  let _ ← close fd
  return ret.toUInt32

/-- A call of one of the library functions. -/
inductive LibCall
  | copy (buffer : Memory) (bufferLen : UInt32)
  | paste (id bufferLen : UInt32)

/-- What a library function returns, and writes to its caller's buffer. -/
inductive Result
  | copied (ret : UInt32)
  | pasted (ret : UInt32) (written : List CChar)
  deriving DecidableEq

/-- The program of a library call. -/
def LibCall.program (locals : Locals) : LibCall → Client Result
  | .copy buffer bufferLen => do
    return .copied (← copyToClipboard buffer bufferLen locals)
  | .paste id bufferLen => do
    let (ret, written) ← pasteFromClipboard id bufferLen locals
    return .pasted ret written

/-! ## The kernel -/

/-- What decides the answers to system calls besides the driver's state. -/
structure Env where
  /-- The descriptor `open` returns. -/
  fd : Int32
  /-- What the allocator does, if it is asked. -/
  choice : Option Addr
  /-- What the driver's local message holds before a get. -/
  reply : GetMsg
  /-- What lies in the driver's memory behind the message of a write. -/
  behind : Memory

/-- The driver's copy of a client's message. -/
def Env.copyFrom (env : Env) (msg : WriteMsg) : WriteMsg :=
  { msg with buffer := fun k ↦ if k < entryLenLimit then msg.buffer k else env.behind k }

/-- The client's copy of a driver's message. -/
def copyTo (out mg : GetMsg) : GetMsg :=
  { out with buffer := fun k ↦ if k < entryLenLimit then out.buffer k else mg.buffer k }

/-- How a process relates to the owner of an entry it may lock: `check_if_ancestor` counts a process
among its own ancestors. -/
def Permits (ancestor : Int32 → Int32 → Bool) (owner pid : Int32) : Prop :=
  owner = pid ∨ ancestor owner pid = true

instance (ancestor : Int32 → Int32 → Bool) (owner pid : Int32) :
    Decidable (Permits ancestor owner pid) :=
  inferInstanceAs (Decidable (owner = pid ∨ ancestor owner pid = true))

/-- The answer to a system call of process `pid`. Copies between address spaces succeed. -/
def handle (ancestor : Int32 → Int32 → Bool) (env : Env) (pid : Int32) :
    (op : SysCall) → DriverM op.Answer
  | .openDevice => return env.fd
  | .close _ => return (0 : Int32)
  | .read _ mg size => do
    let (ret, out) ← Driver.clipboardRead size env.reply ok
    return (Int32.ofInt ret, match out with
      | some out => copyTo out mg
      | none => mg)
  | .write _ msg size => do
    return Int32.ofInt (← Driver.clipboardWrite size ok (env.copyFrom msg) env.choice)
  | .checkIfAncestor pid₁ pid₂ => return decide (Permits ancestor pid₁ pid₂)
  | .getpid => return pid

end MinixClipboard
