import MinixClipboard.Fault

/-!
# The message protocol

`clipboard_protocol.h`. A client talks to the device in two ways: a `write` carries a message whose
kind is told by its length alone, and a `read` carries its whole request in its length.
-/

namespace MinixClipboard

abbrev ok : ℤ := 0

abbrev entryLenLimit : ℕ := 1024

abbrev bufMaxCount : ℕ := 100

theorem bufMaxCount_eq : bufMaxCount = 100 := rfl

theorem toNat_lt_bufMaxCount {id : ℤ} (h : 0 ≤ id ∧ id < bufMaxCount) : id.toNat < bufMaxCount := by
  omega

/-- `struct clipboard_lock_msg`. -/
structure LockMsg where
  pid : UInt32
  id : UInt32
  bufferLen : UInt32
  deriving DecidableEq, Repr

/-- `struct clipboard_get_msg`. The first `ENTRY_LEN_LIMIT` bytes of `buffer` are the message's; the
memory goes on behind them. -/
structure GetMsg where
  bufferLen : UInt32
  decompressedLen : UInt32
  buffer : Memory

/-- `struct clipboard_set_msg`. The first `ENTRY_LEN_LIMIT` bytes of `buffer` are the message's; the
memory goes on behind them. -/
structure SetMsg where
  pid : UInt32
  bufferLen : UInt32
  decompressedLen : UInt32
  buffer : Memory

/-- `struct clipboard_write_msg`: the union of the two messages a `write` can carry. Both begin with
three words, so the members overlap there. -/
structure WriteMsg where
  word₀ : UInt32
  word₁ : UInt32
  word₂ : UInt32
  buffer : Memory

def WriteMsg.lock (m : WriteMsg) : LockMsg := ⟨m.word₀, m.word₁, m.word₂⟩

def WriteMsg.set (m : WriteMsg) : SetMsg := ⟨m.word₀, m.word₁, m.word₂, m.buffer⟩

/-- The union a client fills through `u.lock`. -/
def LockMsg.toWrite (m : LockMsg) (buffer : Memory) : WriteMsg := ⟨m.pid, m.id, m.bufferLen, buffer⟩

/-- The union a client fills through `u.set`. -/
def SetMsg.toWrite (m : SetMsg) : WriteMsg := ⟨m.pid, m.bufferLen, m.decompressedLen, m.buffer⟩

/-- `LOCK_SIZE`, three words. -/
def lockSize : UInt32 := 12

/-- `GET_SIZE`, two words and the buffer. -/
def getSize : UInt32 := 1032

/-- `SET_SIZE`, three words and the buffer. -/
def setSize : UInt32 := 1036

def isPidQuery (size : UInt32) : Bool := size < getSize

/-- `IS_CORRECT_ID`. The macro tests the variable `size` of its call site, not its parameter. -/
def isCorrectId (size : UInt32) : Bool := size < 100

def encodeId (id : UInt32) : UInt32 := id

def decodeId (size : UInt32) : UInt32 := size

def encodePid (pid : UInt32) : UInt32 := getSize + pid

def decodePid (size : UInt32) : UInt32 := size - getSize

@[simp] theorem decodePid_encodePid (pid : UInt32) : decodePid (encodePid pid) = pid := by
  rw [decodePid, encodePid, UInt32.add_comm, UInt32.add_sub_cancel]

/-- A get request of a process is never mistaken for a query: process ids are positive `int`s. -/
theorem isPidQuery_encodePid {pid : UInt32} (hpid : pid.toNat < 2 ^ 31) :
    isPidQuery (encodePid pid) = false := by
  have hsize : (encodePid pid).toNat = 1032 + pid.toNat := by
    rw [encodePid, UInt32.toNat_add]
    change (1032 + pid.toNat) % 2 ^ 32 = _
    omega
  rw [isPidQuery, decide_eq_false_iff_not, UInt32.lt_iff_toNat_lt, hsize]
  change ¬1032 + pid.toNat < 1032
  omega

end MinixClipboard
