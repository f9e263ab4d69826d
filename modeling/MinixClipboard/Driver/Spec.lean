import MinixClipboard.Driver.Model
import MinixClipboard.Library.Fallible
import MinixClipboard.Library.LockTable
import Mathlib.Data.List.FinRange

/-!
# What each driver function does

One closed form for each function of the driver, at the states its callers leave it in. The
functions themselves are not unfolded again after this file.
-/

namespace MinixClipboard

namespace Driver

open Fallible

/-! ## Entries -/

/-- The state after an assignment to fields of entry `i`. -/
def update (s : Driver) (i : Fin bufMaxCount) (f : Entry → Entry) : Driver :=
  { s with entries := Function.update s.entries i (f (s.entries i)) }

variable {s : Driver} {i j : Fin bufMaxCount}

@[simp] theorem update_heap (f : Entry → Entry) : (s.update i f).heap = s.heap := rfl

@[simp] theorem update_addr (f : Entry → Entry) : (s.update i f).addr = s.addr := rfl

@[simp] theorem update_availableEntries (f : Entry → Entry) :
    (s.update i f).availableEntries = s.availableEntries := rfl

@[simp] theorem update_entries_self (f : Entry → Entry) :
    (s.update i f).entries i = f (s.entries i) := Function.update_self ..

theorem update_entries_of_ne (hji : j ≠ i) (f : Entry → Entry) :
    (s.update i f).entries j = s.entries j := Function.update_of_ne hji ..

theorem update_update (f g : Entry → Entry) :
    (s.update i f).update i g = s.update i (g ∘ f) := by
  rw [update, update, update]
  simp only [Function.update_self, Function.update_idem, Function.comp]

def withStack (s : Driver) (stack : Stack) : Driver := { s with availableEntries := stack }

def withHeap (s : Driver) (heap : CHeap) : Driver := { s with heap := heap }

@[simp] theorem withStack_entries (stack : Stack) : (s.withStack stack).entries = s.entries := rfl

@[simp] theorem withStack_availableEntries (stack : Stack) :
    (s.withStack stack).availableEntries = stack := rfl

@[simp] theorem withStack_addr (stack : Stack) : (s.withStack stack).addr = s.addr := rfl

@[simp] theorem withStack_heap (stack : Stack) : (s.withStack stack).heap = s.heap := rfl

@[simp] theorem withHeap_entries (heap : CHeap) : (s.withHeap heap).entries = s.entries := rfl

@[simp] theorem withHeap_availableEntries (heap : CHeap) :
    (s.withHeap heap).availableEntries = s.availableEntries := rfl

@[simp] theorem withHeap_addr (heap : CHeap) : (s.withHeap heap).addr = s.addr := rfl

@[simp] theorem withHeap_heap (heap : CHeap) : (s.withHeap heap).heap = heap := rfl

theorem index_of_fin (i : Fin bufMaxCount) (s : Driver) : index (i : ℕ) s = .ok (i, s) := by
  have hi := i.isLt
  rw [index, dif_pos (by omega)]
  simp only [Int.toNat_natCast, Fin.eta]
  rfl

theorem index_of_not {id : ℤ} (hid : ¬(0 ≤ id ∧ id < bufMaxCount)) (s : Driver) :
    index id s = .error (.index id) := by
  rw [index, dif_neg hid]
  rfl

theorem entry_of_fin (i : Fin bufMaxCount) (s : Driver) :
    entry (i : ℕ) s = .ok (s.entries i, s) := by
  rw [entry, bind_ok (index_of_fin i s)]
  rfl

theorem modifyEntry_of_fin (i : Fin bufMaxCount) (f : Entry → Entry) (s : Driver) :
    modifyEntry (i : ℕ) f s = .ok ((), s.update i f) := by
  rw [modifyEntry, bind_ok (index_of_fin i s)]
  rfl

theorem slot_of_fin (i : Fin bufMaxCount) (s : Driver) :
    slot (i : ℕ) s = .ok ((s.entries i).inUse, s) := by
  rw [slot, bind_ok (entry_of_fin i s)]
  rfl

theorem slot_of_not {id : ℤ} (hid : ¬(0 ≤ id ∧ id < bufMaxCount)) (s : Driver) :
    slot id s = .error (.index id) := by
  rw [slot, bind_apply, entry, bind_apply, index_of_not hid]

theorem busy_of_fin (i : Fin bufMaxCount) (s : Driver) :
    busy (i : ℕ) s = .ok ((s.entries i).inUse == .used, s) := by
  rw [busy, bind_ok (slot_of_fin i s)]
  rfl

theorem locked_of_fin (i : Fin bufMaxCount) (s : Driver) :
    locked (i : ℕ) s = .ok ((s.entries i).inUse == .locked, s) := by
  rw [locked, bind_ok (slot_of_fin i s)]
  rfl

/-! ## The stack and the heap -/

theorem push_of_ok {v : UInt32} {stack : Stack}
    (h : s.availableEntries.push v s.addr = .ok stack) :
    push v s = .ok ((), s.withStack stack) := by
  rw [push, bind_ok (get_apply s), bind_apply, lift_apply, h]
  rfl

theorem top_of_ok {v : UInt32} (h : s.availableEntries.top s.addr = .ok v) :
    top s = .ok (v, s) := by
  rw [top, bind_ok (get_apply s), lift_apply, h]

theorem pop_eq (s : Driver) : pop s = .ok ((), s.withStack s.availableEntries.pop) := rfl

theorem malloc_eq (choice : Option Addr) (size : UInt32) (s : Driver) :
    malloc choice size s = .ok ((s.heap.malloc 0 choice size.toNat).1,
      s.withHeap (s.heap.malloc 0 choice size.toNat).2) := rfl

theorem free_of_some {a : Addr} {heap : CHeap} (h : s.heap.free a = some heap) :
    free a s = .ok ((), s.withHeap heap) := by
  rw [free, bind_ok (get_apply s), h]
  rfl

theorem free_of_none {a : Addr} (h : s.heap.free a = none) : free a s = .error .pointer := by
  rw [free, bind_ok (get_apply s), h]
  rfl

theorem load_of_some {a : Addr} {size : UInt32} {bytes : List CChar}
    (h : s.heap.load a size.toNat = some bytes) : load a size s = .ok (bytes, s) := by
  rw [load, bind_ok (get_apply s), h]
  rfl

theorem load_of_none {a : Addr} {size : UInt32} (h : s.heap.load a size.toNat = none) :
    load a size s = .error .pointer := by
  rw [load, bind_ok (get_apply s), h]
  rfl

theorem store_of_some {a : Addr} {bytes : List CChar} {heap : CHeap}
    (h : s.heap.store a bytes = some heap) : store a bytes s = .ok ((), s.withHeap heap) := by
  rw [store, bind_ok (get_apply s), h]
  rfl

theorem store_of_none {a : Addr} {bytes : List CChar} (h : s.heap.store a bytes = none) :
    store a bytes s = .error .pointer := by
  rw [store, bind_ok (get_apply s), h]
  rfl

/-! ## The lock scan -/

/-- Whether entry `i` is locked by `pid`. -/
def lockedBy (s : Driver) (pid : Int32) (i : Fin bufMaxCount) : Bool :=
  (s.entries i).lockingPid == pid && (s.entries i).inUse == .locked

/-- The first entry locked by `pid`. -/
def lock? (s : Driver) (pid : Int32) : Option (Fin bufMaxCount) :=
  (List.finRange bufMaxCount).find? (s.lockedBy pid)

/-- The `int` that names an entry, or `-1` for none. -/
def idOf : Option (Fin bufMaxCount) → ℤ
  | some i => (i : ℕ)
  | none => -1

theorem lockedBy_iff {pid : Int32} :
    s.lockedBy pid i = true ↔ (s.entries i).lockingPid = pid ∧ (s.entries i).inUse = .locked := by
  rw [lockedBy, Bool.and_eq_true, beq_iff_eq, beq_iff_eq]

theorem getLockIdFrom_eq (pid : Int32) (s : Driver) : ∀ {n k : ℕ}, k + n = bufMaxCount →
    getLockIdFrom pid n k s
      = .ok (idOf (((List.finRange bufMaxCount).drop k).find? (s.lockedBy pid)), s) := by
  intro n
  induction n with
  | zero =>
    intro k hk
    rw [List.drop_eq_nil_of_le (by simp; omega)]
    rfl
  | succ n ih =>
    intro k hk
    have hlt : k < bufMaxCount := by omega
    have hdrop : (List.finRange bufMaxCount).drop k
        = ⟨k, hlt⟩ :: (List.finRange bufMaxCount).drop (k + 1) := by
      rw [List.drop_eq_getElem_cons (by simpa using hlt), List.getElem_finRange]
      rfl
    rw [getLockIdFrom, bind_ok (entry_of_fin ⟨k, hlt⟩ s), bind_ok (locked_of_fin ⟨k, hlt⟩ s), hdrop,
      List.find?_cons, ← lockedBy]
    cases s.lockedBy pid ⟨k, hlt⟩ with
    | true => rfl
    | false => exact ih (k := k + 1) (by omega)

theorem getLockId_eq (pid : Int32) (s : Driver) :
    getLockId pid s = .ok (idOf (s.lock? pid), s) :=
  getLockIdFrom_eq pid s (Nat.zero_add _)

theorem lock?_eq_none_iff {pid : Int32} :
    s.lock? pid = none ↔
      ∀ i, ¬((s.entries i).lockingPid = pid ∧ (s.entries i).inUse = .locked) := by
  simp only [lock?, List.find?_eq_none, List.mem_finRange, true_imp_iff, lockedBy_iff]

theorem of_lock?_eq_some {pid : Int32} (h : s.lock? pid = some i) :
    (s.entries i).lockingPid = pid ∧ (s.entries i).inUse = .locked :=
  lockedBy_iff.mp (List.find?_some h)

/-! ## Giving up a lock -/

/-- The state once the first lock of `pid` is given up. -/
def unlocked (s : Driver) (pid : Int32) : Driver :=
  match s.lock? pid with
  | some i => s.update i fun e ↦ { e with inUse := .used }
  | none => s

@[simp] theorem unlocked_heap (pid : Int32) : (s.unlocked pid).heap = s.heap := by
  rw [unlocked]; split <;> rfl

@[simp] theorem unlocked_addr (pid : Int32) : (s.unlocked pid).addr = s.addr := by
  rw [unlocked]; split <;> rfl

@[simp] theorem unlocked_availableEntries (pid : Int32) :
    (s.unlocked pid).availableEntries = s.availableEntries := by
  rw [unlocked]; split <;> rfl

theorem unlocked_entries (pid : Int32) (i : Fin bufMaxCount) :
    (s.unlocked pid).entries i = s.entries i ∨
      s.lock? pid = some i ∧
        (s.unlocked pid).entries i = { s.entries i with inUse := .used } := by
  rw [unlocked]
  cases h : s.lock? pid with
  | none => exact Or.inl rfl
  | some k =>
    by_cases hik : i = k
    · subst hik
      exact Or.inr ⟨rfl, update_entries_self _⟩
    · exact Or.inl (update_entries_of_ne hik _)

/-- The state once entry `i` is locked by `pid`. -/
def lockedAt (s : Driver) (i : Fin bufMaxCount) (pid : Int32) : Driver :=
  s.update i fun e ↦ { e with inUse := .locked, lockingPid := pid }

theorem lockBy_of_fin (i : Fin bufMaxCount) (pid : Int32) (s : Driver) :
    lockBy (i : ℕ) pid s = .ok ((), s.lockedAt i pid) := by
  rw [lockBy, bind_ok (modifyEntry_of_fin i _ s), modifyEntry_of_fin, update_update]
  rfl

/-! ## The functions -/

theorem asInt_of_fin (i : Fin bufMaxCount) : asInt (UInt32.ofNat i) = (i : ℕ) := by
  have hi : (i : ℕ) < 100 := i.isLt
  have hnat : (UInt32.ofNat i).toNat = i := UInt32.toNat_ofNat_of_lt' (by simp [UInt32.size]; omega)
  rw [asInt_of_lt (by omega), hnat]

theorem asInt_of_lt_count {id : UInt32} (hid : id.toNat < bufMaxCount) :
    asInt id = ((⟨id.toNat, hid⟩ : Fin bufMaxCount) : ℕ) :=
  asInt_of_lt (hid.trans (by decide))

/-- An id from `BUF_MAX_COUNT` on is no index, whatever the conversion to `int` makes of it. -/
theorem not_index_of_le {id : UInt32} (hid : bufMaxCount ≤ id.toNat) :
    ¬(0 ≤ asInt id ∧ asInt id < bufMaxCount) := by
  rw [asInt, Int32.toInt, UInt32.toBitVec_toInt32, BitVec.toInt_eq_toNat_cond,
    UInt32.toNat_toBitVec]
  have hlt := id.toNat_lt
  rw [bufMaxCount_eq] at hid ⊢
  split <;> omega

theorem unlock_bind {α : Type} (pid : Int32) (s : Driver) (f : Unit → DriverM α) :
    (if idOf (s.lock? pid) ≥ 0 then unlock (idOf (s.lock? pid)) >>= f else f ()) s
      = f () (s.unlocked pid) := by
  rw [unlocked]
  cases s.lock? pid with
  | none => rfl
  | some k =>
    rw [idOf, if_pos (Int.natCast_nonneg k), unlock]
    exact bind_ok (modifyEntry_of_fin k _ s) f

theorem doClipboardLock_eq (msg : LockMsg) (hid : msg.id.toNat < bufMaxCount) (s : Driver) :
    doClipboardLock msg s =
      if ((s.unlocked msg.pid.toInt32).entries ⟨msg.id.toNat, hid⟩).inUse = .used ∧
          ((s.unlocked msg.pid.toInt32).entries ⟨msg.id.toNat, hid⟩).decompressedLen
            ≤ msg.bufferLen then
        .ok (ok, (s.unlocked msg.pid.toInt32).lockedAt ⟨msg.id.toNat, hid⟩ msg.pid.toInt32)
      else .ok (-1, s.unlocked msg.pid.toInt32) := by
  rw [doClipboardLock, bind_ok (getLockId_eq _ _)]
  refine (unlock_bind _ _ _).trans ?_
  generalize s.unlocked msg.pid.toInt32 = s'
  generalize hi : (⟨msg.id.toNat, hid⟩ : Fin bufMaxCount) = i
  rw [asInt_of_lt_count hid, hi]
  simp only [bind_ok (slot_of_fin i s'), bind_ok (busy_of_fin i s')]
  cases hu : (s'.entries i).inUse with
  | empty => rfl
  | locked => rfl
  | used =>
    rw [if_neg (by decide), bind_ok (entry_of_fin i s')]
    simp only [true_and]
    by_cases hlen : msg.bufferLen < (s'.entries i).decompressedLen
    · rw [if_pos hlen, if_neg (UInt32.not_le.mpr hlen)]
      rfl
    · rw [if_neg hlen, if_pos (UInt32.not_lt.mp hlen), bind_ok (lockBy_of_fin i _ s')]
      rfl

/-- An id outside the table is not refused: the access to its slot is made. -/
theorem doClipboardLock_of_le (msg : LockMsg) (hid : bufMaxCount ≤ msg.id.toNat) (s : Driver) :
    doClipboardLock msg s = .error (.index (asInt msg.id)) := by
  rw [doClipboardLock, bind_ok (getLockId_eq _ _)]
  refine (unlock_bind _ _ _).trans ?_
  simp only [bind_apply, slot_of_not (not_index_of_le hid)]

/-! ### Get -/

/-- The message `do_clipboard_get` leaves, for an entry and the bytes of its buffer. -/
def filled (msg : GetMsg) (e : Entry) (bytes : List CChar) : GetMsg where
  bufferLen := e.bufferLen
  decompressedLen := e.decompressedLen
  buffer := msg.buffer.write bytes

/-- The state once entry `i` is emptied, with what has become of the stack and the heap. -/
def emptied (s : Driver) (i : Fin bufMaxCount) (stack : Stack) (heap : CHeap) : Driver :=
  ((s.update i fun e ↦ { e with inUse := .empty }).withStack stack).withHeap heap

theorem emptied_entries_self (stack : Stack) (heap : CHeap) :
    (s.emptied i stack heap).entries i = { s.entries i with inUse := .empty } := by
  rw [emptied, withHeap_entries, withStack_entries, update_entries_self]

theorem emptied_entries_of_ne (hji : j ≠ i) (stack : Stack) (heap : CHeap) :
    (s.emptied i stack heap).entries j = s.entries j := by
  rw [emptied, withHeap_entries, withStack_entries, update_entries_of_ne hji]

/-- `delete_entry`, for an entry whose buffer can be freed and a stack that has room. -/
theorem deleteEntry_eq {heap : CHeap} {stack : Stack} (hlock : (s.entries i).inUse = .locked)
    (hpush : s.availableEntries.push (UInt32.ofNat i) s.addr = .ok stack)
    (hfree : s.heap.free (s.entries i).buffer = some heap) :
    deleteEntry (UInt32.ofNat i) s = .ok ((), s.emptied i stack heap) := by
  have hfree' : (s.withStack stack).heap.free (s.entries i).buffer = some heap := hfree
  rw [deleteEntry, asInt_of_fin, bind_ok (locked_of_fin i s), hlock,
    if_pos (by decide)]
  simp only []
  rw [bind_ok (push_of_ok hpush), bind_ok (entry_of_fin i _)]
  exact (bind_ok (free_of_some hfree') _).trans (modifyEntry_of_fin i _ _)

theorem ofInt_natCast (n : ℕ) : UInt32.ofInt n = UInt32.ofNat n := by
  rw [UInt32.ofInt, ← UInt32.toNat_inj, UInt32.toNat_ofNat', UInt32.toNat_ofNat']
  omega

theorem doClipboardGet_of_none {pid : Int32} (h : s.lock? pid = none) (msg : GetMsg) :
    doClipboardGet msg pid s = .ok ((-1, msg), s) := by
  rw [doClipboardGet, bind_ok (getLockId_eq _ _), h]
  rfl

theorem doClipboardGet_of_some {pid : Int32} {heap : CHeap} {stack : Stack} {bytes : List CChar}
    (h : s.lock? pid = some i) (msg : GetMsg)
    (hload : s.heap.load (s.entries i).buffer (s.entries i).bufferLen.toNat = some bytes)
    (hpush : s.availableEntries.push (UInt32.ofNat i) s.addr = .ok stack)
    (hfree : s.heap.free (s.entries i).buffer = some heap) :
    doClipboardGet msg pid s =
      .ok ((ok, filled msg (s.entries i) bytes), s.emptied i stack heap) := by
  have hdelete := deleteEntry_eq (of_lock?_eq_some h).2 hpush hfree
  rw [doClipboardGet, bind_ok (getLockId_eq _ _), h, idOf, if_neg (by omega),
    bind_ok (entry_of_fin i s), bind_ok (entry_of_fin i s), bind_ok (load_of_some hload),
    bind_ok (entry_of_fin i s), bind_ok (entry_of_fin i s), ofInt_natCast, bind_ok hdelete]
  rfl

/-- A get faults where there is nothing to copy the bytes from, or nothing to free. -/
theorem doClipboardGet_of_fault {pid : Int32} {stack : Stack} (h : s.lock? pid = some i)
    (msg : GetMsg) (hpush : s.availableEntries.push (UInt32.ofNat i) s.addr = .ok stack)
    (hfault : s.heap.load (s.entries i).buffer (s.entries i).bufferLen.toNat = none ∨
      s.heap.free (s.entries i).buffer = none) :
    doClipboardGet msg pid s = .error .pointer := by
  have hlock := (of_lock?_eq_some h).2
  rw [doClipboardGet, bind_ok (getLockId_eq _ _), h, idOf, if_neg (by omega),
    bind_ok (entry_of_fin i s), bind_ok (entry_of_fin i s)]
  cases hload : s.heap.load (s.entries i).buffer (s.entries i).bufferLen.toNat with
  | none => rw [bind_error (load_of_none hload)]
  | some bytes =>
    have hfree : (s.withStack stack).heap.free (s.entries i).buffer = none := by
      rw [hload] at hfault
      exact hfault.resolve_left (by simp)
    have hdelete : deleteEntry (UInt32.ofNat i) s = .error .pointer := by
      rw [deleteEntry, asInt_of_fin, bind_ok (locked_of_fin i s), hlock, if_pos (by decide)]
      simp only []
      rw [bind_ok (push_of_ok hpush), bind_ok (entry_of_fin i _)]
      exact bind_error (free_of_none hfree) _
    rw [bind_ok (load_of_some hload), bind_ok (entry_of_fin i s), bind_ok (entry_of_fin i s),
      ofInt_natCast, bind_error hdelete]

/-! ### Set -/

/-- The entry `do_clipboard_real_set` leaves, for the address `malloc` returned. -/
def setEntry (e : Entry) (msg : SetMsg) (a : Addr) : Entry where
  bufferLen := msg.bufferLen
  decompressedLen := msg.decompressedLen
  sourcePid := msg.pid.toInt32
  lockingPid := e.lockingPid
  buffer := a
  inUse := .used

/-- The bytes a set message makes the driver copy. -/
def setBytes (msg : SetMsg) : List CChar := msg.buffer.bytes msg.bufferLen.toNat

/-- The state once the message is stored in entry `i`, with what has become of the heap. -/
def stored (s : Driver) (i : Fin bufMaxCount) (msg : SetMsg) (a : Addr) (heap : CHeap) : Driver :=
  (s.update i fun e ↦ setEntry e msg a).withHeap heap

theorem stored_entries_self (msg : SetMsg) (a : Addr) (heap : CHeap) :
    (s.stored i msg a heap).entries i = setEntry (s.entries i) msg a := by
  rw [stored, withHeap_entries, update_entries_self]

theorem stored_entries_of_ne (hji : j ≠ i) (msg : SetMsg) (a : Addr) (heap : CHeap) :
    (s.stored i msg a heap).entries j = s.entries j := by
  rw [stored, withHeap_entries, update_entries_of_ne hji]

theorem doClipboardRealSet_of_some {msg : SetMsg} {choice : Option Addr} {a : Addr}
    {heap₁ heap : CHeap} (hmalloc : s.heap.malloc 0 choice msg.bufferLen.toNat = (a, heap₁))
    (hstore : heap₁.store a (setBytes msg) = some heap) :
    doClipboardRealSet (i : ℕ) msg choice s = .ok ((), s.stored i msg a heap) := by
  have hm := malloc_eq choice msg.bufferLen s
  rw [hmalloc] at hm
  rw [doClipboardRealSet, bind_ok hm, bind_ok (modifyEntry_of_fin i _ _),
    bind_ok (entry_of_fin i _), update_entries_self]
  refine (bind_ok (store_of_some hstore) _).trans ?_
  rw [bind_ok (modifyEntry_of_fin i _ _), bind_ok (modifyEntry_of_fin i _ _),
    bind_ok (modifyEntry_of_fin i _ _), modifyEntry_of_fin]
  simp only [stored, update, withHeap, Function.update_self, Function.update_idem, setEntry]

theorem doClipboardRealSet_of_none {msg : SetMsg} {choice : Option Addr} {a : Addr}
    {heap₁ : CHeap} (hmalloc : s.heap.malloc 0 choice msg.bufferLen.toNat = (a, heap₁))
    (hstore : heap₁.store a (setBytes msg) = none) :
    doClipboardRealSet (i : ℕ) msg choice s = .error .pointer := by
  have hm := malloc_eq choice msg.bufferLen s
  rw [hmalloc] at hm
  rw [doClipboardRealSet, bind_ok hm, bind_ok (modifyEntry_of_fin i _ _),
    bind_ok (entry_of_fin i _), update_entries_self]
  refine (bind_apply _ _ _).trans ?_
  rw [store_of_none hstore]

end Driver

end MinixClipboard
