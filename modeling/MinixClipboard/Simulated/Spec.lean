import MinixClipboard.Driver.FreeSlots
import MinixClipboard.Simulated.Model

/-!
# What the simulated clipboard does

One closed form for each of its functions, at the states its callers leave it in: as for the driver,
they are not unfolded again after this file.
-/

namespace MinixClipboard

namespace Simulated

open Fallible
open Driver (toNat_ofNat_fin)

variable {s : Process} {i j : Fin bufMaxCount}

/-! ## Entries -/

/-- The state after an assignment to fields of entry `i`. -/
def update (s : Process) (i : Fin bufMaxCount) (f : Entry → Entry) : Process :=
  { s with entries := Function.update s.entries i (f (s.entries i)) }

/-- The state with another heap. -/
def withHeap (s : Process) (heap : CHeap) : Process := { s with heap := heap }

/-- The state with one id less on the stack. -/
def popped (s : Process) : Process := { s with availableEntries := s.availableEntries.pop }

theorem index_of_fin (i : Fin bufMaxCount) (s : Process) : index (i : ℕ) s = .ok (i, s) := by
  have hi := i.isLt
  rw [index, dif_pos (by omega)]
  simp only [Int.toNat_natCast, Fin.eta]
  rfl

theorem entry_of_fin (i : Fin bufMaxCount) (s : Process) :
    entry (i : ℕ) s = .ok (s.entries i, s) := by
  rw [entry, bind_ok (index_of_fin i s)]
  rfl

theorem modifyEntry_of_fin (i : Fin bufMaxCount) (f : Entry → Entry) (s : Process) :
    modifyEntry (i : ℕ) f s = .ok ((), update s i f) := by
  rw [modifyEntry, bind_ok (index_of_fin i s)]
  rfl

theorem busy_of_fin (i : Fin bufMaxCount) (s : Process) :
    busy (i : ℕ) s = .ok ((s.entries i).inUse == .used, s) := by
  rw [busy, bind_ok (entry_of_fin i s)]
  rfl

/-! ## The stack and the heap -/

theorem malloc_eq (choice : Option Addr) (size : UInt32) (s : Process) :
    malloc choice size s = .ok ((s.heap.malloc 0 choice size.toNat).1,
      withHeap s (s.heap.malloc 0 choice size.toNat).2) := rfl

theorem free_of_some {a : Addr} {heap : CHeap} (h : s.heap.free a = some heap) :
    free a s = .ok ((), withHeap s heap) := by
  rw [free, bind_ok (get_apply s), h]
  rfl

theorem store_eq {a : Addr} {src : List CChar} {size : UInt32} (hsize : size.toNat ≤ src.length) :
    store a src size s = match s.heap.store a (src.take size.toNat) with
      | some heap => .ok ((), withHeap s heap)
      | none => .error .pointer := by
  rw [store, if_neg (Nat.not_lt.mpr hsize)]
  refine (bind_ok (get_apply s) _).trans ?_
  cases s.heap.store a (src.take size.toNat) <;> rfl

theorem load_of_some {a : Addr} {dst bytes : List CChar} {size : UInt32}
    (hsize : size.toNat ≤ dst.length) (h : s.heap.load a size.toNat = some bytes) :
    load dst a size s = .ok (bytes ++ dst.drop size.toNat, s) := by
  rw [load, if_neg (Nat.not_lt.mpr hsize)]
  refine (bind_ok (get_apply s) _).trans ?_
  rw [h]
  rfl

/-! ## Using and deleting entries -/

/-- The state once a message is stored in entry `i`, with what has become of the heap. -/
def stored (s : Process) (i : Fin bufMaxCount) (m : WriteMsg) (a : Addr) (heap : CHeap) :
    Process :=
  withHeap (update s i fun _ ↦ ⟨m.bufferLen, a, m.decompressedLen, .used⟩) heap

/-- The state once entry `i` is deleted, with what has become of the heap. -/
def emptied (s : Process) (i : Fin bufMaxCount) (heap : CHeap) : Process :=
  update (withHeap s heap) i fun e ↦ { e with inUse := .empty }

/-- `use_entry`, of an empty entry. It faults if the copy goes to `NULL`. -/
theorem useEntry_eq {buffer : List CChar} {bufferLen : UInt32} {choice : Option Addr} {a : Addr}
    {heap₁ : CHeap} (hfree : (s.entries i).inUse = .empty) (hlen : bufferLen.toNat ≤ buffer.length)
    (hmalloc : s.heap.malloc 0 choice bufferLen.toNat = (a, heap₁)) :
    useEntry (UInt32.ofNat i) buffer bufferLen choice s
      = match heap₁.store a (buffer.take bufferLen.toNat) with
        | some heap => .ok ((), withHeap (update s i fun e ↦
          ⟨bufferLen, a, e.decompressedLen, .used⟩) heap)
        | none => .error .pointer := by
  have hm := malloc_eq choice bufferLen s
  rw [hmalloc] at hm
  rw [useEntry, toNat_ofNat_fin, bind_ok (busy_of_fin i s), hfree, if_neg (by decide)]
  refine (bind_ok hm _).trans ?_
  rw [bind_ok (modifyEntry_of_fin i _ _), bind_ok (entry_of_fin i _), bind_apply, store_eq hlen]
  simp only [update, withHeap, Function.update_self]
  cases heap₁.store a (buffer.take bufferLen.toNat) with
  | none => rfl
  | some heap =>
    dsimp only
    rw [bind_ok (modifyEntry_of_fin i _ _), modifyEntry_of_fin]
    simp only [update, Function.update_self, Function.update_idem]

theorem deleteEntry_eq {heap : CHeap} (hused : (s.entries i).inUse = .used)
    (hfree : s.heap.free (s.entries i).buffer = some heap) :
    deleteEntry (UInt32.ofNat i) s = .ok ((), emptied s i heap) := by
  rw [deleteEntry, toNat_ofNat_fin, bind_ok (busy_of_fin i s), hused, if_pos (by decide)]
  refine (bind_ok (entry_of_fin i s) _).trans ?_
  rw [bind_ok (free_of_some hfree), modifyEntry_of_fin]
  rfl

/-! ## Writing and reading -/

theorem clipboardWrite_of_isEmpty (hempty : s.availableEntries.isEmpty s.addr = true)
    (m : WriteMsg) (choice : Option Addr) : clipboardWrite m choice s = .ok (-1, s) := by
  rw [clipboardWrite, bind_ok (get_apply s), if_pos hempty]
  rfl

theorem clipboardWrite_eq {m : WriteMsg} {choice : Option Addr} {a : Addr} {heap₁ : CHeap}
    (hempty : s.availableEntries.isEmpty s.addr = false)
    (htop : s.availableEntries.top s.addr = .ok (UInt32.ofNat i))
    (hfree : (s.entries i).inUse = .empty) (hlen : m.bufferLen.toNat ≤ m.buffer.length)
    (hmalloc : s.heap.malloc 0 choice m.bufferLen.toNat = (a, heap₁)) :
    clipboardWrite m choice s = match heap₁.store a (m.buffer.take m.bufferLen.toNat) with
      | some heap => .ok ((UInt32.ofNat i).toInt32, stored (popped s) i m a heap)
      | none => .error .pointer := by
  have htop' : top s = .ok (UInt32.ofNat i, s) := by
    rw [top, bind_ok (get_apply s), lift_apply, htop]
  have hpop : pop s = .ok ((), popped s) := rfl
  have hint : (UInt32.ofNat i).toInt32.toInt = (i : ℕ) := Driver.asInt_of_fin i
  rw [clipboardWrite, bind_ok (get_apply s), hempty, if_neg Bool.false_ne_true]
  refine (bind_ok htop' _).trans ?_
  rw [bind_ok hpop, hint, bind_ok (busy_of_fin i _)]
  have hbusy : ((popped s).entries i).inUse = .empty := hfree
  rw [hbusy, if_neg (by decide), UInt32.toUInt32_toInt32]
  refine (bind_apply _ _ _).trans ?_
  rw [useEntry_eq hbusy hlen hmalloc]
  cases heap₁.store a (m.buffer.take m.bufferLen.toNat) with
  | none => rfl
  | some heap =>
    dsimp only
    rw [bind_ok (modifyEntry_of_fin i _ _)]
    simp only [stored, update, withHeap, Function.update_self, Function.update_idem]
    rfl

theorem clipboardRead_of_empty {m : ReadMsg} (hid : m.id = UInt32.ofNat i)
    (hempty : (s.entries i).inUse = .empty) : clipboardRead m s = .ok ((-1, m.buffer), s) := by
  rw [clipboardRead, hid, toNat_ofNat_fin, bind_ok (busy_of_fin i s), hempty, if_pos (by decide)]
  rfl

theorem clipboardRead_of_lt {m : ReadMsg} (hid : m.id = UInt32.ofNat i)
    (hused : (s.entries i).inUse = .used) (hlt : m.bufferLen < (s.entries i).bufferLen) :
    clipboardRead m s = .ok ((-1, m.buffer), s) := by
  rw [clipboardRead, hid, toNat_ofNat_fin, bind_ok (busy_of_fin i s), hused, if_neg (by decide)]
  refine (bind_ok (entry_of_fin i s) _).trans ?_
  rw [if_pos hlt]
  rfl

theorem clipboardRead_eq {m : ReadMsg} {bytes : List CChar} {heap : CHeap}
    (hid : m.id = UInt32.ofNat i) (hused : (s.entries i).inUse = .used)
    (hle : (s.entries i).bufferLen ≤ m.bufferLen)
    (hroom : (s.entries i).bufferLen.toNat ≤ m.buffer.length)
    (hload : s.heap.load (s.entries i).buffer (s.entries i).bufferLen.toNat = some bytes)
    (hfree : s.heap.free (s.entries i).buffer = some heap) :
    clipboardRead m s = .ok ((0, bytes ++ m.buffer.drop (s.entries i).bufferLen.toNat),
      emptied s i heap) := by
  rw [clipboardRead, hid, toNat_ofNat_fin, bind_ok (busy_of_fin i s), hused, if_neg (by decide)]
  refine (bind_ok (entry_of_fin i s) _).trans ?_
  rw [if_neg (UInt32.not_lt.mpr hle)]
  refine (bind_ok (entry_of_fin i s) _).trans ?_
  rw [bind_ok (load_of_some hroom hload), bind_ok (deleteEntry_eq hused hfree)]
  rfl

/-! ## Copying and pasting -/

/-- The stack has an id to hand out, and its entry is empty. -/
structure FreeId (s : Process) (i : Fin bufMaxCount) : Prop where
  isEmpty : s.availableEntries.isEmpty s.addr = false
  top : s.availableEntries.top s.addr = .ok (UInt32.ofNat i)
  empty : (s.entries i).inUse = .empty

theorem freeId_of_holds {ids : List UInt32}
    (hids : Stack.Holds s.addr s.availableEntries (ids ++ [UInt32.ofNat i]))
    (hempty : (s.entries i).inUse = .empty) : FreeId s i where
  isEmpty := by
    rw [← Bool.not_eq_true, Stack.isEmpty_iff hids]
    simp
  top := Stack.top_spec hids
  empty := hempty

theorem freeId_initial {addr : Addr} (ha : Stack.Fits addr) : FreeId (initial addr) 99 := by
  have hids := Stack.init_spec ha
  rw [List.range_succ, List.map_append, List.map_singleton] at hids
  exact freeId_of_holds (i := 99) hids rfl

/-- The message `copy_to_clipboard` sends. -/
def copyMsg (buffer : List CChar) (bufferLen : UInt32) : WriteMsg :=
  ⟨buffer, bufferLen, expectedDecompressedSize (buffer.take bufferLen.toNat)⟩

section Copy

variable {buffer : List CChar} {bufferLen : UInt32} (hlen : bufferLen.toNat ≤ buffer.length)
include hlen

theorem copyToClipboard_eq_write (choice : Option Addr) :
    copyToClipboard choice buffer bufferLen s
      = clipboardWrite (copyMsg buffer bufferLen) choice s := by
  rw [copyToClipboard, if_neg (Nat.not_lt.mpr hlen)]
  rfl

/-- A copy that finds an id stores the bytes, or it faults, because they go to `NULL`. -/
theorem copyToClipboard_of_freeId (hfree : FreeId s i) (hnull : s.heap 0 = none)
    (choice : Option Addr) :
    (∃ a heap, copyToClipboard choice buffer bufferLen s = .ok ((UInt32.ofNat i).toInt32,
        stored (popped s) i (copyMsg buffer bufferLen) a heap) ∧
      s.heap.Places (buffer.take bufferLen.toNat) a heap ∧ (s.heap.Succeeds choice ↔ a ≠ 0)) ∨
    ¬s.heap.Succeeds choice ∧ bufferLen.toNat ≠ 0 ∧
      copyToClipboard choice buffer bufferLen s = .error .pointer := by
  have hbytes : (buffer.take bufferLen.toNat).length = bufferLen.toNat :=
    List.length_take_of_le hlen
  obtain ⟨a, heap₁, hmalloc⟩ : ∃ a heap₁, s.heap.malloc 0 choice bufferLen.toNat = (a, heap₁) :=
    ⟨_, _, rfl⟩
  have hwrite := clipboardWrite_eq (m := copyMsg buffer bufferLen) hfree.isEmpty hfree.top
    hfree.empty hlen hmalloc
  have hplace := Heap.store_malloc hnull 0 choice (buffer.take bufferLen.toNat)
  rw [hbytes, hmalloc] at hplace
  rw [copyToClipboard_eq_write hlen, hwrite]
  simp only [copyMsg]
  rcases hplace with ⟨heap, hstore, hplaces, hsucceeds⟩ | ⟨hfails, hne, hstore⟩
  · simp only [hstore]
    have ha : a = (s.heap.malloc 0 choice bufferLen.toNat).1 := by rw [hmalloc]
    exact Or.inl ⟨a, heap, rfl, hplaces, hsucceeds,
      fun hne ↦ Heap.succeeds_of_malloc_ne_zero (ha ▸ hne)⟩
  · simp only [hstore]
    exact Or.inr ⟨hfails, hne, trivial⟩

end Copy

theorem pasteFromClipboard_of_refused {bufferLen : UInt32}
    (hnot : (s.entries i).inUse = .used → bufferLen < (s.entries i).bufferLen)
    (buffer : List CChar) :
    pasteFromClipboard (UInt32.ofNat i) buffer bufferLen s
      = .ok ((-1, buffer, bufferLen), s) := by
  have hread : clipboardRead ⟨buffer, bufferLen, UInt32.ofNat i⟩ s = .ok ((-1, buffer), s) := by
    cases huse : (s.entries i).inUse with
    | empty => exact clipboardRead_of_empty rfl huse
    | used => exact clipboardRead_of_lt rfl huse (hnot huse)
  rw [pasteFromClipboard, bind_ok hread]
  rfl

/-- A paste takes an entry out that fits, and leaves the buffer behind it alone. -/
theorem pasteFromClipboard_of_le {buffer : List CChar} {bufferLen : UInt32}
    (hused : (s.entries i).inUse = .used) (hle : (s.entries i).bufferLen ≤ bufferLen)
    (hroom : (s.entries i).bufferLen.toNat ≤ buffer.length)
    (hlen : (s.heap.contents (s.entries i).buffer).length = (s.entries i).bufferLen.toNat)
    (hlive : (s.entries i).buffer ≠ 0 → (s.heap (s.entries i).buffer).isSome)
    (hnull : s.heap 0 = none) :
    ∃ heap, pasteFromClipboard (UInt32.ofNat i) buffer bufferLen s
        = .ok ((0, s.heap.contents (s.entries i).buffer
          ++ buffer.drop (s.entries i).bufferLen.toNat, bufferLen), emptied s i heap) ∧
      heap 0 = none ∧ ∀ b, b ≠ (s.entries i).buffer ∨ b = 0 → heap b = s.heap b := by
  obtain ⟨heap, hfree, hnull', hframe⟩ := Heap.free_spec hnull hlive
  have hload := Heap.load_contents (h := s.heap) (a := (s.entries i).buffer)
  rw [hlen] at hload
  have hread := clipboardRead_eq
    (m := ⟨buffer, bufferLen, UInt32.ofNat i⟩) rfl hused hle hroom hload
    hfree
  refine ⟨heap, ?_, hnull', hframe⟩
  rw [pasteFromClipboard, bind_ok hread]
  rfl

end Simulated

end MinixClipboard
