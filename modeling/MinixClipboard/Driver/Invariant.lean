import MinixClipboard.Driver.Spec
import Mathlib.Data.Fintype.Card

/-!
# The invariant of the driver

Three facts about a driver state, kept by every request that does not fault:

* `FreeIds`: the stack of free ids holds exactly the ids of the `EMPTY` slots, each once;
* `Buffers`: every other slot has a buffer of its own, with as many bytes as its length says;
* no process holds two locks.

The third is not proved of the driver but of the table it implements: `Driver.table` forgets the
stack, the heap and everything an `EMPTY` slot still carries, and every served request is a step of
that table (`serves_refines`). The stack in turn is what resolves the choice the table leaves open,
the id of a put.
-/

namespace MinixClipboard

namespace Driver

open Fallible

variable {s s' : Driver} {i j : Fin bufMaxCount}

/-! ## The table a driver implements -/

/-- What a slot that is not `EMPTY` stores. -/
structure Payload where
  sourcePid : Int32
  bufferLen : UInt32
  decompressedLen : UInt32
  buffer : Addr
  bytes : List CChar
  deriving DecidableEq, Repr

/-- What an entry stores, on this heap. -/
def payload (h : CHeap) (e : Entry) : Payload where
  sourcePid := e.sourcePid
  bufferLen := e.bufferLen
  decompressedLen := e.decompressedLen
  buffer := e.buffer
  bytes := h.contents e.buffer

theorem entry_ext {h h' : CHeap} {e e' : Entry} (hpay : payload h e = payload h' e')
    (hlock : e.lockingPid = e'.lockingPid) (huse : e.inUse = e'.inUse) : e = e' := by
  obtain ⟨len, dec, src, lock, buf, use⟩ := e
  obtain ⟨len', dec', src', lock', buf', use'⟩ := e'
  simp only [payload, Payload.mk.injEq] at hpay hlock huse
  obtain ⟨rfl, rfl, rfl, rfl, -⟩ := hpay
  rw [hlock, huse]

/-- The slot an entry stands for, on this heap. -/
def slotOf (h : CHeap) (e : Entry) : Option (Slot Int32 Payload) :=
  match e.inUse with
  | .empty => none
  | .used => some ⟨payload h e, none⟩
  | .locked => some ⟨payload h e, some e.lockingPid⟩

/-- The table of locked slots the driver implements. -/
def table (s : Driver) : LockTable (Fin bufMaxCount) Int32 Payload := fun i ↦
  slotOf s.heap (s.entries i)

theorem slotOf_eq_none_iff {h : CHeap} {e : Entry} : slotOf h e = none ↔ e.inUse = .empty := by
  rw [slotOf]
  cases e.inUse <;> simp

theorem table_eq_none_iff : s.table i = none ↔ (s.entries i).inUse = .empty := slotOf_eq_none_iff

theorem slotOf_of_used {h : CHeap} {e : Entry} (he : e.inUse = .used) :
    slotOf h e = some ⟨payload h e, none⟩ := by
  rw [slotOf, he]

theorem slotOf_of_locked {h : CHeap} {e : Entry} (he : e.inUse = .locked) :
    slotOf h e = some ⟨payload h e, some e.lockingPid⟩ := by
  rw [slotOf, he]

theorem slotOf_eq_some_none_iff {h : CHeap} {e : Entry} {v : Payload} :
    slotOf h e = some ⟨v, none⟩ ↔ e.inUse = .used ∧ payload h e = v := by
  rw [slotOf]
  cases e.inUse <;> simp

theorem slotOf_eq_some_some_iff {h : CHeap} {e : Entry} {v : Payload} {p : Int32} :
    slotOf h e = some ⟨v, some p⟩ ↔
      e.inUse = .locked ∧ e.lockingPid = p ∧ payload h e = v := by
  rw [slotOf]
  cases e.inUse <;> simp [and_comm]

/-- A slot depends on the heap only through the buffer of its entry. -/
theorem slotOf_congr {h h' : CHeap} {e : Entry}
    (hh : e.inUse ≠ .empty → h'.contents e.buffer = h.contents e.buffer) :
    slotOf h' e = slotOf h e := by
  rw [slotOf, slotOf]
  cases he : e.inUse with
  | empty => rfl
  | used => simp only [payload, hh (by simp [he])]
  | locked => simp only [payload, hh (by simp [he])]

theorem table_update (f : Entry → Entry) :
    (s.update i f).table = Function.update s.table i (slotOf s.heap (f (s.entries i))) := by
  funext j
  by_cases hji : j = i
  · subst hji
    rw [table, update_heap, update_entries_self, Function.update_self]
  · rw [table, update_heap, update_entries_of_ne hji, Function.update_of_ne hji, table]

/-! ## The parts of the invariant -/

def words (ids : List (Fin bufMaxCount)) : List UInt32 :=
  ids.map fun i : Fin bufMaxCount ↦ UInt32.ofNat i.val

/-- The stack of free ids holds the `EMPTY` slots, each once. -/
structure FreeIds (s : Driver) (ids : List (Fin bufMaxCount)) : Prop where
  holds : Stack.Holds s.addr s.availableEntries (words ids)
  nodup : ids.Nodup
  mem_iff : ∀ i, i ∈ ids ↔ (s.entries i).inUse = .empty

/-- Every slot that is not `EMPTY` has a buffer of its own. `NULL` is one, of length zero. -/
structure Buffers (s : Driver) : Prop where
  null : s.heap 0 = none
  live : ∀ i, (s.entries i).inUse ≠ .empty → (s.entries i).buffer ≠ 0 →
    (s.heap (s.entries i).buffer).isSome
  length : ∀ i, (s.entries i).inUse ≠ .empty →
    (s.heap.contents (s.entries i).buffer).length = (s.entries i).bufferLen.toNat
  apart : ∀ i j, (s.entries i).inUse ≠ .empty → (s.entries j).inUse ≠ .empty →
    (s.entries i).buffer = (s.entries j).buffer → (s.entries i).buffer ≠ 0 → i = j

/-- **The invariant of the driver.** -/
structure Inv (s : Driver) : Prop where
  fits : Stack.Fits s.addr
  free : ∃ ids, FreeIds s ids
  buffers : Buffers s
  exclusive : s.table.Exclusive

theorem words_append (ids : List (Fin bufMaxCount)) (i : Fin bufMaxCount) :
    words (ids ++ [i]) = words ids ++ [UInt32.ofNat i] := by
  rw [words, List.map_append, List.map_singleton, ← words]

@[simp] theorem length_words (ids : List (Fin bufMaxCount)) : (words ids).length = ids.length :=
  List.length_map _

/-! ## The stack of free ids -/

theorem FreeIds.isEmpty_iff {ids : List (Fin bufMaxCount)} (h : FreeIds s ids) :
    s.availableEntries.isEmpty s.addr = true ↔ ids = [] := by
  rw [Stack.isEmpty_iff h.holds, words, List.map_eq_nil_iff]

theorem FreeIds.eq_nil_iff {ids : List (Fin bufMaxCount)} (h : FreeIds s ids) :
    ids = [] ↔ ∀ i, (s.entries i).inUse ≠ .empty := by
  rw [List.eq_nil_iff_forall_not_mem]
  exact forall_congr' fun i ↦ not_congr (h.mem_iff i)

/-- As long as some slot is in use there is room for its id. -/
theorem FreeIds.length_lt {ids : List (Fin bufMaxCount)} (h : FreeIds s ids)
    (hi : (s.entries i).inUse ≠ .empty) : (words ids).length < stackSize := by
  have hnodup : (i :: ids).Nodup :=
    List.nodup_cons.mpr ⟨fun hmem ↦ hi ((h.mem_iff i).mp hmem), h.nodup⟩
  have hcard := hnodup.length_le_card
  rw [Fintype.card_fin, List.length_cons] at hcard
  rw [length_words]
  exact hcard

theorem FreeIds.of_inUse {ids : List (Fin bufMaxCount)} (h : FreeIds s ids)
    (haddr : s'.addr = s.addr) (hstack : s'.availableEntries = s.availableEntries)
    (huse : ∀ i, (s'.entries i).inUse = .empty ↔ (s.entries i).inUse = .empty) :
    FreeIds s' ids where
  holds := by rw [haddr, hstack]; exact h.holds
  nodup := h.nodup
  mem_iff i := (h.mem_iff i).trans (huse i).symm

theorem Buffers.of_entries (h : Buffers s) (hheap : s'.heap = s.heap)
    (huse : ∀ i, (s'.entries i).inUse = .empty ↔ (s.entries i).inUse = .empty)
    (hbuf : ∀ i, (s'.entries i).buffer = (s.entries i).buffer)
    (hlen : ∀ i, (s'.entries i).bufferLen = (s.entries i).bufferLen) : Buffers s' where
  null := by rw [hheap]; exact h.null
  live i hi := by rw [hbuf, hheap]; exact h.live i ((huse i).not.mp hi)
  length i hi := by rw [hbuf, hlen, hheap]; exact h.length i ((huse i).not.mp hi)
  apart i j hi hj := by
    rw [hbuf, hbuf]
    exact h.apart i j ((huse i).not.mp hi) ((huse j).not.mp hj)

/-! ## Giving up and taking a lock -/

theorem lock?_eq_some_of_table (hex : s.table.Exclusive) {p : Int32} {v : Payload}
    (hi : s.table i = some ⟨v, some p⟩) : s.lock? p = some i := by
  obtain ⟨huse, hpid, -⟩ := slotOf_eq_some_some_iff.mp hi
  cases h : s.lock? p with
  | none => exact absurd ⟨hpid, huse⟩ (lock?_eq_none_iff.mp h i)
  | some k =>
    obtain ⟨hpid', huse'⟩ := of_lock?_eq_some h
    exact congrArg some (hex (slotOf_eq_some_some_iff.mpr ⟨huse', hpid', rfl⟩) hi)

theorem table_of_lock?_eq_some {p : Int32} (h : s.lock? p = some i) :
    s.table i = some ⟨payload s.heap (s.entries i), some p⟩ := by
  obtain ⟨hpid, huse⟩ := of_lock?_eq_some h
  exact slotOf_eq_some_some_iff.mpr ⟨huse, hpid, rfl⟩

/-- Giving up the first lock found is giving up all there are. -/
theorem table_unlocked (hex : s.table.Exclusive) (p : Int32) :
    (s.unlocked p).table = LockTable.release p s.table := by
  funext j
  rw [LockTable.release]
  cases h : s.lock? p with
  | none =>
    rw [unlocked, h]
    cases hj : s.table j with
    | none => rw [Option.map_none]
    | some e =>
      obtain ⟨v, q⟩ := e
      have hne : q ≠ some p := by
        rintro rfl
        rw [lock?_eq_some_of_table hex hj] at h
        simp at h
      rw [Option.map_some, if_neg hne]
  | some i =>
    rw [unlocked, h, table_update]
    have hi := table_of_lock?_eq_some h
    by_cases hji : j = i
    · subst hji
      rw [Function.update_self, hi, Option.map_some, if_pos rfl]
      exact slotOf_of_used rfl
    · rw [Function.update_of_ne hji]
      cases hj : s.table j with
      | none => rfl
      | some e =>
        obtain ⟨v, q⟩ := e
        have hne : q ≠ some p := by
          rintro rfl
          exact hji (hex hj hi)
        rw [Option.map_some, if_neg hne]

/-- Apart from `in_use` and `locking_pid`, a lock request leaves every entry as it is. -/
structure SameButLocks (s s' : Driver) : Prop where
  addr : s'.addr = s.addr
  availableEntries : s'.availableEntries = s.availableEntries
  heap : s'.heap = s.heap
  empty_iff : ∀ i, (s'.entries i).inUse = .empty ↔ (s.entries i).inUse = .empty
  payload : ∀ h i, payload h (s'.entries i) = payload h (s.entries i)

theorem Inv.of_sameButLocks (hI : Inv s) (h : SameButLocks s s') (hex : s'.table.Exclusive) :
    Inv s' where
  fits := by rw [h.addr]; exact hI.fits
  free := hI.free.imp fun _ hids ↦ hids.of_inUse h.addr h.availableEntries h.empty_iff
  buffers := hI.buffers.of_entries h.heap h.empty_iff
    (fun i ↦ congrArg Payload.buffer (h.payload s.heap i))
    (fun i ↦ congrArg Payload.bufferLen (h.payload s.heap i))
  exclusive := hex

theorem sameButLocks_unlocked (s : Driver) (p : Int32) : SameButLocks s (s.unlocked p) where
  addr := unlocked_addr p
  availableEntries := unlocked_availableEntries p
  heap := unlocked_heap p
  empty_iff i := by
    rcases unlocked_entries (s := s) p i with h | ⟨hi, h⟩
    · rw [h]
    · rw [h, (of_lock?_eq_some hi).2]
      simp
  payload h i := by
    rcases unlocked_entries (s := s) p i with he | ⟨-, he⟩ <;> rw [he]; rfl

theorem sameButLocks_lockedAt {p : Int32} (hi : (s.entries i).inUse ≠ .empty) :
    SameButLocks s (s.lockedAt i p) where
  addr := rfl
  availableEntries := rfl
  heap := rfl
  empty_iff j := by
    by_cases hji : j = i
    · subst hji
      rw [lockedAt, update_entries_self]
      simp [hi]
    · rw [lockedAt, update_entries_of_ne hji]
  payload h j := by
    by_cases hji : j = i
    · subst hji
      rw [lockedAt, update_entries_self]
      rfl
    · rw [lockedAt, update_entries_of_ne hji]

theorem SameButLocks.trans {s'' : Driver} (h : SameButLocks s s') (h' : SameButLocks s' s'') :
    SameButLocks s s'' where
  addr := h'.addr.trans h.addr
  availableEntries := h'.availableEntries.trans h.availableEntries
  heap := h'.heap.trans h.heap
  empty_iff i := (h'.empty_iff i).trans (h.empty_iff i)
  payload g i := (h'.payload g i).trans (h.payload g i)

/-- **A lock request is a step of the table**: an acquire if it succeeds, and a release in any
case. -/
theorem doClipboardLock_refines (hI : Inv s) {msg : LockMsg} {r : ℤ}
    (hserve : doClipboardLock msg s = .ok (r, s')) :
    SameButLocks s s' ∧
      ((r = -1 ∧ s'.table = LockTable.release msg.pid.toInt32 s.table) ∨
        ∃ (i : Fin bufMaxCount) (v : Payload), r = ok ∧ msg.id.toNat = i ∧
          v.decompressedLen ≤ msg.bufferLen ∧
          LockTable.release msg.pid.toInt32 s.table i = some ⟨v, none⟩ ∧
          s'.table = Function.update (LockTable.release msg.pid.toInt32 s.table) i
            (some ⟨v, some msg.pid.toInt32⟩)) := by
  by_cases hid : msg.id.toNat < bufMaxCount
  · have hsame := sameButLocks_unlocked s msg.pid.toInt32
    have htable := table_unlocked hI.exclusive msg.pid.toInt32
    rw [doClipboardLock_eq msg hid] at hserve
    split at hserve
    · obtain ⟨rfl, rfl⟩ : ok = r ∧ _ = s' := by simpa using hserve
      rename_i hcond
      refine ⟨hsame.trans (sameButLocks_lockedAt (by simp [hcond.1])), Or.inr ⟨⟨_, hid⟩,
        payload (s.unlocked msg.pid.toInt32).heap ((s.unlocked msg.pid.toInt32).entries ⟨_, hid⟩),
        rfl, rfl, hcond.2, ?_, ?_⟩⟩
      · rw [← htable]
        exact slotOf_of_used hcond.1
      · rw [lockedAt, table_update, htable]
        exact congrArg _ (slotOf_of_locked rfl)
    · obtain ⟨rfl, rfl⟩ : -1 = r ∧ _ = s' := by simpa using hserve
      exact ⟨hsame, Or.inl ⟨rfl, htable⟩⟩
  · rw [doClipboardLock_of_le msg (Nat.not_lt.mp hid)] at hserve
    simp at hserve

/-! ## Taking an entry away -/

theorem Buffers.load (h : Buffers s) (hi : (s.entries i).inUse ≠ .empty) :
    s.heap.load (s.entries i).buffer (s.entries i).bufferLen.toNat
      = some (s.heap.contents (s.entries i).buffer) := by
  rw [← h.length i hi]
  exact Heap.load_contents

theorem Buffers.free (h : Buffers s) (hi : (s.entries i).inUse ≠ .empty) :
    ∃ heap, s.heap.free (s.entries i).buffer = some heap ∧ heap 0 = none ∧
      ∀ a, a ≠ (s.entries i).buffer ∨ a = 0 → heap a = s.heap a :=
  Heap.free_spec h.null (h.live i hi)

theorem FreeIds.emptied {ids : List (Fin bufMaxCount)} {stack : Stack} (h : FreeIds s ids)
    (huse : (s.entries i).inUse ≠ .empty) (hstack : Stack.Holds s.addr stack (words (ids ++ [i])))
    (heap : CHeap) : FreeIds (s.emptied i stack heap) (ids ++ [i]) := by
  refine ⟨hstack, ?_, fun j ↦ ?_⟩
  · rw [List.nodup_append]
    refine ⟨h.nodup, List.nodup_singleton i, ?_⟩
    rintro a ha b hb rfl
    rw [List.mem_singleton] at hb
    exact huse (hb ▸ (h.mem_iff a).mp ha)
  · rw [List.mem_append, List.mem_singleton]
    by_cases hji : j = i
    · subst hji
      simp [emptied_entries_self]
    · rw [emptied_entries_of_ne hji, h.mem_iff, or_iff_left hji]

/-- The other slots keep their buffers, since no two share one. -/
theorem Buffers.kept {heap : CHeap} (h : Buffers s) (hi : (s.entries i).inUse ≠ .empty)
    (hframe : ∀ a, a ≠ (s.entries i).buffer ∨ a = 0 → heap a = s.heap a) (hji : j ≠ i)
    (hj : (s.entries j).inUse ≠ .empty) :
    heap (s.entries j).buffer = s.heap (s.entries j).buffer := by
  refine hframe _ (Classical.or_iff_not_imp_right.mpr fun h₀ heq ↦ ?_)
  exact hji (h.apart j i hj hi heq h₀)

theorem Buffers.emptied {heap : CHeap} (h : Buffers s) (hi : (s.entries i).inUse ≠ .empty)
    (hnull : heap 0 = none) (hframe : ∀ a, a ≠ (s.entries i).buffer ∨ a = 0 → heap a = s.heap a)
    (stack : Stack) : Buffers (s.emptied i stack heap) := by
  have hne : ∀ j, ((s.emptied i stack heap).entries j).inUse ≠ .empty → j ≠ i := by
    rintro j hj rfl
    rw [emptied_entries_self] at hj
    exact hj rfl
  refine ⟨hnull, fun j hj h₀ ↦ ?_, fun j hj ↦ ?_, fun j k hj hk ↦ ?_⟩
  · have hji := hne j hj
    rw [emptied_entries_of_ne hji] at hj h₀ ⊢
    exact (congrArg Option.isSome (h.kept hi hframe hji hj)).trans (h.live j hj h₀)
  · have hji := hne j hj
    rw [emptied_entries_of_ne hji] at hj ⊢
    rw [← h.length j hj]
    exact congrArg (fun b : Option (List CChar) ↦ (b.getD []).length) (h.kept hi hframe hji hj)
  · have hji := hne j hj
    have hki := hne k hk
    rw [emptied_entries_of_ne hji] at hj ⊢
    rw [emptied_entries_of_ne hki] at hk ⊢
    exact h.apart j k hj hk

theorem table_emptied {heap : CHeap} (h : Buffers s) (hi : (s.entries i).inUse ≠ .empty)
    (hframe : ∀ a, a ≠ (s.entries i).buffer ∨ a = 0 → heap a = s.heap a) (stack : Stack) :
    (s.emptied i stack heap).table = Function.update s.table i none := by
  funext j
  by_cases hji : j = i
  · subst hji
    rw [Function.update_self, table_eq_none_iff, emptied_entries_self]
  · rw [Function.update_of_ne hji, table, emptied_entries_of_ne hji]
    refine slotOf_congr fun hj ↦ ?_
    exact congrArg (·.getD []) (h.kept hi hframe hji hj)

/-- What a get leaves, where it finds a lock. -/
structure Delivers (s : Driver) (i : Fin bufMaxCount) (s' : Driver) : Prop where
  inv : Inv s'
  table : s'.table = Function.update s.table i none
  entry : s'.entries i = { s.entries i with inUse := .empty }
  entries : ∀ j, j ≠ i → s'.entries j = s.entries j
  /-- The id goes to the top of the stack. -/
  free : ∀ ids, FreeIds s ids → FreeIds s' (ids ++ [i])

/-- **A get is a take of the table**, and never faults: the process holds an entry, whose buffer is
read and freed and whose id finds room on the stack, or it holds none. -/
theorem doClipboardGet_spec (hI : Inv s) (pid : Int32) (msg : GetMsg) :
    (s.lock? pid = none ∧ doClipboardGet msg pid s = .ok ((-1, msg), s)) ∨
    ∃ i s', s.lock? pid = some i ∧
      doClipboardGet msg pid s
        = .ok ((ok, filled msg (s.entries i) (s.heap.contents (s.entries i).buffer)), s') ∧
      Delivers s i s' := by
  cases hlock : s.lock? pid with
  | none => exact Or.inl ⟨rfl, doClipboardGet_of_none hlock msg⟩
  | some i =>
    have huse : (s.entries i).inUse ≠ .empty := by simp [(of_lock?_eq_some hlock).2]
    obtain ⟨ids, hids⟩ := hI.free
    obtain ⟨stack, hpush, -⟩ :=
      Stack.push_spec hI.fits hids.holds (hids.length_lt huse) (UInt32.ofNat i)
    obtain ⟨heap, hfree, hnull, hframe⟩ := hI.buffers.free huse
    have htable := table_emptied hI.buffers huse hframe stack
    have hfreeIds : ∀ ids, FreeIds s ids → FreeIds (s.emptied i stack heap) (ids ++ [i]) := by
      intro ids hids
      refine hids.emptied huse ?_ heap
      obtain ⟨stack', hpush', hholds⟩ :=
        Stack.push_spec hI.fits hids.holds (hids.length_lt huse) (UInt32.ofNat i)
      obtain rfl : stack = stack' := Except.ok.inj (hpush.symm.trans hpush')
      rw [words_append]
      exact hholds
    refine Or.inr ⟨i, s.emptied i stack heap, rfl, doClipboardGet_of_some hlock msg
      (hI.buffers.load huse) hpush hfree, ?_, htable, emptied_entries_self stack heap,
      fun j hji ↦ emptied_entries_of_ne hji stack heap, hfreeIds⟩
    refine ⟨hI.fits, ⟨_, hfreeIds ids hids⟩, hI.buffers.emptied huse hnull hframe stack, ?_⟩
    rw [htable]
    exact hI.exclusive.update (by simp)

/-! ## Storing an entry -/

theorem FreeIds.top {ids : List (Fin bufMaxCount)} (h : FreeIds s (ids ++ [i])) :
    s.availableEntries.top s.addr = .ok (UInt32.ofNat i) :=
  Stack.top_spec (by rw [← words_append]; exact h.holds)

/-- **A set of a driver with a free slot.** The id on top of the stack is that of an `EMPTY` slot,
so the slot is filled and its id returned: the test whether it is in use is made in vain. -/
theorem FreeIds.doClipboardSet_append {ids : List (Fin bufMaxCount)} (h : FreeIds s (ids ++ [i]))
    (msg : SetMsg) (choice : Option Addr) :
    doClipboardSet msg choice s
      = (do doClipboardRealSet (i : ℕ) msg choice; return ((i : ℕ) : ℤ))
          (s.withStack s.availableEntries.pop) := by
  have huse : (s.entries i).inUse = .empty := (h.mem_iff i).mp (by simp)
  rw [doClipboardSet, bind_ok (get_apply s), if_neg (by rw [h.isEmpty_iff]; simp),
    bind_ok (top_of_ok h.top), asInt_of_fin, bind_ok (pop_eq s), bind_ok (busy_of_fin i _),
    bind_ok (locked_of_fin i _), withStack_entries, huse, if_neg (by decide)]

/-- **A set of a full driver** fails and changes nothing. -/
theorem FreeIds.doClipboardSet_nil (h : FreeIds s []) (msg : SetMsg) (choice : Option Addr) :
    doClipboardSet msg choice s = .ok (-1, s) := by
  rw [doClipboardSet, bind_ok (get_apply s), if_pos (h.isEmpty_iff.mpr rfl)]
  rfl

/-- What a set stores, for the address `malloc` returned. -/
def setPayload (msg : SetMsg) (a : Addr) : Payload where
  sourcePid := msg.pid.toInt32
  bufferLen := msg.bufferLen
  decompressedLen := msg.decompressedLen
  buffer := a
  bytes := setBytes msg

@[simp] theorem length_setBytes (msg : SetMsg) : (setBytes msg).length = msg.bufferLen.toNat :=
  Memory.length_bytes ..

theorem payload_setEntry {heap : CHeap} {e : Entry} {msg : SetMsg} {a : Addr}
    (h : heap.contents a = setBytes msg) : payload heap (setEntry e msg a) = setPayload msg a := by
  rw [payload, setPayload]
  simp only [setEntry, h]

section Stored

variable {msg : SetMsg} {a : Addr} {heap : CHeap}

theorem FreeIds.stored {ids : List (Fin bufMaxCount)} (h : FreeIds s (ids ++ [i])) :
    FreeIds ((s.withStack s.availableEntries.pop).stored i msg a heap) ids := by
  have hnodup := List.nodup_append.mp h.nodup
  refine ⟨Stack.pop_spec (by rw [← words_append]; exact h.holds), hnodup.1, fun j ↦ ?_⟩
  by_cases hji : j = i
  · subst hji
    have hnot : j ∉ ids := fun hj ↦ hnodup.2.2 j hj j (List.mem_singleton_self j) rfl
    simp [stored_entries_self, setEntry, hnot]
  · rw [stored_entries_of_ne hji, withStack_entries, ← h.mem_iff, List.mem_append,
      List.mem_singleton, or_iff_left hji]

theorem Buffers.ne_placed (h : Buffers s) (hplace : s.heap.Places (setBytes msg) a heap)
    (hj : (s.entries j).inUse ≠ .empty) (h₀ : (s.entries j).buffer ≠ 0) :
    (s.entries j).buffer ≠ a := by
  rintro rfl
  have hlive := h.live j hj h₀
  rw [(hplace.fresh h₀).1] at hlive
  simp at hlive

theorem Buffers.kept_placed (h : Buffers s) (hplace : s.heap.Places (setBytes msg) a heap)
    (hj : (s.entries j).inUse ≠ .empty) :
    heap (s.entries j).buffer = s.heap (s.entries j).buffer := by
  by_cases h₀ : (s.entries j).buffer = 0
  · by_cases ha : a = 0
    · rw [hplace.same ha]
    · exact hplace.frame _ (by rw [h₀]; exact Ne.symm ha)
  · exact hplace.frame _ (h.ne_placed hplace hj h₀)

theorem Buffers.stored (h : Buffers s) (hplace : s.heap.Places (setBytes msg) a heap) :
    Buffers (s.stored i msg a heap) := by
  have hnull : heap 0 = none := by
    by_cases ha : a = 0
    · rw [hplace.same ha, h.null]
    · rw [hplace.frame 0 (Ne.symm ha), h.null]
  have hbuf := stored_entries_self (s := s) (i := i) msg a heap
  refine ⟨hnull, fun j hj h₀ ↦ ?_, fun j hj ↦ ?_, fun j k hj hk heq h₀ ↦ ?_⟩
  · by_cases hji : j = i
    · subst hji
      rw [hbuf] at h₀ ⊢
      exact (hplace.fresh h₀).2
    · rw [stored_entries_of_ne hji] at hj h₀ ⊢
      exact (congrArg Option.isSome (h.kept_placed hplace hj)).trans (h.live j hj h₀)
  · by_cases hji : j = i
    · subst hji
      rw [hbuf]
      exact (congrArg List.length hplace.contents).trans (length_setBytes msg)
    · rw [stored_entries_of_ne hji] at hj ⊢
      rw [← h.length j hj]
      exact congrArg (fun b : Option (List CChar) ↦ (b.getD []).length) (h.kept_placed hplace hj)
  · by_cases hji : j = i <;> by_cases hki : k = i
    · rw [hji, hki]
    · subst hji
      rw [hbuf] at heq h₀
      rw [stored_entries_of_ne hki] at hk heq
      exact absurd heq.symm (h.ne_placed hplace hk (heq ▸ h₀))
    · subst hki
      rw [hbuf] at heq
      rw [stored_entries_of_ne hji] at hj heq h₀
      exact absurd heq (h.ne_placed hplace hj h₀)
    · rw [stored_entries_of_ne hji] at hj heq h₀
      rw [stored_entries_of_ne hki] at hk heq
      exact h.apart j k hj hk heq h₀

theorem table_stored (h : Buffers s) (hplace : s.heap.Places (setBytes msg) a heap) :
    (s.stored i msg a heap).table
      = Function.update s.table i (some ⟨setPayload msg a, none⟩) := by
  funext j
  by_cases hji : j = i
  · subst hji
    rw [Function.update_self, table, stored_entries_self, slotOf_of_used rfl]
    exact congrArg (fun v ↦ some (Slot.mk v none)) (payload_setEntry hplace.contents)
  · rw [Function.update_of_ne hji, table, stored_entries_of_ne hji]
    exact slotOf_congr fun hj ↦ congrArg (·.getD []) (h.kept_placed hplace hj)

end Stored

/-- What a set leaves, where it finds the slot `i` free and its bytes are placed at `a`. -/
structure Accepts (s : Driver) (i : Fin bufMaxCount) (msg : SetMsg) (a : Addr) (s' : Driver) :
    Prop where
  inv : Inv s'
  table : s'.table = Function.update s.table i (some ⟨setPayload msg a, none⟩)
  entry : s'.entries i = setEntry (s.entries i) msg a
  entries : ∀ j, j ≠ i → s'.entries j = s.entries j

section Set

variable {msg : SetMsg} {choice : Option Addr} {a : Addr} {heap₁ heap : CHeap}
  {ids : List (Fin bufMaxCount)}

theorem accepts_stored (hI : Inv s) (h : FreeIds s (ids ++ [i]))
    (hplace : s.heap.Places (setBytes msg) a heap) :
    Accepts s i msg a ((s.withStack s.availableEntries.pop).stored i msg a heap) := by
  have htable := table_stored (i := i) hI.buffers hplace
  have hex : LockTable.Exclusive (Function.update s.table i (some ⟨setPayload msg a, none⟩)) :=
    hI.exclusive.update (by simp)
  refine ⟨⟨hI.fits, ⟨ids, h.stored⟩, ?_, ?_⟩, htable, stored_entries_self msg a heap,
    fun j hji ↦ stored_entries_of_ne hji msg a heap⟩
  · exact (hI.buffers.stored (i := i) hplace).of_entries rfl (fun _ ↦ Iff.rfl) (fun _ ↦ rfl)
      fun _ ↦ rfl
  · rw [← htable] at hex
    exact hex

theorem FreeIds.doClipboardSet_of_some (h : FreeIds s (ids ++ [i]))
    (hmalloc : s.heap.malloc 0 choice msg.bufferLen.toNat = (a, heap₁))
    (hstore : heap₁.store a (setBytes msg) = some heap) :
    doClipboardSet msg choice s
      = .ok ((i : ℕ), (s.withStack s.availableEntries.pop).stored i msg a heap) := by
  rw [h.doClipboardSet_append]
  have hset := doClipboardRealSet_of_some (s := s.withStack s.availableEntries.pop) (i := i)
    hmalloc hstore
  rw [bind_ok hset]
  rfl

theorem FreeIds.doClipboardSet_of_none (h : FreeIds s (ids ++ [i]))
    (hmalloc : s.heap.malloc 0 choice msg.bufferLen.toNat = (a, heap₁))
    (hstore : heap₁.store a (setBytes msg) = none) :
    doClipboardSet msg choice s = .error .pointer := by
  rw [h.doClipboardSet_append, bind_apply,
    doClipboardRealSet_of_none (s := s.withStack s.availableEntries.pop) hmalloc hstore]

/-- A set that returns has taken the id on top of the stack. -/
theorem FreeIds.of_set {r : ℤ} (h : FreeIds s (ids ++ [i]))
    (hset : doClipboardSet msg choice s = .ok (r, s')) :
    r = (i : ℕ) ∧ FreeIds s' ids ∧ s'.addr = s.addr := by
  obtain ⟨a, heap₁, hmalloc⟩ : ∃ a heap₁,
      s.heap.malloc 0 choice msg.bufferLen.toNat = (a, heap₁) := ⟨_, _, rfl⟩
  cases hstore : heap₁.store a (setBytes msg) with
  | none =>
    rw [h.doClipboardSet_of_none hmalloc hstore] at hset
    simp at hset
  | some heap =>
    rw [h.doClipboardSet_of_some hmalloc hstore] at hset
    obtain ⟨rfl, rfl⟩ := of_pure_ok hset
    exact ⟨rfl, h.stored, rfl⟩

end Set

/-- **A set is a put of the table** under the id on top of the stack, or the table is full. It
faults only where the allocation fails and there is something to copy. -/
theorem doClipboardSet_spec (hI : Inv s) (msg : SetMsg) (choice : Option Addr) :
    ((∀ i, (s.entries i).inUse ≠ .empty) ∧ doClipboardSet msg choice s = .ok (-1, s)) ∨
    ∃ i, (s.entries i).inUse = .empty ∧ s.availableEntries.top s.addr = .ok (UInt32.ofNat i) ∧
      ((∃ a s', doClipboardSet msg choice s = .ok ((i : ℕ), s') ∧ Accepts s i msg a s' ∧
          (s.heap.Succeeds choice → a ≠ 0)) ∨
        ¬s.heap.Succeeds choice ∧ msg.bufferLen ≠ 0 ∧
          doClipboardSet msg choice s = .error .pointer) := by
  obtain ⟨ids, hids⟩ := hI.free
  rcases List.eq_nil_or_concat' ids with rfl | ⟨ids, i, rfl⟩
  · exact Or.inl ⟨hids.eq_nil_iff.mp rfl, hids.doClipboardSet_nil msg choice⟩
  refine Or.inr ⟨i, (hids.mem_iff i).mp (by simp), hids.top, ?_⟩
  have hmalloc := Heap.store_malloc hI.buffers.null 0 choice (setBytes msg)
  rw [length_setBytes] at hmalloc
  rcases hmalloc with ⟨heap, hstore, hplace, hsucc⟩ | ⟨hfail, hlen, hstore⟩
  · exact Or.inl
      ⟨_, _, hids.doClipboardSet_of_some rfl hstore, accepts_stored hI hids hplace, hsucc⟩
  · refine Or.inr ⟨hfail, fun h₀ ↦ hlen ?_, hids.doClipboardSet_of_none rfl hstore⟩
    rw [h₀]
    rfl

end Driver

end MinixClipboard
