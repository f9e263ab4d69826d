import MinixClipboard.Driver.Locks
import MinixClipboard.Library.Layout

/-!
# Live update

When the driver is replaced by a new version, the old instance leaves its state with the data store
and the new one picks it up: the whole table under one name, as the bytes it consists of, and the
bytes of every entry in use under a name of their own. The pointers of the table mean nothing to the
new instance, and are replaced one by one; its stack of free ids ends with a pointer, too, and that
one is not.

Both sides run one loop over the ids. What a loop has done when it comes to an id is said by the set
of the entries it has dealt with (`done`), so that an `EMPTY` slot needs no argument at all. In
between there is only `Saved`. `liveUpdate_preserves` puts the two together; if the static variables
of the two versions lie at the same address, the invariant of the driver survives, and with it all
that has been proved from it (`Updated.inv`).
-/

namespace MinixClipboard

/-! ## The table as bytes -/

/-- The byte a number below `256` is stored as. -/
def CChar.ofNat (n : ℕ) : CChar := (UInt8.ofNat n).toInt8

/-- The number a byte stands for when it is part of a word. -/
def CChar.toNat (c : CChar) : ℕ := c.toUInt8.toNat

theorem CChar.toNat_ofNat {n : ℕ} (hn : n < 256) : CChar.toNat (CChar.ofNat n) = n := by
  rw [CChar.ofNat, CChar.toNat, UInt8.toUInt8_toInt8]
  exact UInt8.toNat_ofNat_of_lt' hn

def wordLayout : Layout CChar UInt32 where
  size := 4
  write w := Layout.digitsOf CChar.ofNat 256 4 w.toNat
  read bs := UInt32.ofNat (Layout.ofDigits CChar.toNat 256 bs)
  length_write w := Layout.length_digitsOf CChar.ofNat 256 4 w.toNat
  read_write w := by
    rw [Layout.ofDigits_digitsOf (by decide) fun d hd ↦ CChar.toNat_ofNat hd,
      Nat.mod_eq_of_lt (by exact w.toNat_lt), UInt32.ofNat_toNat]

def pidLayout : Layout CChar Int32 :=
  wordLayout.map Int32.toUInt32 UInt32.toInt32 Int32.toInt32_toUInt32

/-- The `char` of a flag. -/
def InUse.toChar : InUse → CChar
  | .empty => 0
  | .used => 1
  | .locked => 2

/-- The flag of a `char`. Those that are no flag are in no table a driver has written. -/
def InUse.ofChar (c : CChar) : InUse :=
  if c = 0 then .empty else if c = 1 then .used else .locked

def flagLayout : Layout CChar InUse where
  size := 1
  write u := [u.toChar]
  read bs := InUse.ofChar (bs.headD 0)
  length_write _ := rfl
  read_write u := by cases u <;> rfl

/-- `struct Entry`, in the order of its members. -/
def entryLayout : Layout CChar Entry :=
  (wordLayout.prod <| wordLayout.prod <| pidLayout.prod <| pidLayout.prod <| wordLayout.prod <|
    flagLayout.prod (Layout.padding 3 0)).map
    (fun e ↦ (e.bufferLen, e.decompressedLen, e.sourcePid, e.lockingPid, e.buffer, e.inUse, ()))
    (fun m ↦ ⟨m.1, m.2.1, m.2.2.1, m.2.2.2.1, m.2.2.2.2.1, m.2.2.2.2.2.1⟩) fun _ ↦ rfl

def stackLayout : Layout CChar Stack :=
  ((wordLayout.array stackSize).prod wordLayout).map (fun s ↦ (s.value, s.current))
    (fun m ↦ ⟨m.1, m.2⟩) fun _ ↦ rfl

def clipboardLayout : Layout CChar Clipboard :=
  ((entryLayout.array bufMaxCount).prod stackLayout).map (fun c ↦ (c.entries, c.availableEntries))
    (fun m ↦ ⟨m.1, m.2⟩) fun _ ↦ rfl

/-- `sizeof(clipboard_t)`. -/
example : clipboardLayout.size = 2804 := by
  simp [clipboardLayout, entryLayout, stackLayout, pidLayout, wordLayout, flagLayout, bufMaxCount,
    stackSize]

/-! ## The data store -/

/-- The data store, as far as a driver can see it: names and byte strings. -/
abbrev DataStore := String → Option (List CChar)

namespace Driver

open Fallible

/-- The functions of the driver that also use the data store. -/
abbrev StoreM := StateT DataStore DriverM

/-- `ds_publish_mem` with `DSF_OVERWRITE`. -/
def dsPublishMem (name : String) (bytes : List CChar) : StoreM Unit :=
  modify fun d ↦ Function.update d name (some bytes)

/-- `ds_retrieve_mem`: what is copied to a buffer of this size, if the name is known. -/
def dsRetrieveMem (name : String) (size : ℕ) : StoreM (Option (List CChar)) := do
  return ((← get) name).map (·.take size)

def dsDeleteMem (name : String) : StoreM Unit := modify fun d ↦ Function.update d name none

/-- What the data store copies out of the driver. It is refused bytes the driver does not own. -/
def dsCopyFrom (a : Addr) (size : UInt32) : DriverM (Option (List CChar)) := do
  return (← get).heap.load a size.toNat

/-- What the data store copies into the driver. A copy that is refused leaves the heap alone. -/
def dsCopyTo (a : Addr) (bytes : List CChar) : DriverM Unit :=
  modify fun s ↦ { s with heap := (s.heap.store a bytes).getD s.heap }

/-! ## Saving and restoring -/

/-- The `name` of a slot: `snprintf(name + 4, 12, "%d", i)` behind `"buf_"`. -/
def bufName (i : ℕ) : String := "buf_" ++ toString i

/-- The loop of `sef_cb_lu_state_save`, with `n` ids from `i` on still to look at. -/
def saveFrom : ℕ → ℕ → StoreM Unit
  | 0, _ => return
  | n + 1, i => do
    if (← slot i) ≠ .empty then
      match ← dsCopyFrom (← entry i).buffer (← entry i).bufferLen with
      | some bytes => dsPublishMem (bufName i) bytes
      | none => pure ()
      free (← entry i).buffer
    saveFrom n (i + 1)

def sefCbLuStateSave : StoreM ℤ := do
  let s ← (get : DriverM Driver)
  dsPublishMem "clipboard" (clipboardLayout.write s.toClipboard)
  saveFrom bufMaxCount 0
  return ok

/-- The loop of `lu_state_restore`, with `n` ids from `i` on still to look at, for an allocator that
makes these choices. -/
def restoreFrom (choice : ℕ → Option Addr) : ℕ → ℕ → StoreM Unit
  | 0, _ => return
  | n + 1, i => do
    if (← slot i) ≠ .empty then
      let a ← malloc (choice i) (← entry i).bufferLen
      modifyEntry i fun e ↦ { e with buffer := a }
      match ← dsRetrieveMem (bufName i) (← entry i).bufferLen.toNat with
      | some bytes => dsCopyTo (← entry i).buffer bytes
      | none => pure ()
      dsDeleteMem (bufName i)
    restoreFrom choice n (i + 1)

def luStateRestore (choice : ℕ → Option Addr) : StoreM ℤ := do
  match ← dsRetrieveMem "clipboard" clipboardLayout.size with
  | some bytes =>
    (modify fun s ↦ { s with toClipboard := clipboardLayout.overlay s.toClipboard bytes } :
      DriverM Unit)
  | none => pure ()
  dsDeleteMem "clipboard"
  restoreFrom choice bufMaxCount 0
  return ok

section Run

variable {α β : Type} {s s' : Driver} {d d' : DataStore}

theorem StoreM.bind_ok {x : StoreM α} {a : α} (hx : x d s = .ok ((a, d'), s'))
    (f : α → StoreM β) : (x >>= f) d s = f a d' s' :=
  Fallible.bind_ok hx fun p ↦ f p.1 p.2

theorem StoreM.lift_ok {x : DriverM α} {a : α} (hx : x s = .ok (a, s')) :
    (liftM x : StoreM α) d s = .ok ((a, d), s') :=
  Fallible.bind_ok hx fun a ↦ pure (a, d)

theorem dsPublishMem_apply (name : String) (bytes : List CChar) :
    dsPublishMem name bytes d s = .ok (((), Function.update d name (some bytes)), s) := rfl

theorem dsRetrieveMem_apply (name : String) (size : ℕ) :
    dsRetrieveMem name size d s = .ok (((d name).map (·.take size), d), s) := rfl

theorem dsDeleteMem_apply (name : String) :
    dsDeleteMem name d s = .ok (((), Function.update d name none), s) := rfl

theorem dsCopyFrom_apply (a : Addr) (size : UInt32) (s : Driver) :
    dsCopyFrom a size s = .ok (s.heap.load a size.toNat, s) := rfl

theorem dsCopyTo_apply (a : Addr) (bytes : List CChar) (s : Driver) :
    dsCopyTo a bytes s = .ok ((), s.withHeap ((s.heap.store a bytes).getD s.heap)) := rfl

end Run

/-! ## The names -/

theorem bufName_injective : Function.Injective bufName := by
  intro i j h
  have hdigits : Nat.toDigits 10 i = Nat.toDigits 10 j :=
    String.ofList_injective ((String.append_right_inj "buf_").mp h)
  rw [← Nat.ofDigitChars_ten_toDigits (n := i), hdigits, Nat.ofDigitChars_ten_toDigits]

theorem bufName_ne_clipboard (i : ℕ) : bufName i ≠ "clipboard" := by
  intro h
  have hchars : "buf_".toList ++ (toString i).toList = "clipboard".toList := by
    rw [← String.toList_append, ← bufName, h]
  simp at hchars

/-! ## The two loops -/

/-- The ids below `k` whose slot is not `EMPTY`: those a loop has done something for when it comes
to `k`. -/
def done (s : Driver) (k : ℕ) : Set (Fin bufMaxCount) :=
  {i | (i : ℕ) < k ∧ (s.entries i).inUse ≠ .empty}

section Loops

variable {s t s' : Driver} {d d' : DataStore} {choice : ℕ → Option Addr} {i : Fin bufMaxCount}
  {k n : ℕ} {ids : Set (Fin bufMaxCount)}

theorem done_zero (s : Driver) : s.done 0 = ∅ :=
  Set.eq_empty_of_forall_notMem fun _ hi ↦ absurd hi.1 (Nat.not_lt_zero _)

theorem mem_done : i ∈ s.done bufMaxCount ↔ (s.entries i).inUse ≠ .empty := and_iff_right i.isLt

theorem notMem_done : i ∉ s.done i := fun hi ↦ Nat.lt_irrefl _ hi.1

theorem done_succ (h : (s.entries i).inUse ≠ .empty) : s.done (i + 1) = insert i (s.done i) := by
  ext j
  rw [Set.mem_insert_iff, done, done, Set.mem_ofPred_eq, Set.mem_ofPred_eq,
    Nat.lt_succ_iff_lt_or_eq,
    ← Fin.ext_iff]
  constructor
  · rintro ⟨hlt | rfl, hne⟩
    · exact Or.inr ⟨hlt, hne⟩
    · exact Or.inl rfl
  · rintro (rfl | ⟨hlt, hne⟩)
    · exact ⟨Or.inr rfl, h⟩
    · exact ⟨Or.inl hlt, hne⟩

theorem done_succ_of_empty (h : (s.entries i).inUse = .empty) : s.done (i + 1) = s.done i := by
  ext j
  rw [done, done, Set.mem_ofPred_eq, Set.mem_ofPred_eq, Nat.lt_succ_iff_lt_or_eq, ← Fin.ext_iff]
  constructor
  · rintro ⟨hlt | rfl, hne⟩
    · exact ⟨hlt, hne⟩
    · exact absurd h hne
  · exact fun ⟨hlt, hne⟩ ↦ ⟨Or.inl hlt, hne⟩

theorem bufName_ne (hi : i ∉ ids) : ∀ j ∈ ids, bufName i ≠ bufName j := by
  rintro j hj hname
  exact hi (Fin.ext (bufName_injective hname) ▸ hj)

/-! ### Saving -/

/-- How far a save has come that has published and freed the entries `ids`. -/
structure Saving (s : Driver) (d : DataStore) (ids : Set (Fin bufMaxCount)) (s' : Driver)
    (d' : DataStore) : Prop where
  entries : s'.entries = s.entries
  null : s'.heap 0 = none
  heap : ∀ i, i ∉ ids → (s.entries i).inUse ≠ .empty →
    s'.heap (s.entries i).buffer = s.heap (s.entries i).buffer
  saved : ∀ i ∈ ids, d' (bufName i) = some (s.heap.contents (s.entries i).buffer)
  other : ∀ name, (∀ i ∈ ids, name ≠ bufName i) → d' name = d name

/-- The data store once entry `i` is published, if its bytes can be read. -/
def published (s : Driver) (d : DataStore) (i : Fin bufMaxCount) : DataStore :=
  match s.heap.load (s.entries i).buffer (s.entries i).bufferLen.toNat with
  | some bytes => Function.update d (bufName i) (some bytes)
  | none => d

theorem published_of_some {bytes : List CChar}
    (h : s.heap.load (s.entries i).buffer (s.entries i).bufferLen.toNat = some bytes) :
    s.published d i = Function.update d (bufName i) (some bytes) := by
  rw [published, h]

theorem published_of_ne {name : String} (h : name ≠ bufName i) : s.published d i name = d name := by
  rw [published]
  cases s.heap.load (s.entries i).buffer (s.entries i).bufferLen.toNat with
  | none => rfl
  | some bytes => exact Function.update_of_ne h ..

theorem saveFrom_of_ne (h : (s.entries i).inUse ≠ .empty) :
    saveFrom (n + 1) i d s
      = (do free (s.entries i).buffer; saveFrom n (i + 1) : StoreM Unit) (s.published d i) s := by
  have hentry := fun e ↦ StoreM.lift_ok (d := e) (entry_of_fin i s)
  rw [saveFrom, StoreM.bind_ok (StoreM.lift_ok (slot_of_fin i s)), if_pos h,
    StoreM.bind_ok (hentry d), StoreM.bind_ok (hentry d),
    StoreM.bind_ok (StoreM.lift_ok (dsCopyFrom_apply _ _ s)), published]
  cases s.heap.load (s.entries i).buffer (s.entries i).bufferLen.toNat with
  | none => exact StoreM.bind_ok (hentry d) _
  | some bytes =>
    exact (StoreM.bind_ok (dsPublishMem_apply _ _) _).trans (StoreM.bind_ok (hentry _) _)

theorem saveFrom_of_empty (h : (s.entries i).inUse = .empty) :
    saveFrom (n + 1) i d s = saveFrom n (i + 1) d s := by
  rw [saveFrom, StoreM.bind_ok (StoreM.lift_ok (slot_of_fin i s)), if_neg (not_not_intro h)]

theorem Saving.step (hB : Buffers s) (h : Saving s d ids s' d')
    (huse : (s.entries i).inUse ≠ .empty)
    (hi : i ∉ ids) :
    ∃ s'' d'', saveFrom (n + 1) i d' s' = saveFrom n (i + 1) d'' s'' ∧
      Saving s d (insert i ids) s'' d'' := by
  have hentry : s'.entries i = s.entries i := congrFun h.entries i
  have hheap := h.heap i hi huse
  have hcontents : s'.heap.contents (s.entries i).buffer = s.heap.contents (s.entries i).buffer :=
    congrArg (·.getD []) hheap
  obtain ⟨heap, hfree, hnull, hframe⟩ := Heap.free_spec (a := (s.entries i).buffer) h.null
    fun h₀ ↦ by rw [hheap]; exact hB.live i huse h₀
  -- the lengths agree, so `ds_publish_mem` gets the whole buffer
  have hload : s'.heap.load (s.entries i).buffer (s.entries i).bufferLen.toNat
      = some (s.heap.contents (s.entries i).buffer) := by
    rw [← hcontents, ← hB.length i huse, ← hcontents]
    exact Heap.load_contents
  have hmove := saveFrom_of_ne (s := s') (i := i) (d := d') (n := n) (by rwa [hentry])
  rw [published_of_some (by rw [hentry]; exact hload), hentry,
    StoreM.bind_ok (StoreM.lift_ok (free_of_some hfree))] at hmove
  refine ⟨_, _, hmove, h.entries, hnull, ?_, ?_, ?_⟩
  · -- the buffers of the others are none of those freed
    intro j hj hne
    rw [Set.mem_insert_iff, not_or] at hj
    rw [← h.heap j hj.2 hne]
    refine hframe _ (Classical.or_iff_not_imp_right.mpr fun h₀ heq ↦ ?_)
    exact hj.1 (hB.apart j i hne huse heq h₀)
  · intro j hj
    by_cases hji : j = i
    · rw [hji, Function.update_self]
    · rw [Function.update_of_ne fun hname ↦ hji (Fin.ext (bufName_injective hname))]
      exact h.saved j (Set.mem_of_mem_insert_of_ne hj hji)
  · intro name hname
    rw [Function.update_of_ne (hname i (Set.mem_insert i ids))]
    exact h.other name fun j hj ↦ hname j (Set.mem_insert_of_mem i hj)

theorem Saving.run (hB : Buffers s) (hk : k + n = bufMaxCount)
    (h : Saving s d (s.done k) s' d') :
    ∃ s'' d'', saveFrom n k d' s' = .ok (((), d''), s'') ∧
      Saving s d (s.done bufMaxCount) s'' d'' := by
  induction n generalizing k s' d' with
  | zero =>
    obtain rfl : k = bufMaxCount := hk
    exact ⟨s', d', rfl, h⟩
  | succ n ih =>
    have hk' : k + 1 + n = bufMaxCount := by omega
    obtain ⟨i, rfl⟩ : ∃ i : Fin bufMaxCount, (i : ℕ) = k := ⟨⟨k, by omega⟩, rfl⟩
    -- `EMPTY` slots are passed over, and are not among those done
    by_cases huse : (s.entries i).inUse = .empty
    · rw [saveFrom_of_empty ((congrArg Entry.inUse (congrFun h.entries i)).trans huse)]
      exact ih hk' (by rw [done_succ_of_empty huse]; exact h)
    · obtain ⟨s₁, d₁, hstep, h₁⟩ := h.step (n := n) hB huse notMem_done
      rw [hstep]
      exact ih hk' (by rw [done_succ huse]; exact h₁)

/-- **What a save leaves.** The table and every entry are published, and nothing else in the data
store changes. -/
structure Saved (s : Driver) (d : DataStore) (d' : DataStore) : Prop where
  clipboard : d' "clipboard" = some (clipboardLayout.write s.toClipboard)
  entry : ∀ i, (s.entries i).inUse ≠ .empty →
    d' (bufName i) = some (s.heap.contents (s.entries i).buffer)
  other : ∀ name, name ≠ "clipboard" →
    (∀ i : Fin bufMaxCount, (s.entries i).inUse ≠ .empty → name ≠ bufName i) → d' name = d name

theorem sefCbLuStateSave_spec (hI : Inv s) (d : DataStore) :
    ∃ s' d', sefCbLuStateSave d s = .ok ((ok, d'), s') ∧ Saved s d d' := by
  obtain ⟨d₁, hd₁⟩ : ∃ d₁, d₁ = Function.update d "clipboard"
      (some (clipboardLayout.write s.toClipboard)) := ⟨_, rfl⟩
  have hstart : Saving s d₁ (s.done 0) s d₁ := by
    rw [done_zero]
    exact ⟨rfl, hI.buffers.null, fun _ _ _ ↦ rfl, fun _ hi ↦ hi.elim, fun _ _ ↦ rfl⟩
  obtain ⟨s', d', hrun, h⟩ := hstart.run hI.buffers (Nat.zero_add _)
  refine ⟨s', d', ?_, ?_, fun i hi ↦ h.saved i (mem_done.mpr hi), fun name hne hname ↦ ?_⟩
  · rw [sefCbLuStateSave, StoreM.bind_ok (StoreM.lift_ok (get_apply s)),
      StoreM.bind_ok (dsPublishMem_apply _ _), ← hd₁, StoreM.bind_ok hrun]
    rfl
  · rw [h.other _ fun i _ ↦ (bufName_ne_clipboard i).symm, hd₁, Function.update_self]
  · rw [h.other name fun i hi ↦ hname i (mem_done.mp hi), hd₁, Function.update_of_ne hne]

/-! ### Restoring -/

/-- Every `malloc` of a restore succeeds: the addresses are not in use, and no two are the same. -/
structure Allocates (s : Driver) (h : CHeap) (choice : ℕ → Option Addr) : Prop where
  succeeds : ∀ i : Fin bufMaxCount, (s.entries i).inUse ≠ .empty → h.Succeeds (choice i)
  apart : ∀ i j : Fin bufMaxCount, (s.entries i).inUse ≠ .empty → (s.entries j).inUse ≠ .empty →
    choice i = choice j → i = j

theorem Allocates.ne_zero {h : CHeap} (hA : Allocates s h choice)
    (hi : (s.entries i).inUse ≠ .empty) : choice i ≠ some 0 := by
  obtain ⟨a, ha, ha₀, -⟩ := hA.succeeds i hi
  exact fun heq ↦ ha₀ (Option.some_inj.mp (ha.symm.trans heq))

/-- What a restore of `s` in the new instance `t` finds: the buffers of `s` in the data store `d`,
which holds its table no longer. -/
structure Source (s t : Driver) (d : DataStore) (choice : ℕ → Option Addr) : Prop where
  buffers : Buffers s
  null : t.heap 0 = none
  allocates : Allocates s t.heap choice
  saved : ∀ i, (s.entries i).inUse ≠ .empty →
    d (bufName i) = some (s.heap.contents (s.entries i).buffer)

/-- How far a restore has come that has new buffers for the entries `ids`. -/
structure Restoring (s t : Driver) (d : DataStore) (choice : ℕ → Option Addr)
    (ids : Set (Fin bufMaxCount)) (s' : Driver) (d' : DataStore) : Prop where
  availableEntries : s'.availableEntries = s.availableEntries
  addr : s'.addr = t.addr
  entry : ∀ i, s'.entries i = { s.entries i with buffer := (s'.entries i).buffer }
  placed : ∀ i ∈ ids, choice i = some (s'.entries i).buffer ∧
    s'.heap (s'.entries i).buffer = some (s.heap.contents (s.entries i).buffer)
  heap : ∀ a, (∀ i ∈ ids, choice i ≠ some a) → s'.heap a = t.heap a
  deleted : ∀ i ∈ ids, d' (bufName i) = none
  other : ∀ name, (∀ i ∈ ids, name ≠ bufName i) → d' name = d name

theorem restoreFrom_of_ne {bytes : List CChar} {a : Addr} {heap₁ heap : CHeap}
    (h : (s.entries i).inUse ≠ .empty) (hname : d (bufName i) = some bytes)
    (hlen : bytes.length = (s.entries i).bufferLen.toNat)
    (hmalloc : s.heap.malloc 0 (choice i) (s.entries i).bufferLen.toNat = (a, heap₁))
    (hstore : heap₁.store a bytes = some heap) :
    restoreFrom choice (n + 1) i d s
      = restoreFrom choice n (i + 1) (Function.update d (bufName i) none)
          ((s.update i fun e ↦ { e with buffer := a }).withHeap heap) := by
  have hm := malloc_eq (choice i) (s.entries i).bufferLen s
  rw [hmalloc] at hm
  have htake : bytes.take (s.entries i).bufferLen.toNat = bytes := by rw [← hlen, List.take_length]
  rw [restoreFrom, StoreM.bind_ok (StoreM.lift_ok (slot_of_fin i s)), if_pos h,
    StoreM.bind_ok (StoreM.lift_ok (entry_of_fin i s)), StoreM.bind_ok (StoreM.lift_ok hm),
    StoreM.bind_ok (StoreM.lift_ok (modifyEntry_of_fin i _ _)),
    StoreM.bind_ok (StoreM.lift_ok (entry_of_fin i _)), StoreM.bind_ok (dsRetrieveMem_apply _ _),
    hname, update_entries_self, withHeap_entries, Option.map_some, htake]
  simp only []
  rw [StoreM.bind_ok (StoreM.lift_ok (entry_of_fin i _)), update_entries_self]
  rw [StoreM.bind_ok (StoreM.lift_ok (dsCopyTo_apply a bytes _)), update_heap, withHeap_heap,
    hstore,
    StoreM.bind_ok (dsDeleteMem_apply _)]
  rfl

theorem restoreFrom_of_empty (h : (s.entries i).inUse = .empty) :
    restoreFrom choice (n + 1) i d s = restoreFrom choice n (i + 1) d s := by
  rw [restoreFrom, StoreM.bind_ok (StoreM.lift_ok (slot_of_fin i s)), if_neg (not_not_intro h)]

/-- One entry gets a new block with its bytes, and its name is deleted. -/
theorem Restoring.step (hsrc : Source s t d choice) (h : Restoring s t d choice ids s' d')
    (hids : ∀ j ∈ ids, (s.entries j).inUse ≠ .empty) (huse : (s.entries i).inUse ≠ .empty)
    (hi : i ∉ ids) :
    ∃ s'' d'', restoreFrom choice (n + 1) i d' s' = restoreFrom choice n (i + 1) d'' s'' ∧
      Restoring s t d choice (insert i ids) s'' d'' := by
  obtain ⟨a, hchoice, hfresh⟩ := hsrc.allocates.succeeds i huse
  have hapart : ∀ j ∈ ids, choice j ≠ some a := fun j hj heq ↦
    hi (hsrc.allocates.apart j i (hids j hj) huse (heq.trans hchoice.symm) ▸ hj)
  -- the address is fresh still
  have hfresh' : s'.heap.Fresh a := ⟨hfresh.1, (h.heap a hapart).trans hfresh.2⟩
  have huse' : (s'.entries i).inUse ≠ .empty := by rwa [h.entry i]
  have hlen : (s.heap.contents (s.entries i).buffer).length = (s'.entries i).bufferLen.toNat := by
    rw [h.entry i]
    exact hsrc.buffers.length i huse
  have hname : d' (bufName i) = some (s.heap.contents (s.entries i).buffer) :=
    (h.other _ (bufName_ne hi)).trans (hsrc.saved i huse)
  have hmalloc : s'.heap.malloc 0 (some a) (s'.entries i).bufferLen.toNat = _ :=
    Heap.malloc_of_fresh hfresh'
  have hstore := Heap.store_of_length_eq
    (h := Function.update s'.heap a (some (List.replicate (s'.entries i).bufferLen.toNat 0)))
    (Function.update_self ..) (hlen.trans List.length_replicate.symm)
  rw [← hchoice] at hmalloc
  rw [Function.update_idem] at hstore
  refine ⟨_, _, restoreFrom_of_ne huse' hname hlen hmalloc hstore, h.availableEntries, h.addr,
    fun j ↦ ?_, fun j hj ↦ ?_, fun b hb ↦ ?_, fun j hj ↦ ?_, fun name hname ↦ ?_⟩
  · by_cases hji : j = i
    · rw [hji, withHeap_entries, update_entries_self, h.entry i]
    · rw [withHeap_entries, update_entries_of_ne hji]
      exact h.entry j
  · by_cases hji : j = i
    · rw [hji, withHeap_entries, update_entries_self]
      exact ⟨hchoice, Function.update_self ..⟩
    · have hj' := Set.mem_of_mem_insert_of_ne hj hji
      rw [withHeap_entries, update_entries_of_ne hji]
      refine ⟨(h.placed j hj').1, (Function.update_of_ne ?_ ..).trans (h.placed j hj').2⟩
      exact fun heq ↦ hapart j hj' ((h.placed j hj').1.trans (congrArg some heq))
  · -- every other address is as it was, and was given to none of those before
    have hba : b ≠ a := fun heq ↦
      hb i (Set.mem_insert i ids) (hchoice.trans (congrArg some heq.symm))
    exact (Function.update_of_ne hba ..).trans
      (h.heap b fun j hj ↦ hb j (Set.mem_insert_of_mem i hj))
  · by_cases hji : j = i
    · rw [hji, Function.update_self]
    · rw [Function.update_of_ne fun hname ↦ hji (Fin.ext (bufName_injective hname))]
      exact h.deleted j (Set.mem_of_mem_insert_of_ne hj hji)
  · rw [Function.update_of_ne (hname i (Set.mem_insert i ids))]
    exact h.other name fun j hj ↦ hname j (Set.mem_insert_of_mem i hj)

theorem Restoring.run (hsrc : Source s t d choice) (hk : k + n = bufMaxCount)
    (h : Restoring s t d choice (s.done k) s' d') :
    ∃ s'' d'', restoreFrom choice n k d' s' = .ok (((), d''), s'') ∧
      Restoring s t d choice (s.done bufMaxCount) s'' d'' := by
  induction n generalizing k s' d' with
  | zero =>
    obtain rfl : k = bufMaxCount := hk
    exact ⟨s', d', rfl, h⟩
  | succ n ih =>
    have hk' : k + 1 + n = bufMaxCount := by omega
    obtain ⟨i, rfl⟩ : ∃ i : Fin bufMaxCount, (i : ℕ) = k := ⟨⟨k, by omega⟩, rfl⟩
    by_cases huse : (s.entries i).inUse = .empty
    · rw [restoreFrom_of_empty (by rw [h.entry i]; exact huse)]
      exact ih hk' (by rw [done_succ_of_empty huse]; exact h)
    · obtain ⟨s₁, d₁, hstep, h₁⟩ := h.step (n := n) hsrc (fun _ hj ↦ hj.2) huse notMem_done
      rw [hstep]
      exact ih hk' (by rw [done_succ huse]; exact h₁)

end Loops

/-! ## Live update -/

section Update

variable {s t : Driver} {d : DataStore} {choice : ℕ → Option Addr}

/-- **What a live update leaves** of the driver `s` and the data store `d`, in a new instance that
was `t`. -/
structure Updated (s t : Driver) (d : DataStore) (s' : Driver) (d' : DataStore) : Prop where
  /-- Every entry is as before, but for where its bytes lie. -/
  entry : ∀ i, s'.entries i = { s.entries i with buffer := (s'.entries i).buffer }
  /-- The bytes are there, as many as the length says, at an address that was not in use. -/
  bytes : ∀ i, (s.entries i).inUse ≠ .empty →
    s'.heap (s'.entries i).buffer = some (s.heap.contents (s.entries i).buffer) ∧
      (s.heap.contents (s.entries i).buffer).length = (s.entries i).bufferLen.toNat ∧
      t.heap.Fresh (s'.entries i).buffer
  apart : ∀ i j, (s.entries i).inUse ≠ .empty → (s.entries j).inUse ≠ .empty →
    (s'.entries i).buffer = (s'.entries j).buffer → i = j
  /-- The stack of free ids is copied, with the address it points to. -/
  availableEntries : s'.availableEntries = s.availableEntries
  addr : s'.addr = t.addr
  null : s'.heap 0 = none
  /-- The data store is cleaned up. -/
  deleted : d' "clipboard" = none ∧ ∀ i, (s.entries i).inUse ≠ .empty → d' (bufName i) = none
  other : ∀ name, name ≠ "clipboard" →
    (∀ i : Fin bufMaxCount, (s.entries i).inUse ≠ .empty → name ≠ bufName i) → d' name = d name

theorem luStateRestore_spec {d₁ : DataStore} (hI : Inv s) (hsaved : Saved s d d₁)
    (hnull : t.heap 0 = none) (hA : Allocates s t.heap choice) :
    ∃ s' d', luStateRestore choice d₁ t = .ok ((ok, d'), s') ∧ Updated s t d s' d' := by
  obtain ⟨d₂, hd₂⟩ : ∃ d₂, d₂ = Function.update d₁ "clipboard" none := ⟨_, rfl⟩
  have hsrc : Source s t d₂ choice := by
    refine ⟨hI.buffers, hnull, hA, fun i hi ↦ ?_⟩
    rw [hd₂, Function.update_of_ne (bufName_ne_clipboard i), hsaved.entry i hi]
  have hstart : Restoring s t d₂ choice (s.done 0) { t with toClipboard := s.toClipboard } d₂ := by
    rw [done_zero]
    exact ⟨rfl, rfl, fun _ ↦ rfl, fun _ hi ↦ hi.elim, fun _ _ ↦ rfl, fun _ hi ↦ hi.elim,
      fun _ _ ↦ rfl⟩
  obtain ⟨s', d', hrun, h⟩ := hstart.run hsrc (Nat.zero_add _)
  -- what is read is cut off at the size of the table, which is all of it
  have htake : (clipboardLayout.write s.toClipboard).take clipboardLayout.size
      = clipboardLayout.write s.toClipboard := by
    rw [← clipboardLayout.length_write s.toClipboard, List.take_length]
  refine ⟨s', d', ?_, h.entry, fun i hi ↦ ?_, fun i j hi hj heq ↦ ?_, h.availableEntries, h.addr,
    ?_, ⟨?_, fun i hi ↦ h.deleted i (mem_done.mpr hi)⟩, fun name hne hname ↦ ?_⟩
  · rw [luStateRestore, StoreM.bind_ok (dsRetrieveMem_apply _ _), hsaved.clipboard, Option.map_some,
      htake]
    simp only []
    rw [StoreM.bind_ok (StoreM.lift_ok (modify_apply _ t)), Layout.overlay_write,
      StoreM.bind_ok (dsDeleteMem_apply _), ← hd₂, StoreM.bind_ok hrun]
    rfl
  · obtain ⟨hchoice, hbytes⟩ := h.placed i (mem_done.mpr hi)
    obtain ⟨a, ha, hfresh⟩ := hA.succeeds i hi
    obtain rfl : a = (s'.entries i).buffer := Option.some_inj.mp (ha.symm.trans hchoice)
    exact ⟨hbytes, hI.buffers.length i hi, hfresh⟩
  · refine hA.apart i j hi hj ?_
    rw [(h.placed i (mem_done.mpr hi)).1, (h.placed j (mem_done.mpr hj)).1, heq]
  · exact (h.heap 0 fun i hi ↦ hA.ne_zero (mem_done.mp hi)).trans hnull
  · rw [h.other _ fun i _ ↦ (bufName_ne_clipboard i).symm, hd₂, Function.update_self]
  · rw [h.other name fun i hi ↦ hname i (mem_done.mp hi), hd₂, Function.update_of_ne hne,
      hsaved.other name hne hname]

/-- Where the two versions have their variables at one address, the new instance is as good as the
old one. -/
theorem Updated.inv {s' : Driver} {d' : DataStore} (hI : Inv s) (h : Updated s t d s' d')
    (haddr : t.addr = s.addr) : Inv s' := by
  have haddr' : s'.addr = s.addr := h.addr.trans haddr
  have hinUse : ∀ i, (s'.entries i).inUse = (s.entries i).inUse := fun i ↦ by rw [h.entry i]
  obtain ⟨ids, hids⟩ := hI.free
  refine ⟨by rw [haddr']; exact hI.fits, ⟨ids, ?_, hids.nodup, fun i ↦ ?_⟩,
    ⟨h.null, ?_, ?_, ?_⟩, ?_⟩
  · rw [haddr', h.availableEntries]
    exact hids.holds
  · rw [hids.mem_iff, hinUse]
  · intro i hi _
    rw [hinUse] at hi
    rw [(h.bytes i hi).1]
    rfl
  · intro i hi
    rw [hinUse] at hi
    rw [Heap.contents, (h.bytes i hi).1, Option.getD_some, (h.bytes i hi).2.1, h.entry i]
  · intro i j hi hj heq _
    rw [hinUse] at hi hj
    exact h.apart i j hi hj heq
  · -- a lock is in the table, which is copied, so the two entries are those of `s`
    intro i j p v w hi hj
    obtain ⟨hi₁, hi₂, -⟩ := slotOf_eq_some_some_iff.mp hi
    obtain ⟨hj₁, hj₂, -⟩ := slotOf_eq_some_some_iff.mp hj
    rw [h.entry i] at hi₁ hi₂
    rw [h.entry j] at hj₁ hj₂
    exact hI.exclusive (lockedBy_iff_table.mp ⟨hi₁, hi₂⟩) (lockedBy_iff_table.mp ⟨hj₁, hj₂⟩)

/-- **Live update.** Whatever the driver has been asked for and whatever the data store holds,
saving the old instance and restoring a new one preserves every entry, and leaves nothing behind. -/
theorem liveUpdate_preserves {addr : Addr} (ha : Stack.Fits addr)
    (hs : Reachable Serves (initial addr) s) (d : DataStore) (hnull : t.heap 0 = none)
    (hA : Allocates s t.heap choice) :
    ∃ s₁ d₁ s' d', sefCbLuStateSave d s = .ok ((ok, d₁), s₁) ∧
      luStateRestore choice d₁ t = .ok ((ok, d'), s') ∧ Updated s t d s' d' := by
  have hI := inv_of_reachable ha hs
  obtain ⟨s₁, d₁, hsave, hsaved⟩ := sefCbLuStateSave_spec hI d
  obtain ⟨s', d', hrestore, h⟩ := luStateRestore_spec hI hsaved hnull hA
  exact ⟨s₁, d₁, s', d', hsave, hrestore, h⟩

/-- The new version, with its variables at another address, finds an entry that process 7 has
locked, and an old `buf_5` in the data store. -/
theorem liveUpdate_preserves_sample : ∃ s₁ d₁ s' d',
    sefCbLuStateSave (fun name ↦ if name = "buf_5" then some [1] else none) sampleLocked
      = .ok ((ok, d₁), s₁) ∧
    luStateRestore (fun i ↦ some (UInt32.ofNat (8 * i + 8))) d₁ (load₀ 8192) = .ok ((ok, d'), s') ∧
    Updated sampleLocked (load₀ 8192) (fun name ↦ if name = "buf_5" then some [1] else none) s'
      d' := by
  have htoNat : ∀ i : Fin bufMaxCount, (UInt32.ofNat (8 * i + 8)).toNat = 8 * i + 8 := fun i ↦ by
    have hi : (i : ℕ) < 100 := i.isLt
    exact UInt32.toNat_ofNat_of_lt' (by simp only [UInt32.size]; omega)
  refine liveUpdate_preserves (show Stack.Fits 4096 by decide)
    ((Reachable.refl.next serves_sampleSet).next serves_sampleLock) _ rfl ⟨fun i _ ↦ ?_, ?_⟩
  · refine ⟨_, rfl, fun h₀ ↦ ?_, rfl⟩
    have habs := htoNat i
    rw [h₀] at habs
    simp at habs
  · intro i j _ _ heq
    have hword := congrArg UInt32.toNat (Option.some_inj.mp heq)
    rw [htoNat, htoNat] at hword
    exact Fin.ext (by omega)

end Update

end Driver

end MinixClipboard
