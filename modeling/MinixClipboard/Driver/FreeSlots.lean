import MinixClipboard.Driver.Refines

/-!
# Free slots

Two structures of the driver say which slots are free, the stack of ids and the flags of the
entries, and three functions with early returns keep them in step. `FreeSlots` says in the words of
the sources that they agree; it is the invariant of `Driver.Invariant` without the list the stack
represents. What follows from it is that four pieces of the code are never reached: both assertions,
the branch of `do_clipboard_set` for an id that is already in use, and the full stack of `push`.
-/

namespace MinixClipboard

namespace Driver

open Fallible

variable {addr : Addr} {s : Driver}

/-- The stack of free ids and the flags of the entries agree. -/
structure FreeSlots (s : Driver) : Prop where
  lower_le : Stack.lowerBound s.addr ≤ s.availableEntries.current
  le_upper : s.availableEntries.current ≤ Stack.upperBound s.addr
  nodup : (s.availableEntries.below s.addr).Nodup
  lt : ∀ id ∈ s.availableEntries.below s.addr, id.toNat < bufMaxCount
  mem_iff : ∀ i : Fin bufMaxCount,
    UInt32.ofNat i.val ∈ s.availableEntries.below s.addr ↔ (s.entries i).inUse = .empty

/-- The slots that are not `EMPTY`. -/
def occupied (s : Driver) : Finset (Fin bufMaxCount) :=
  Finset.univ.filter fun i ↦ (s.entries i).inUse ≠ .empty

theorem live_table (s : Driver) : LockTable.live s.table = s.occupied := by
  ext i
  rw [LockTable.mem_live, Option.isSome_iff_ne_none, occupied, Finset.mem_filter,
    and_iff_right (Finset.mem_univ i), ne_eq, table_eq_none_iff]

theorem card_occupied_lt_iff (s : Driver) :
    s.occupied.card < bufMaxCount ↔ ∃ i, (s.entries i).inUse = .empty := by
  calc s.occupied.card < bufMaxCount
      ↔ s.occupied.card < Fintype.card (Fin bufMaxCount) := by rw [Fintype.card_fin]
    _ ↔ s.occupied ≠ Finset.univ := Finset.card_lt_iff_ne_univ _
    _ ↔ ∃ i, i ∉ s.occupied := Finset.eq_univ_iff_forall.not.trans not_forall
    _ ↔ ∃ i, (s.entries i).inUse = .empty := by simp [occupied]

theorem toNat_ofNat_fin (i : Fin bufMaxCount) : (UInt32.ofNat i.val).toNat = i := by
  have hi : (i : ℕ) < 100 := i.isLt
  exact UInt32.toNat_ofNat_of_lt' (by rw [UInt32.size]; omega)

theorem ofNat_fin_injective :
    Function.Injective fun i : Fin bufMaxCount ↦ UInt32.ofNat i.val := by
  intro i j hij
  have hnat := congrArg UInt32.toNat hij
  simp only [toNat_ofNat_fin] at hnat
  exact Fin.ext hnat

theorem toNat_neg_one_ne (i : Fin bufMaxCount) : (-1 : UInt32) ≠ UInt32.ofNat i.val := by
  intro h
  have hi : (i : ℕ) < 100 := i.isLt
  have hnat := congrArg UInt32.toNat h
  rw [toNat_ofNat_fin] at hnat
  change 4294967295 = (i : ℕ) at hnat
  omega

theorem FreeIds.freeSlots {ids : List (Fin bufMaxCount)} (ha : Stack.Fits s.addr)
    (hids : FreeIds s ids) : FreeSlots s := by
  have hbelow := Stack.below_eq hids.holds
  refine ⟨(hids.holds.bounds ha).1, (hids.holds.bounds ha).2, ?_, fun id hid ↦ ?_, fun i ↦ ?_⟩
  · rw [hbelow]
    exact hids.nodup.map ofNat_fin_injective
  · rw [hbelow, words, List.mem_map] at hid
    obtain ⟨i, -, rfl⟩ := hid
    rw [toNat_ofNat_fin]
    exact i.isLt
  · rw [hbelow, words, List.mem_map_of_injective ofNat_fin_injective, hids.mem_iff]

theorem Inv.freeSlots (hI : Inv s) : FreeSlots s := by
  obtain ⟨ids, hids⟩ := hI.free
  exact hids.freeSlots hI.fits

/-- As long as some slot is in use, `push` has room for its id. -/
theorem Inv.current_ne_upperBound (hI : Inv s) {i : Fin bufMaxCount}
    (hi : (s.entries i).inUse ≠ .empty) :
    s.availableEntries.current ≠ Stack.upperBound s.addr := by
  obtain ⟨ids, hids⟩ := hI.free
  rw [ne_eq, Stack.current_eq_upperBound_iff hI.fits hids.holds]
  exact Nat.ne_of_lt (hids.length_lt hi)

theorem Inv.serve_ne_assertion (hI : Inv s) (req : Request) : serve req s ≠ .error .assertion := by
  cases req with
  | set msg choice =>
    rw [serve, bind_apply]
    rcases doClipboardSet_spec hI msg choice with ⟨-, h⟩ | ⟨i, -, -, ⟨a, t, h, -⟩ | ⟨-, -, h⟩⟩ <;>
      rw [h] <;> simp [pure_apply]
  | lock msg =>
    rw [serve, bind_apply]
    by_cases hid : msg.id.toNat < bufMaxCount
    · rw [doClipboardLock_eq msg hid, ← apply_ite]
      simp [pure_apply]
    · rw [doClipboardLock_of_le msg (Nat.not_lt.mp hid)]
      simp
  | get pid msg =>
    rw [serve, bind_apply]
    rcases doClipboardGet_spec hI pid msg with ⟨-, h⟩ | ⟨i, t, -, h, -⟩ <;> rw [h] <;>
      simp [pure_apply]
  | query size =>
    rw [serve, bind_apply]
    by_cases hid : size.toNat < bufMaxCount
    · rw [pidQuery_of_lt hid]
      simp [pure_apply]
    · rw [pidQuery_of_le (Nat.not_lt.mp hid)]
      simp [pure_apply]

/-- What a set returns: the id on top of the stack, of a slot that was `EMPTY`, or `-1` and no
change where there is none. Only an exhausted heap keeps it from returning. -/
structure SetReturns (s : Driver) (msg : SetMsg) (choice : Option Addr) : Prop where
  full : s.occupied.card = bufMaxCount → doClipboardSet msg choice s = .ok (-1, s)
  free : s.occupied.card < bufMaxCount → ∃ i : Fin bufMaxCount,
    s.availableEntries.top s.addr = .ok (UInt32.ofNat i.val) ∧ (s.entries i).inUse = .empty ∧
      ((∃ s', doClipboardSet msg choice s = .ok ((i : ℕ), s') ∧ (s'.entries i).inUse = .used) ∨
        ¬s.heap.Succeeds choice ∧ msg.bufferLen ≠ 0 ∧
          doClipboardSet msg choice s = .error .pointer)

theorem Inv.setReturns (hI : Inv s) (msg : SetMsg) (choice : Option Addr) :
    SetReturns s msg choice := by
  rcases doClipboardSet_spec hI msg choice with ⟨huse, h⟩ | ⟨i, huse, htop, hcase⟩
  · refine ⟨fun _ ↦ h, fun hlt ↦ ?_⟩
    obtain ⟨i, hi⟩ := (card_occupied_lt_iff s).mp hlt
    exact absurd hi (huse i)
  · refine ⟨fun hfull ↦ ?_, fun _ ↦ ⟨i, htop, huse, ?_⟩⟩
    · exact absurd ((card_occupied_lt_iff s).mpr ⟨i, huse⟩) (by omega)
    · rcases hcase with ⟨a, s', h, hacc, -⟩ | hfault
      · refine Or.inl ⟨s', h, ?_⟩
        rw [hacc.entry]
        rfl
      · exact Or.inr hfault

/-- **Free slots.** In every state the driver can be brought to, the stack of free ids holds exactly
the ids of the `EMPTY` slots; so no assertion fails, `push` never drops an id, and a set succeeds
exactly when some slot is `EMPTY`, with its id. -/
theorem freeSlots_of_reachable (ha : Stack.Fits addr) (hs : Reachable Serves (initial addr) s) :
    FreeSlots s ∧
      (∀ i, (s.entries i).inUse ≠ .empty →
        s.availableEntries.current ≠ Stack.upperBound s.addr) ∧
      (∀ req, serve req s ≠ .error .assertion) ∧
      ∀ msg choice, SetReturns s msg choice := by
  have hI := inv_of_reachable ha hs
  exact ⟨hI.freeSlots, fun _ hi ↦ hI.current_ne_upperBound hi, hI.serve_ne_assertion, hI.setReturns⟩

theorem freeSlots_initial : FreeSlots (initial 4096) ∧
    (∀ i, ((initial 4096).entries i).inUse ≠ .empty →
      (initial 4096).availableEntries.current ≠ Stack.upperBound (initial 4096).addr) ∧
    (∀ req, serve req (initial 4096) ≠ .error .assertion) ∧
    ∀ msg choice, SetReturns (initial 4096) msg choice :=
  freeSlots_of_reachable (show Stack.Fits 4096 by decide) .refl

end Driver

end MinixClipboard
