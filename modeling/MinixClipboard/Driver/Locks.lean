import MinixClipboard.Driver.Delivery

/-!
# Locks

`locking_pid` is never cleared, the lock scan takes the first match it finds, and every lock request
first gives an older lock up, granted or not. None of this can be seen from the table: a process
holds at most one entry, and what it holds stays with it, whatever the others ask for, until its get
takes it away.
-/

namespace MinixClipboard

namespace Driver

variable {addr : Addr} {s s₁ s₂ : Driver} {h : List (Event Driver (Request × Reply))}
  {i : Fin bufMaxCount} {p : Int32}

/-- The requests by which a process acts on its own lock. -/
def Request.By (p : Int32) : Request → Prop
  | .lock msg => msg.pid.toInt32 = p
  | .get pid _ => pid = p
  | _ => False

/-- Only the requests of a process act on what it holds. -/
theorem Means.by {e : Event Driver (Request × Reply)}
    {a : LockTable.Action (Fin bufMaxCount) Int32 Payload} (hm : Means e a) (ha : a.By p) :
    e.label.1.By p := by
  cases hm with
  | acquire => exact ha
  | release => exact ha
  | take => exact ha
  | _ => exact ha.elim

/-- Entry `i` is `LOCKED` by process `p`. -/
def LockedBy (s : Driver) (i : Fin bufMaxCount) (p : Int32) : Prop :=
  (s.entries i).inUse = .locked ∧ (s.entries i).lockingPid = p

theorem lockedBy_iff_table :
    LockedBy s i p ↔ s.table i = some ⟨payload s.heap (s.entries i), some p⟩ := by
  rw [table, slotOf_eq_some_some_iff, and_iff_left rfl]
  exact Iff.rfl

/-- What a granted lock leaves: the entry is locked, and but for the lock it is as before. -/
theorem lockedBy_of_serves (hI : Inv s) {msg : LockMsg}
    (hlock : Serves s (.lock msg, ⟨ok, none⟩) s₁) :
    ∃ i : Fin bufMaxCount, msg.id.toNat = i ∧ LockedBy s₁ i msg.pid.toInt32 ∧
      payload s₁.heap (s₁.entries i) = payload s.heap (s.entries i) := by
  obtain ⟨ret, hserve, hret⟩ := serves_lock_iff.mp hlock
  obtain rfl : ret = ok := congrArg Reply.ret hret
  obtain ⟨hsame, ⟨habs, -⟩ | ⟨i, v, -, hid, -, -, htable⟩⟩ := doClipboardLock_refines hI hserve
  · simp [ok] at habs
  · refine ⟨i, hid, ?_, by rw [hsame.payload, hsame.heap]⟩
    have hi : s₁.table i = some ⟨v, some msg.pid.toInt32⟩ := by rw [htable, Function.update_self]
    obtain ⟨huse, hpid, -⟩ := slotOf_eq_some_some_iff.mp hi
    exact ⟨huse, hpid⟩

/-- What a process locked in `s₁` is its own in `s₂`, unchanged, and its get takes just that. -/
structure Keeps (s₁ s₂ : Driver) (i : Fin bufMaxCount) (p : Int32) : Prop where
  locked : LockedBy s₂ i p
  entry : s₂.entries i = s₁.entries i
  bytes : s₂.heap.contents (s₂.entries i).buffer = s₁.heap.contents (s₁.entries i).buffer
  get : ∀ msg, ∃ s₃, Serves s₂
    (.get p msg, ⟨ok, some (deliver msg (payload s₂.heap (s₂.entries i)))⟩)
    s₃ ∧ (s₃.entries i).inUse = .empty ∧ ∀ j, j ≠ i → s₃.entries j = s₂.entries j

theorem serves_get_of_lockedBy (hI : Inv s) (hi : LockedBy s i p) (msg : GetMsg) :
    ∃ s', Serves s (.get p msg, ⟨ok, some (deliver msg (payload s.heap (s.entries i)))⟩) s' ∧
      (s'.entries i).inUse = .empty ∧ ∀ j, j ≠ i → s'.entries j = s.entries j := by
  have hlock := lock?_eq_some_of_table hI.exclusive (lockedBy_iff_table.mp hi)
  rcases doClipboardGet_spec hI p msg with ⟨hnone, -⟩ | ⟨k, s', hsome, hok, hdel⟩
  · rw [hlock] at hnone
    simp at hnone
  · obtain rfl : i = k := by simpa [hlock] using hsome
    refine ⟨s', serves_get_iff.mpr ⟨_, hok, rfl⟩, ?_, hdel.entries⟩
    rw [hdel.entry]

/-- **A lock is kept** through any requests but those of its holder. -/
theorem keeps_of_run (hI : Inv s₁) (hi : LockedBy s₁ i p) (hrun : Run Serves s₁ h s₂)
    (hothers : ∀ e ∈ h, ¬e.label.1.By p) : Keeps s₁ s₂ i p := by
  obtain ⟨hI₂, h', hrun', hall⟩ := hrun.simulate table hI fun _ hI hserves ↦
    serves_refines hI hserves
  have htable : s₂.table i = some ⟨payload s₁.heap (s₁.entries i), some p⟩ := by
    refine LockTable.holds_of_run hrun' (lockedBy_iff_table.mp hi) fun e' he' hby ↦ ?_
    obtain ⟨j, hj⟩ := List.mem_iff_getElem?.mp he'
    obtain ⟨e, hj', hmatch⟩ := hall.flip.exists_getElem? hj
    exact hothers e (List.mem_of_getElem? hj') (hmatch.label.by hby)
  obtain ⟨huse, hpid, hpay⟩ := slotOf_eq_some_some_iff.mp htable
  have hentry := entry_ext hpay (hpid.trans hi.2.symm) (huse.trans hi.1.symm)
  refine ⟨⟨huse, hpid⟩, hentry, congrArg Payload.bytes hpay,
    serves_get_of_lockedBy hI₂ ⟨huse, hpid⟩⟩

/-- **Locks are exclusive and stable.** No process ever holds two entries; and once a lock has been
granted, its entry stays locked and unchanged until its holder asks for a lock or a get, and the get
delivers just that entry. -/
theorem locks_exclusive_and_stable (ha : Stack.Fits addr)
    (hs : Reachable Serves (initial addr) s) :
    (∀ p i j, LockedBy s i p → LockedBy s j p → i = j) ∧
    ∀ msg s₁ h s₂, Serves s (.lock msg, ⟨ok, none⟩) s₁ → Run Serves s₁ h s₂ →
      (∀ e ∈ h, ¬e.label.1.By msg.pid.toInt32) →
      ∃ i : Fin bufMaxCount, msg.id.toNat = i ∧
        payload s₁.heap (s₁.entries i) = payload s.heap (s.entries i) ∧
        Keeps s₁ s₂ i msg.pid.toInt32 := by
  have hI := inv_of_reachable ha hs
  refine ⟨fun p i j hi hj ↦ ?_, fun msg s₁ h s₂ hlock hrun hothers ↦ ?_⟩
  · exact hI.exclusive (lockedBy_iff_table.mp hi) (lockedBy_iff_table.mp hj)
  · obtain ⟨i, hid, hi, hpay⟩ := lockedBy_of_serves hI hlock
    exact ⟨i, hid, hpay, keeps_of_run (inv_of_reachable ha (hs.next hlock)) hi hrun hothers⟩

set_option maxRecDepth 10000 in
/-- Process 8 asks for the entry process 7 has locked, and then stores one of its own. -/
theorem locks_exclusive_and_stable_sample : ∃ h s₂, h.length = 2 ∧
    Run Serves sampleLocked h s₂ ∧
    (∀ p i j, LockedBy (after sampleSet (initial 4096)) i p →
      LockedBy (after sampleSet (initial 4096)) j p → i = j) ∧
    ∃ i : Fin bufMaxCount, (99 : UInt32).toNat = i ∧
      payload sampleLocked.heap (sampleLocked.entries i)
        = payload (after sampleSet (initial 4096)).heap
          ((after sampleSet (initial 4096)).entries i) ∧
      Keeps sampleLocked s₂ i (7 : UInt32).toInt32 := by
  have hlock : Serves sampleLocked (.lock ⟨8, 99, 5⟩, ⟨-1, none⟩)
      (after (.lock ⟨8, 99, 5⟩) sampleLocked) := rfl
  have hset : Serves (after (.lock ⟨8, 99, 5⟩) sampleLocked)
      (.set ⟨8, 1, 1, fun _ ↦ 120⟩ (some 16), ⟨98, none⟩)
      (after (.set ⟨8, 1, 1, fun _ ↦ 120⟩ (some 16)) (after (.lock ⟨8, 99, 5⟩) sampleLocked)) := rfl
  have hrun := (Run.nil.snoc hlock).snoc hset
  have hkept := locks_exclusive_and_stable (show Stack.Fits 4096 by decide)
    (Reachable.refl.next serves_sampleSet)
  refine ⟨_, _, rfl, hrun, hkept.1, hkept.2 _ _ _ _ serves_sampleLock hrun fun e he ↦ ?_⟩
  simp only [List.nil_append, List.cons_append, List.mem_cons, List.not_mem_nil, or_false] at he
  rcases he with rfl | rfl
  · exact (by decide : (8 : UInt32).toInt32 ≠ (7 : UInt32).toInt32)
  · exact id

end Driver

end MinixClipboard
