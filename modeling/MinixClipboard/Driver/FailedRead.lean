import MinixClipboard.Driver.Lengths

/-!
# Failed reads

A get consumes the entry before anything is sent to the client, and it is `clipboard_read` that
sends. Two things follow. A transfer that fails finds the entry already deleted, so that a failed
read loses what it should have delivered. And the result of the get is compared with `OK` before it
is assigned, so that a client without a lock is answered with the truth value of the comparison,
which is not negative.

`clipboardRead_cases` says once what a get request comes to; which requests lose nothing, and which
are answered with the sign of their outcome, is read off it.
-/

namespace MinixClipboard

namespace Driver

open Fallible

variable {addr : Addr} {s s' : Driver} {c : Call} {size : UInt32} {i : Fin bufMaxCount}

/-! ## What a get request comes to -/

theorem isPidQuery_eq_false_iff : isPidQuery size = false ↔ getSize ≤ size := by
  rw [isPidQuery, decide_eq_false_iff_not, UInt32.not_lt]

theorem lock?_eq_none_iff_lockedBy {pid : Int32} : s.lock? pid = none ↔ ∀ i, ¬LockedBy s i pid := by
  rw [lock?_eq_none_iff]
  exact forall_congr' fun i ↦ not_congr and_comm

/-- A process is found as the holder of the one entry it has locked. -/
theorem Inv.lockedBy_iff (hI : Inv s) {pid : Int32} (hi : LockedBy s i pid) (j : Fin bufMaxCount) :
    LockedBy s j pid ↔ j = i := by
  refine ⟨fun hj ↦ ?_, fun hji ↦ hji ▸ hi⟩
  exact hI.exclusive (lockedBy_iff_table.mp hj) (lockedBy_iff_table.mp hi)

theorem finishRead_ok (copied : ℤ) (out : GetMsg) (s : Driver) :
    finishRead copied (ok, out) s =
      if entryLenLimit < out.bufferLen.toNat then .error .frame
      else if copied = ok then .ok ((ok, some out), s) else .ok ((copied, none), s) := by
  rw [finishRead, if_pos rfl]
  by_cases hlen : entryLenLimit < out.bufferLen.toNat
  · rw [if_pos hlen, if_pos hlen, throw_apply]
  · rw [if_neg hlen, if_neg hlen, pure_apply]
    split <;> rfl

/-- **Every get request** is refused for its pid, or answered with the comparison where the process
holds nothing, or it consumes an entry; only then the length is looked at, by the copy that runs
over the reply, and the client's buffer, by the transfer. -/
theorem clipboardRead_cases (hI : Inv s) (hsize : getSize ≤ size) (msg : GetMsg) (copied : ℤ) :
    ((decodePid size).toInt32 < 0 ∧ clipboardRead size msg copied s = .ok ((-1, none), s)) ∨
    (0 ≤ (decodePid size).toInt32 ∧ (∀ i, ¬LockedBy s i (decodePid size).toInt32) ∧
      clipboardRead size msg copied s = .ok ((1, none), s)) ∨
    ∃ i s', 0 ≤ (decodePid size).toInt32 ∧ LockedBy s i (decodePid size).toInt32 ∧
      Delivers s i s' ∧
      clipboardRead size msg copied s =
        if entryLenLimit < (s.entries i).bufferLen.toNat then .error .frame
        else if copied = ok then
          .ok ((ok, some (filled msg (s.entries i) (s.heap.contents (s.entries i).buffer))), s')
        else .ok ((copied, none), s') := by
  have hquery := isPidQuery_eq_false_iff.mpr hsize
  by_cases hpid : (decodePid size).toInt32 < 0
  · refine Or.inl ⟨hpid, ?_⟩
    rw [clipboardRead, if_neg (by simp [hquery])]
    simp only []
    rw [if_pos hpid, pure_apply]
  · have hnonneg := Int32.not_lt.mp hpid
    have hget : (Call.read size msg copied).get? = some ((decodePid size).toInt32, msg) :=
      if_pos ⟨hquery, hnonneg⟩
    rw [clipboardRead_of_get? hget, bind_apply]
    refine Or.inr ?_
    rcases doClipboardGet_spec hI (decodePid size).toInt32 msg with
      ⟨hnone, hok⟩ | ⟨i, s', hsome, hok, hdel⟩
    · refine Or.inl ⟨hnonneg, lock?_eq_none_iff_lockedBy.mp hnone, ?_⟩
      rw [hok]
      rfl
    · refine Or.inr ⟨i, s', hnonneg, (of_lock?_eq_some hsome).symm, hdel, ?_⟩
      rw [hok]
      exact finishRead_ok copied _ s'

theorem Delivers.ne (hdel : Delivers s i s') (hi : (s.entries i).inUse = .locked) : s' ≠ s := by
  rintro rfl
  have huse := congrArg Entry.inUse hdel.entry
  rw [hi] at huse
  simp at huse

/-! ## What a failed read loses -/

/-- A get request returns, and unless it returns `OK` it leaves the state as it was. -/
def LosesNothing (s : Driver) : Call → Prop
  | .read size msg copied => getSize ≤ size →
    ∃ r s', clipboardRead size msg copied s = .ok (r, s') ∧ (r.1 ≠ ok → s' = s)
  | .write _ _ _ _ => True

/-- A get request of a process that holds an entry can be carried out to its end: the entry fits the
reply, and the client's buffer takes it. -/
def Transferable (s : Driver) : Call → Prop
  | .read size _ copied => getSize ≤ size → 0 ≤ (decodePid size).toInt32 →
    ∀ i, LockedBy s i (decodePid size).toInt32 →
      (s.entries i).bufferLen.toNat ≤ entryLenLimit ∧ copied = ok
  | .write _ _ _ _ => True

theorem Inv.losesNothing_iff (hI : Inv s) (c : Call) : LosesNothing s c ↔ Transferable s c := by
  cases c with
  | write => exact Iff.rfl
  | read size msg copied =>
    refine forall_congr' fun hsize ↦ ?_
    rcases clipboardRead_cases hI hsize msg copied with
      ⟨hneg, hok⟩ | ⟨-, hfree, hok⟩ | ⟨i, s', hpid, hi, hdel, hok⟩
    · -- refused, or nothing is locked: the driver is as it was
      refine iff_of_true ⟨_, s, hok, fun _ ↦ rfl⟩ fun hpid ↦ ?_
      exact absurd hneg (Int32.not_lt.mpr hpid)
    · exact iff_of_true ⟨_, s, hok, fun _ ↦ rfl⟩ fun _ i hi ↦ absurd hi (hfree i)
    · -- the entry is gone: nothing but `OK` will do
      rw [hok]
      by_cases hlen : entryLenLimit < (s.entries i).bufferLen.toNat
      · rw [if_pos hlen]
        refine iff_of_false (by simp) fun htrans ↦ ?_
        exact absurd (htrans hpid i hi).1 (Nat.not_le.mpr hlen)
      · rw [if_neg hlen]
        by_cases hcopied : copied = ok
        · rw [if_pos hcopied]
          refine iff_of_true ⟨_, s', rfl, fun hne ↦ absurd rfl hne⟩ fun _ j hj ↦ ?_
          obtain rfl := (hI.lockedBy_iff hi j).mp hj
          exact ⟨Nat.not_lt.mp hlen, hcopied⟩
        · rw [if_neg hcopied]
          refine iff_of_false ?_ fun htrans ↦ absurd (htrans hpid i hi).2 hcopied
          rintro ⟨r, t, heq, hsame⟩
          obtain ⟨rfl, rfl⟩ := Prod.mk.inj (Except.ok.inj heq)
          exact hdel.ne hi.1 (hsame hcopied)

/-! ## What the sign of a reply tells -/

/-- Entry `i` was locked by the pid in this size, its message is what the client's buffer received,
and it has been removed. -/
structure Delivered (s : Driver) (size : UInt32) (msg : GetMsg) (out : Option GetMsg) (s' : Driver)
    (i : Fin bufMaxCount) : Prop where
  locked : LockedBy s i (decodePid size).toInt32
  received : out = some (filled msg (s.entries i) (s.heap.contents (s.entries i).buffer))
  removed : (s'.entries i).inUse = .empty

/-- A get request returns, with 0 just when an entry was delivered and removed, and otherwise with a
negative value. -/
def TellsOutcome (s : Driver) : Call → Prop
  | .read size msg copied => getSize ≤ size →
    ∃ ret out s', clipboardRead size msg copied s = .ok ((ret, out), s') ∧
      (ret = 0 ↔ ∃ i, Delivered s size msg out s' i) ∧ (ret ≠ 0 → ret < 0)
  | .write _ _ _ _ => True

/-- The pid of a get request is refused, or it holds an entry that fits the reply and the transfer
has no positive result. -/
def RefusedOrHeld (s : Driver) : Call → Prop
  | .read size _ copied => getSize ≤ size → (decodePid size).toInt32 < 0 ∨
    copied ≤ 0 ∧ ∃ i, LockedBy s i (decodePid size).toInt32 ∧
      (s.entries i).bufferLen.toNat ≤ entryLenLimit
  | .write _ _ _ _ => True

theorem Inv.tellsOutcome_iff (hI : Inv s) (c : Call) : TellsOutcome s c ↔ RefusedOrHeld s c := by
  cases c with
  | write => exact Iff.rfl
  | read size msg copied =>
    refine forall_congr' fun hsize ↦ ?_
    have hnone : ∀ {s' : Driver} {i}, ¬Delivered s size msg none s' i :=
      fun hdel ↦ absurd hdel.received (by simp)
    rcases clipboardRead_cases hI hsize msg copied with
      ⟨hneg, hok⟩ | ⟨hpid, hfree, hok⟩ | ⟨i, s', hpid, hi, hdel, hok⟩
    · refine iff_of_true ⟨-1, none, s, hok, iff_of_false (by decide) ?_, fun _ ↦ by decide⟩
        (Or.inl hneg)
      exact fun ⟨_, hi⟩ ↦ hnone hi
    · -- the comparison, 1, is no error to a client that looks at the sign
      refine iff_of_false ?_ ?_
      · rintro ⟨ret, out, t, heq, -, hneg⟩
        rw [hok, Except.ok.injEq, Prod.mk.injEq, Prod.mk.injEq] at heq
        obtain ⟨⟨rfl, -⟩, -⟩ := heq
        exact absurd (hneg (by decide)) (by decide)
      · rintro (hneg | ⟨-, i, hi, -⟩)
        · exact Int32.not_lt.mpr hpid hneg
        · exact hfree i hi
    · rw [hok]
      -- a client has one lock at most, so the entry that is meant is `i`
      have hheld : ((decodePid size).toInt32 < 0 ∨ copied ≤ 0 ∧ ∃ j,
          LockedBy s j (decodePid size).toInt32 ∧
            (s.entries j).bufferLen.toNat ≤ entryLenLimit) ↔
          copied ≤ 0 ∧ (s.entries i).bufferLen.toNat ≤ entryLenLimit := by
        rw [or_iff_right (Int32.not_lt.mpr hpid)]
        refine and_congr_right fun _ ↦ ⟨?_, fun hlen ↦ ⟨i, hi, hlen⟩⟩
        rintro ⟨j, hj, hlen⟩
        exact (hI.lockedBy_iff hi j).mp hj ▸ hlen
      rw [hheld]
      by_cases hlen : entryLenLimit < (s.entries i).bufferLen.toNat
      · rw [if_pos hlen]
        exact iff_of_false (by simp) fun hle ↦ absurd hle.2 (Nat.not_le.mpr hlen)
      · rw [if_neg hlen]
        by_cases hcopied : copied = ok
        · rw [if_pos hcopied]
          refine iff_of_true ⟨ok, _, s', rfl, iff_of_true rfl ⟨i, hi, rfl, ?_⟩, by simp⟩
            ⟨Int.le_of_eq hcopied, Nat.not_lt.mp hlen⟩
          rw [hdel.entry]
        · rw [if_neg hcopied]
          constructor
          · rintro ⟨ret, out, t, heq, -, hneg⟩
            obtain ⟨rfl, -⟩ := Prod.mk.inj (Prod.mk.inj (Except.ok.inj heq)).1
            exact ⟨Int.le_of_lt (hneg hcopied), Nat.not_lt.mp hlen⟩
          · rintro ⟨hle, -⟩
            refine ⟨copied, none, s', rfl, iff_of_false hcopied ?_, fun _ ↦ ?_⟩
            · exact fun ⟨_, hi⟩ ↦ hnone hi
            · exact Int.lt_iff_le_and_ne.mpr ⟨hle, hcopied⟩

/-! ## Along the runs of the device -/

section Runs

variable {h : List (Event Driver (Call × (ℤ × Option GetMsg)))}

theorem inv_of_mem_attempts (ha : Stack.Fits addr) (hrun : Run Calls (initial addr) h s)
    {q : Driver × Call} (hq : q ∈ attempts h s c) : Inv q.1 := by
  obtain ⟨h', hrun', -⟩ := run_of_mem_attempts hrun hq
  exact inv_of_calls ha hrun'.reachable

/-- **Failed reads.** In every run of the device, and for every call made after it, a get request
loses nothing exactly when it can be carried out to its end or finds nothing to carry out. -/
theorem losesNothing_iff_transferable (ha : Stack.Fits addr) (hrun : Run Calls (initial addr) h s)
    (c : Call) : ∀ q ∈ attempts h s c, (LosesNothing q.1 q.2 ↔ Transferable q.1 q.2) :=
  fun q hq ↦ (inv_of_mem_attempts ha hrun hq).losesNothing_iff q.2

/-- Process 7 asks for its entry, and its buffer cannot be written to. -/
def failingGet : Call := .read (encodePid 7) ⟨0, 0, fun _ ↦ 0⟩ (-14)

set_option maxRecDepth 10000 in
theorem reachable_calls_sampleLocked : Reachable Calls (initial 4096) sampleLocked := by
  have hset : Calls (initial 4096)
      (.write setSize ok (⟨7, 2, 2, fun k ↦ if k = 0 then 97 else 98⟩ : SetMsg).toWrite (some 8),
        (99, none)) (after sampleSet (initial 4096)) := rfl
  have hlock : Calls (after sampleSet (initial 4096))
      (.write lockSize ok ((⟨7, 99, 2⟩ : LockMsg).toWrite fun _ ↦ 0) none, (ok, none))
      sampleLocked := rfl
  exact (Reachable.refl.next hset).next hlock

theorem losesNothing_iff_transferable_failingGet :
    LosesNothing sampleLocked failingGet ↔ Transferable sampleLocked failingGet := by
  obtain ⟨h, hrun⟩ := reachable_calls_sampleLocked
  have hiff := losesNothing_iff_transferable (show Stack.Fits 4096 by decide) hrun failingGet
    (sampleLocked, failingGet) (List.mem_append_right _ List.mem_cons_self)
  simp only [] at hiff
  exact hiff

set_option maxRecDepth 10000 in
/-- What process 7 has stored and locked is gone after a get that failed. -/
theorem not_losesNothing_failingGet : Reachable Calls (initial 4096) sampleLocked ∧
    LockedBy sampleLocked 99 7 ∧
    (∃ s', call failingGet sampleLocked = .ok ((-14, none), s') ∧
      (s'.entries 99).inUse = .empty) ∧
    ¬LosesNothing sampleLocked failingGet := by
  have hI := inv_of_calls (show Stack.Fits 4096 by decide) reachable_calls_sampleLocked
  have hi : LockedBy sampleLocked 99 7 := ⟨rfl, rfl⟩
  refine ⟨reachable_calls_sampleLocked, hi,
    ⟨after (.get 7 ⟨0, 0, fun _ ↦ 0⟩) sampleLocked, rfl, rfl⟩, fun hloses ↦ ?_⟩
  have htrans := (hI.losesNothing_iff failingGet).mp hloses (by decide) (by decide) 99 hi
  exact absurd htrans.2 (by decide)

/-- **Replies.** In every run of the device, and for every call made after it, the reply to a get
request tells success from failure exactly when its pid is negative or holds an entry that fits the
reply. -/
theorem tellsOutcome_iff_refusedOrHeld (ha : Stack.Fits addr)
    (hrun : Run Calls (initial addr) h s) (c : Call) :
    ∀ q ∈ attempts h s c, (TellsOutcome q.1 q.2 ↔ RefusedOrHeld q.1 q.2) :=
  fun q hq ↦ (inv_of_mem_attempts ha hrun hq).tellsOutcome_iff q.2

/-- Process 7 asks for an entry and has locked none. -/
def getWithoutLock : Call := .read (encodePid 7) ⟨0, 0, fun _ ↦ 0⟩ ok

theorem tellsOutcome_iff_refusedOrHeld_getWithoutLock :
    TellsOutcome (initial 4096) getWithoutLock ↔ RefusedOrHeld (initial 4096) getWithoutLock :=
  tellsOutcome_iff_refusedOrHeld (show Stack.Fits 4096 by decide) .nil getWithoutLock
    (initial 4096, getWithoutLock) (List.mem_append_right _ List.mem_cons_self)

/-- It is answered with 1. -/
theorem not_tellsOutcome_getWithoutLock : Reachable Calls (initial 4096) (initial 4096) ∧
    (∀ i, ¬LockedBy (initial 4096) i 7) ∧
    call getWithoutLock (initial 4096) = .ok ((1, none), initial 4096) ∧
    ¬TellsOutcome (initial 4096) getWithoutLock := by
  have hfree : ∀ i, ¬LockedBy (initial 4096) i 7 :=
    fun i hi ↦ absurd hi.1 (by simp [initial, clipboardInit])
  have hcall : call getWithoutLock (initial 4096) = .ok ((1, none), initial 4096) := by
    have hnone := doClipboardGet_of_none (lock?_eq_none_iff_lockedBy.mpr hfree) ⟨0, 0, fun _ ↦ 0⟩
    obtain ⟨copied, hget⟩ :=
      call_of_get? (show getWithoutLock.get? = some (7, ⟨0, 0, fun _ ↦ 0⟩) from rfl)
    rw [hget, bind_ok hnone]
    rfl
  refine ⟨.refl, hfree, hcall, fun htells ↦ ?_⟩
  obtain ⟨ret, out, s', heq, -, hneg⟩ := htells (by decide)
  rw [show clipboardRead (encodePid 7) _ ok (initial 4096) = _ from hcall, Except.ok.injEq,
    Prod.mk.injEq, Prod.mk.injEq] at heq
  obtain ⟨⟨rfl, -⟩, -⟩ := heq
  exact absurd (hneg (by decide)) (by decide)

end Runs

end Driver

end MinixClipboard
