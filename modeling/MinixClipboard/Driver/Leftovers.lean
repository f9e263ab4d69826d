import MinixClipboard.Driver.Calls
import MinixClipboard.Driver.LiveUpdate

/-!
# What a get reveals

`clipboard_read` answers a get with `GET_SIZE` bytes of a local variable, whatever the length of the
entry. The words and the bytes of the entry are written to it before, and nothing else is, so behind
the entry the client receives what the stack of the driver held there.

The statement is about two executions that have only the entry in common. What is compared is
`passed`, the bytes the call hands to `sys_safecopyto`.
-/

namespace MinixClipboard

/-- The message as the bytes it consists of. -/
def GetMsg.image (msg : GetMsg) : List CChar :=
  wordLayout.write msg.bufferLen ++ wordLayout.write msg.decompressedLen
    ++ msg.buffer.bytes entryLenLimit

theorem GetMsg.length_image (msg : GetMsg) : msg.image.length = getSize.toNat := by
  rw [image, List.length_append, List.length_append, wordLayout.length_write,
    wordLayout.length_write, Memory.length_bytes]
  rfl

theorem Memory.bytes_eq_iff {m m' : Memory} {n : ℕ} :
    m.bytes n = m'.bytes n ↔ ∀ k < n, m k = m' k := by
  refine ⟨fun h k hk ↦ ?_, Memory.bytes_congr⟩
  have hget := congrArg (·[k]?) h
  simpa [Memory.bytes, hk] using hget

/-- Messages that differ at most in their buffers differ as bytes if their buffers do. -/
theorem GetMsg.image_eq_iff {msg msg' : GetMsg} (hlen : msg.bufferLen = msg'.bufferLen)
    (hdec : msg.decompressedLen = msg'.decompressedLen) :
    msg.image = msg'.image ↔ ∀ k < entryLenLimit, msg.buffer k = msg'.buffer k := by
  rw [image, image, hlen, hdec, List.append_right_inj, Memory.bytes_eq_iff]

theorem Memory.write_agree_iff {m m' : Memory} {bs : List CChar} {n : ℕ} :
    (∀ k < n, m.write bs k = m'.write bs k) ↔ ∀ k, bs.length ≤ k → k < n → m k = m' k := by
  constructor
  · intro h k hle hlt
    have hk := h k hlt
    rwa [Memory.write_of_le hle, Memory.write_of_le hle] at hk
  · intro h k hlt
    rcases Nat.lt_or_ge k bs.length with hk | hk
    · rw [Memory.write_of_lt hk, Memory.write_of_lt hk]
    · rw [Memory.write_of_le hk, Memory.write_of_le hk]
      exact h k hk hlt

namespace Driver

open Fallible

variable {addr addr' : Addr} {s t : Driver} {i j : Fin bufMaxCount} {size : UInt32}

/-- The bytes a read of this size passes to `sys_safecopyto`, if it comes to that, for what its
local message holds before: the bytes the client receives where the copy succeeds. -/
def passed (size : UInt32) (msg : GetMsg) (s : Driver) : Option (List CChar) :=
  match clipboardRead size msg ok s with
  | .ok ((_, out), _) => out.map GetMsg.image
  | .error _ => none

/-- A query and a negative pid are answered before it comes to that. -/
theorem passed_of_get?_eq_none (msg : GetMsg) (h : isPidQuery size ∨ (decodePid size).toInt32 < 0) :
    passed size msg s = none := by
  by_cases hquery : isPidQuery size = true
  · rw [passed, clipboardRead, if_pos hquery, bind_apply]
    cases pidQuery size s with
    | error e => rfl
    | ok p => rfl
  · rw [passed, clipboardRead, if_neg hquery]
    simp only []
    rw [if_pos (h.resolve_left hquery)]
    rfl

theorem Inv.passed_eq (hI : Inv s) (hquery : ¬isPidQuery size)
    (hpid : ¬(decodePid size).toInt32 < 0) (hi : LockedBy s i (decodePid size).toInt32)
    (msg : GetMsg) :
    passed size msg s = if entryLenLimit < (s.entries i).bufferLen.toNat then none
      else some (filled msg (s.entries i) (s.heap.contents (s.entries i).buffer)).image := by
  have hlock := lock?_eq_some_of_table hI.exclusive (lockedBy_iff_table.mp hi)
  have hget : (Call.read size msg ok).get? = some ((decodePid size).toInt32, msg) := by
    rw [Call.get?, if_pos ⟨by simpa using hquery, Int32.not_lt.mp hpid⟩]
  rw [passed, clipboardRead_of_get? hget]
  rcases doClipboardGet_spec hI (decodePid size).toInt32 msg with ⟨hnone, -⟩ | ⟨k, s', hk, h, -⟩
  · rw [hlock] at hnone
    simp at hnone
  · obtain rfl : i = k := Option.some_inj.mp (hlock.symm.trans hk)
    rw [bind_ok h]
    generalize hout : filled msg (s.entries i) (s.heap.contents (s.entries i).buffer) = out
    have hlen : out.bufferLen = (s.entries i).bufferLen := by rw [← hout, filled]
    rw [finishRead, if_pos rfl, ← hlen]
    by_cases hlong : entryLenLimit < out.bufferLen.toNat
    · rw [if_pos hlong, if_pos hlong]
      rfl
    · rw [if_neg hlong, if_neg hlong]
      rfl

theorem image_filled_eq_iff {e e' : Entry} (hlen : e.bufferLen = e'.bufferLen)
    (hdec : e.decompressedLen = e'.decompressedLen) (bs : List CChar) (msg msg' : GetMsg) :
    (filled msg e bs).image = (filled msg' e' bs).image ↔
      ∀ k, bs.length ≤ k → k < entryLenLimit → msg.buffer k = msg'.buffer k := by
  rw [GetMsg.image_eq_iff hlen hdec, filled, filled, Memory.write_agree_iff]

/-- What two executions have in common of an entry each of them has. -/
structure SameEntry (s : Driver) (i : Fin bufMaxCount) (t : Driver) (j : Fin bufMaxCount) :
    Prop where
  bytes : s.heap.contents (s.entries i).buffer = t.heap.contents (t.entries j).buffer
  bufferLen : (s.entries i).bufferLen = (t.entries j).bufferLen
  decompressedLen : (s.entries i).decompressedLen = (t.entries j).decompressedLen

/-- **What a get reveals.** Two executions that have the locked entry in common answer a read of the
same size alike exactly if the leftovers behind the entry are the same, or there are none, or the
read is no get at all. -/
theorem passed_eq_iff (ha : Stack.Fits addr) (hs : Reachable Serves (initial addr) s)
    (ha' : Stack.Fits addr') (ht : Reachable Serves (initial addr') t)
    (hi : LockedBy s i (decodePid size).toInt32) (hj : LockedBy t j (decodePid size).toInt32)
    (hsame : SameEntry s i t j) (msg msg' : GetMsg) :
    passed size msg s = passed size msg' t ↔
      isPidQuery size ∨ (decodePid size).toInt32 < 0 ∨
        ∀ k, (s.entries i).bufferLen.toNat ≤ k → k < entryLenLimit →
          msg.buffer k = msg'.buffer k := by
  have hI := inv_of_reachable ha hs
  have hlive : (s.entries i).inUse ≠ .empty := by simp [hi.1]
  have hlen := hI.buffers.length i hlive
  rw [← or_assoc]
  by_cases hnone : isPidQuery size = true ∨ (decodePid size).toInt32 < 0
  · rw [passed_of_get?_eq_none msg hnone, passed_of_get?_eq_none msg' hnone]
    exact iff_of_true rfl (Or.inl hnone)
  rw [or_iff_right hnone]
  rw [not_or] at hnone
  rw [hI.passed_eq hnone.1 hnone.2 hi, (inv_of_reachable ha' ht).passed_eq hnone.1 hnone.2 hj,
    ← hsame.bufferLen]
  by_cases hlong : entryLenLimit < (s.entries i).bufferLen.toNat
  · -- the copy runs over the frame in both
    rw [if_pos hlong, if_pos hlong]
    refine iff_of_true rfl fun k hk hlt ↦ ?_
    omega
  · rw [if_neg hlong, if_neg hlong, Option.some_inj, ← hsame.bytes,
      image_filled_eq_iff hsame.bufferLen hsame.decompressedLen, hlen]

theorem reachable_sampleLocked : Reachable Serves (initial 4096) sampleLocked :=
  (Reachable.refl.next serves_sampleSet).next serves_sampleLock

set_option maxRecDepth 10000 in
theorem lockedBy_sampleLocked :
    LockedBy sampleLocked 99 (decodePid (encodePid 7)).toInt32 ∧
      (sampleLocked.entries 99).bufferLen = 2 := ⟨⟨rfl, rfl⟩, rfl⟩

/-- Process 7 gets its two bytes in two executions that differ in what is left on the stack. -/
theorem passed_eq_iff_sample :
    passed (encodePid 7) ⟨0, 0, fun _ ↦ 0⟩ sampleLocked
        = passed (encodePid 7) ⟨0, 0, fun _ ↦ 1⟩ sampleLocked ↔
      isPidQuery (encodePid 7) ∨ (decodePid (encodePid 7)).toInt32 < 0 ∨
        ∀ k, (sampleLocked.entries 99).bufferLen.toNat ≤ k → k < entryLenLimit →
          (0 : CChar) = 1 :=
  passed_eq_iff (show Stack.Fits 4096 by decide) reachable_sampleLocked
    (show Stack.Fits 4096 by decide) reachable_sampleLocked lockedBy_sampleLocked.1
    lockedBy_sampleLocked.1 ⟨rfl, rfl, rfl⟩ ⟨0, 0, fun _ ↦ 0⟩ ⟨0, 0, fun _ ↦ 1⟩

/-- What they receive is not the same. -/
theorem not_passed_eq : ¬∀ (addr addr' : Addr) (s t : Driver) (i j : Fin bufMaxCount)
    (size : UInt32) (msg msg' : GetMsg), Stack.Fits addr → Stack.Fits addr' →
    Reachable Serves (initial addr) s → Reachable Serves (initial addr') t →
    LockedBy s i (decodePid size).toInt32 → LockedBy t j (decodePid size).toInt32 →
    SameEntry s i t j → passed size msg s = passed size msg' t := by
  intro hclaim
  have heq := hclaim 4096 4096 sampleLocked sampleLocked 99 99 (encodePid 7) ⟨0, 0, fun _ ↦ 0⟩
    ⟨0, 0, fun _ ↦ 1⟩ (by decide) (by decide) reachable_sampleLocked reachable_sampleLocked
    lockedBy_sampleLocked.1 lockedBy_sampleLocked.1 ⟨rfl, rfl, rfl⟩
  have hI := inv_of_reachable (show Stack.Fits 4096 by decide) reachable_sampleLocked
  rw [hI.passed_eq (by decide) (by decide) lockedBy_sampleLocked.1,
    hI.passed_eq (by decide) (by decide) lockedBy_sampleLocked.1, lockedBy_sampleLocked.2,
    if_neg (by decide), if_neg (by decide), Option.some_inj,
    image_filled_eq_iff (Eq.refl (sampleLocked.entries 99).bufferLen) (Eq.refl _)] at heq
  have hlen := hI.buffers.length 99 (by rw [lockedBy_sampleLocked.1.1]; decide)
  rw [lockedBy_sampleLocked.2] at hlen
  exact absurd (heq 2 (Nat.le_of_eq hlen) (by decide)) (by decide)

end Driver

end MinixClipboard
