import MinixClipboard.Driver.LifeCycle
import MinixClipboard.Driver.Refines

/-!
# After a crash

`sef_cb_init` does nothing for `SEF_INIT_RESTART`, so the instance that replaces a crashed one works
with zeros: all slots are `EMPTY`, which is right, but the stack of free ids is never filled, and
its pointer is no pointer. The first set of such an instance reads before the stack and crashes it
again (`Dead.doClipboardSet_eq`). A live update does not help, since it copies the zeros.

So the clipboard is gone for good, whatever is requested and however often the driver is updated or
restarted (`dead_of_crash`): all it ever does again is to refuse, and to answer the query for the
owner of an entry with the zero it was loaded with.
-/

namespace MinixClipboard

namespace Driver

open Fallible

/-- A driver that has been restarted: no entries, no owners, and a stack of free ids that was never
filled. -/
structure Dead (s : Driver) : Prop where
  fits : Stack.Fits s.addr
  aligned : 4 ∣ s.addr.toNat
  current : s.availableEntries.current = 0
  empty : ∀ i, (s.entries i).inUse = .empty
  sourcePid : ∀ i, (s.entries i).sourcePid = 0

/-- What a dead driver answers. The owner it names to a query is no process. -/
def Request.deadRet : Request → ℤ
  | .query size => if size.toNat < bufMaxCount then 0 else -1
  | .set _ _ | .lock _ | .get _ _ => -1

variable {s s' : Driver}

theorem dead_load₀ (p : Place) : Dead (load₀ p.addr) :=
  ⟨p.fits, p.aligned, rfl, fun _ ↦ rfl, fun _ ↦ rfl⟩

theorem Dead.of_sameIds (h : Dead s) (hsame : SameIds s s') : Dead s' where
  fits := hsame.addr ▸ h.fits
  aligned := hsame.addr ▸ h.aligned
  current := hsame.availableEntries ▸ h.current
  empty i := (hsame.empty_iff i).mpr (h.empty i)
  sourcePid i := (hsame.sourcePid i).trans (h.sourcePid i)

/-! ## Requests -/

/-- The word before a pointer that is `0` is not on the stack. -/
theorem Dead.top_eq (h : Dead s) (haddr : s.addr ≠ 0) :
    s.availableEntries.top s.addr = .error .pointer := by
  have hempty : s.availableEntries.isEmpty s.addr = false := by
    rw [Stack.isEmpty, h.current, beq_eq_false_iff_ne]
    exact Ne.symm haddr
  have hcell : Stack.cell s.addr (0 - 4) = none := by
    have hfits : s.addr.toNat + 400 < 2 ^ 32 := h.fits
    have hsub : (0 - 4 - s.addr : UInt32).toNat = 2 ^ 32 - 4 - s.addr.toNat := by
      rw [UInt32.toNat_sub_of_le]
      · rfl
      · rw [UInt32.le_iff_toNat_le]
        change s.addr.toNat ≤ 2 ^ 32 - 4
        omega
    rw [Stack.cell, dif_neg]
    rw [hsub]
    change ¬(_ ∧ _ < 100)
    omega
  rw [Stack.top, hempty, if_neg Bool.false_ne_true, h.current, hcell]

/-- A set is refused where the stack lies at address `0`, and crashes the driver anywhere else. -/
theorem Dead.doClipboardSet_eq (h : Dead s) (msg : SetMsg) (choice : Option Addr) :
    doClipboardSet msg choice s = if s.addr = 0 then .ok (-1, s) else .error .pointer := by
  by_cases haddr : s.addr = 0
  · have hempty : s.availableEntries.isEmpty s.addr = true := by
      rw [Stack.isEmpty, h.current, haddr]
      rfl
    rw [if_pos haddr, doClipboardSet, bind_ok (get_apply s), if_pos hempty]
    rfl
  · have htop : top s = .error .pointer := by
      rw [top, bind_ok (get_apply s), lift_apply, h.top_eq haddr]
    have hempty : s.availableEntries.isEmpty s.addr = false := by
      rw [Stack.isEmpty, h.current, beq_eq_false_iff_ne]
      exact Ne.symm haddr
    rw [if_neg haddr, doClipboardSet, bind_ok (get_apply s), hempty, if_neg Bool.false_ne_true]
    refine (bind_apply _ _ _).trans ?_
    rw [htop]

theorem Dead.lock?_eq_none (h : Dead s) (pid : Int32) : s.lock? pid = none :=
  lock?_eq_none_iff.mpr fun i hi ↦ by simp [h.empty i] at hi

theorem Dead.of_serves (h : Dead s) {req : Request} {reply : Reply}
    (hs : Serves s (req, reply) s') : Dead s' ∧ reply.ret = req.deadRet := by
  cases req with
  | set msg choice =>
    obtain ⟨ret, hset, rfl⟩ := serves_set_iff.mp hs
    rw [h.doClipboardSet_eq] at hset
    split at hset
    · obtain ⟨rfl, rfl⟩ := Prod.mk.inj (Except.ok.inj hset)
      exact ⟨h, rfl⟩
    · cases hset
  | lock msg =>
    obtain ⟨ret, hlock, rfl⟩ := serves_lock_iff.mp hs
    refine ⟨h.of_sameIds (sameIds_of_lock hlock), ?_⟩
    by_cases hid : msg.id.toNat < bufMaxCount
    · have hempty := ((sameButLocks_unlocked s msg.pid.toInt32).sameIds.empty_iff
        ⟨msg.id.toNat, hid⟩).mpr (h.empty _)
      rw [doClipboardLock_eq msg hid, if_neg (by simp [hempty])] at hlock
      exact (Prod.mk.inj (Except.ok.inj hlock)).1.symm
    · rw [doClipboardLock_of_le msg (Nat.not_lt.mp hid)] at hlock
      cases hlock
  | get pid msg =>
    obtain ⟨r, hget, rfl⟩ := serves_get_iff.mp hs
    rw [doClipboardGet_of_none (h.lock?_eq_none pid)] at hget
    obtain ⟨rfl, rfl⟩ := Prod.mk.inj (Except.ok.inj hget)
    exact ⟨h, rfl⟩
  | query size =>
    obtain ⟨ret, hquery, rfl⟩ := serves_query_iff.mp hs
    refine ⟨eq_of_query hquery ▸ h, ?_⟩
    rw [Request.deadRet]
    split
    · rename_i hid
      rw [pidQuery_of_lt hid, h.sourcePid] at hquery
      exact (Prod.mk.inj (Except.ok.inj hquery)).1.symm
    · rename_i hid
      rw [pidQuery_of_le (Nat.not_lt.mp hid)] at hquery
      exact (Prod.mk.inj (Except.ok.inj hquery)).1.symm

/-! ## Lives -/

theorem Dead.of_lives {v v' : Service} {l : LifeEvent} (h : Dead v.driver) (hl : Lives v l v') :
    Dead v'.driver := by
  cases hl with
  | request hs => exact (h.of_serves hs).1
  | @liveUpdate s s₁ s' d d₁ d' p choice r r' hsave hinit =>
    obtain ⟨_, e, t, hrestore, hrest⟩ := StoreM.of_bind_ok hinit
    obtain ⟨-, rfl⟩ := of_pure_ok hrest
    have htakes := takes_of_liveUpdate hsave hrestore
    exact ⟨htakes.addr ▸ p.fits, htakes.addr ▸ p.aligned, htakes.availableEntries ▸ h.current,
      fun i ↦ (htakes.empty_iff i).mpr (h.empty i),
      fun i ↦ (htakes.sourcePid i).trans (h.sourcePid i)⟩
  | @crash s s' d d' p choice r hinit =>
    obtain ⟨-, rfl⟩ := of_pure_ok hinit
    exact dead_load₀ p

end Driver

end MinixClipboard
