import MinixClipboard.Driver.Locks
import MinixClipboard.Library.Locality

/-!
# Independent requests commute

A lock request looks through the whole table and may give up a lock on its way to being refused, so
that it is not plain which entries it acts on. It is the entry it names and the one its process has
locked: the scan finds nothing else, and what other processes do changes nothing of what it finds.
The same goes for a get and the entry its process has locked. Requests that have no entry in common
can therefore be served in either order.
-/

namespace MinixClipboard

namespace Driver

variable {addr : Addr} {s s' : Driver} {i : Fin bufMaxCount} {p q : Int32} {r : Request}
  {msg : LockMsg}

/-- What can be seen of an entry: its fields, and what it stores. -/
def view (s : Driver) (i : Fin bufMaxCount) : Entry × Option Payload :=
  (s.entries i, LockTable.value s.table i)

/-- The entries a request acts on: the one a lock names, and what its process has locked. Any other
request may act on all of them. -/
def footprint (s : Driver) : Request → Set (Fin bufMaxCount)
  | .lock msg => {i | msg.id.toNat = i ∨ LockedBy s i msg.pid.toInt32}
  | .get pid _ => {i | LockedBy s i pid}
  | _ => Set.univ

/-- The id a lock names is one. -/
def Request.NamesEntry : Request → Prop
  | .lock msg => msg.id.toNat < bufMaxCount
  | _ => True

/-- Process `p` has locked nothing outside of these entries. -/
structure Confined (F : Set (Fin bufMaxCount)) (p : Int32) (s : Driver) : Prop where
  inv : Inv s
  lockedBy : ∀ i, LockedBy s i p → i ∈ F

/-! ## Locks -/

/-- The entry once `p` has given up its lock on it, if it had one. -/
def giveUp (p : Int32) (e : Entry) : Entry :=
  if e.inUse = .locked ∧ e.lockingPid = p then { e with inUse := .used } else e

/-- Whether a lock request is granted, by the entry it names. -/
def Granted (msg : LockMsg) (e : Entry) : Prop :=
  e.inUse = .used ∧ e.decompressedLen ≤ msg.bufferLen

instance (msg : LockMsg) (e : Entry) : Decidable (Granted msg e) :=
  inferInstanceAs (Decidable (_ ∧ _))

/-- The entry a lock request names, once it is served. -/
def lockEntry (msg : LockMsg) (e : Entry) : Entry :=
  if Granted msg e then { e with inUse := .locked, lockingPid := msg.pid.toInt32 } else e

theorem giveUp_of_not_lockedBy (hi : ¬LockedBy s i p) : giveUp p (s.entries i) = s.entries i :=
  if_neg hi

/-- Giving up the first lock found is, entry by entry, giving up whatever is locked. -/
theorem unlocked_entries_eq (hex : s.table.Exclusive) (p : Int32) (i : Fin bufMaxCount) :
    (s.unlocked p).entries i = giveUp p (s.entries i) := by
  by_cases hi : LockedBy s i p
  · have hlock := lock?_eq_some_of_table hex (lockedBy_iff_table.mp hi)
    simp only [unlocked, hlock, update_entries_self]
    exact (if_pos hi).symm
  · rw [giveUp_of_not_lockedBy hi]
    rcases unlocked_entries (s := s) p i with he | ⟨hlock, -⟩
    · exact he
    · exact absurd (of_lock?_eq_some hlock).symm hi

/-- **A lock request, entry by entry.** What becomes of an entry, and the answer, depend on the
entry the request names and on nothing else. -/
theorem serves_lock_spec (hI : Inv s) {k : Fin bufMaxCount} (hid : msg.id.toNat = k) :
    ∃ s', Serves s (.lock msg,
        ⟨if Granted msg (giveUp msg.pid.toInt32 (s.entries k)) then ok else -1, none⟩) s' ∧
      (∀ i, s'.entries i = Function.update (fun j ↦ giveUp msg.pid.toInt32 (s.entries j)) k
        (lockEntry msg (giveUp msg.pid.toInt32 (s.entries k))) i) ∧
      LockTable.value s'.table = LockTable.value s.table := by
  have hlt : msg.id.toNat < bufMaxCount := hid ▸ k.isLt
  have hk : (⟨msg.id.toNat, hlt⟩ : Fin bufMaxCount) = k := Fin.ext hid
  have hentries := unlocked_entries_eq hI.exclusive msg.pid.toInt32
  have hlock : doClipboardLock msg s =
      if Granted msg (giveUp msg.pid.toInt32 (s.entries k)) then
        .ok (ok, (s.unlocked msg.pid.toInt32).lockedAt k msg.pid.toInt32)
      else .ok (-1, s.unlocked msg.pid.toInt32) := by
    rw [doClipboardLock_eq msg hlt, hk, hentries]
    rfl
  by_cases hgrant : Granted msg (giveUp msg.pid.toInt32 (s.entries k))
  · rw [if_pos hgrant] at hlock
    refine ⟨_, serves_lock_iff.mpr ⟨_, hlock, by rw [if_pos hgrant]⟩, fun i ↦ ?_, ?_⟩
    · rw [lockEntry, if_pos hgrant, lockedAt]
      by_cases hik : i = k
      · rw [hik, update_entries_self, Function.update_self, hentries]
      · rw [update_entries_of_ne hik, Function.update_of_ne hik, hentries]
    · -- nothing is put or taken, so what is stored stays
      obtain ⟨-, a, hm, hstep⟩ := serves_refines (e := ⟨s, _, _⟩) hI
        (serves_lock_iff.mpr ⟨_, hlock, rfl⟩)
      exact funext fun i ↦ hstep.value_of_not_touches (by cases hm; exact id)
  · rw [if_neg hgrant] at hlock
    refine ⟨_, serves_lock_iff.mpr ⟨_, hlock, by rw [if_neg hgrant]⟩, fun i ↦ ?_, ?_⟩
    · have hself := Function.update_eq_self k fun j ↦ giveUp msg.pid.toInt32 (s.entries j)
      rw [lockEntry, if_neg hgrant, hentries, hself]
    · rw [table_unlocked hI.exclusive, LockTable.value_release]

theorem actsOn_lock (s : Driver) (hid : msg.id.toNat < bufMaxCount) :
    ∃ a, ActsOn Serves view (footprint s (.lock msg))
      (Confined (footprint s (.lock msg)) msg.pid.toInt32) (.lock msg, a) s := by
  obtain ⟨k, hk⟩ : ∃ k : Fin bufMaxCount, msg.id.toNat = k := ⟨⟨_, hid⟩, rfl⟩
  have hmem : k ∈ footprint s (.lock msg) := Or.inl hk
  refine ⟨⟨if Granted msg (giveUp msg.pid.toInt32 (s.entries k)) then ok else -1, none⟩,
    fun i ↦ (Function.update (fun j ↦ giveUp msg.pid.toInt32 (s.entries j)) k
      (lockEntry msg (giveUp msg.pid.toInt32 (s.entries k))) i, LockTable.value s.table i),
    fun t hG hst ↦ ?_⟩
  obtain ⟨t', hserves, hentries, hvalue⟩ := serves_lock_spec hG.inv hk
  have hentry : ∀ j ∈ footprint s (.lock msg), t.entries j = s.entries j :=
    fun j hj ↦ congrArg Prod.fst (hst hj)
  rw [hentry k hmem] at hserves hentries
  refine ⟨t', hserves, fun i hi ↦ ?_, fun i hi ↦ ?_⟩
  · refine Prod.ext ?_ ((congrFun hvalue i).trans (congrArg Prod.snd (hst hi)))
    rw [view, hentries]
    by_cases hik : i = k
    · simp only [hik, Function.update_self]
    · simp only [Function.update_of_ne hik, hentry i hi]
  · -- off the footprint there is no lock to give up, and the entry is not the one named
    refine Prod.ext ?_ (congrFun hvalue i)
    have hik : i ≠ k := fun h ↦ hi (h ▸ hmem)
    have hlock : ¬LockedBy t i msg.pid.toInt32 := fun h ↦ hi (hG.lockedBy i h)
    rw [view, hentries, Function.update_of_ne hik, giveUp_of_not_lockedBy hlock, view]

/-! ## Gets -/

theorem lock?_of_lockedBy (hI : Inv s) (hi : LockedBy s i p) : s.lock? p = some i :=
  lock?_eq_some_of_table hI.exclusive (lockedBy_iff_table.mp hi)

theorem value_of_lockedBy (hi : LockedBy s i p) :
    LockTable.value s.table i = some (payload s.heap (s.entries i)) :=
  congrArg (Option.map Slot.value) (lockedBy_iff_table.mp hi)

theorem actsOn_get (s : Driver) (p : Int32) (msg : GetMsg) :
    ∃ a, ActsOn Serves view (footprint s (.get p msg))
      (Confined (footprint s (.get p msg)) p) (.get p msg, a) s := by
  cases hlock : s.lock? p with
  | none =>
    -- the footprint is empty, and the scan finds nothing in the other state either
    refine ⟨⟨-1, some msg⟩, s.view, fun t hG hst ↦ ?_⟩
    have hnone : t.lock? p = none := by
      refine lock?_eq_none_iff.mpr fun i hi ↦ ?_
      have hmem := hG.lockedBy i hi.symm
      exact lock?_eq_none_iff.mp hlock i ⟨hmem.2, hmem.1⟩
    exact ⟨t, serves_get_iff.mpr ⟨_, doClipboardGet_of_none hnone msg, rfl⟩, hst, fun _ _ ↦ rfl⟩
  | some k =>
    have hk : LockedBy s k p := (of_lock?_eq_some hlock).symm
    refine ⟨⟨ok, some (deliver msg (payload s.heap (s.entries k)))⟩, Function.update s.view k
      ({ s.entries k with inUse := .empty }, none), fun t hG hst ↦ ?_⟩
    -- the other state has the same entry locked, with the same bytes
    have hentry : t.entries k = s.entries k := congrArg Prod.fst (hst hk)
    have hkt : LockedBy t k p := by rwa [LockedBy, hentry]
    have hpay : payload t.heap (t.entries k) = payload s.heap (s.entries k) := by
      have hval : LockTable.value t.table k = LockTable.value s.table k :=
        congrArg Prod.snd (hst hk)
      rw [value_of_lockedBy hkt, value_of_lockedBy hk] at hval
      exact Option.some_inj.mp hval
    rcases doClipboardGet_spec hG.inv p msg with ⟨hnone, -⟩ | ⟨j, t', hsome, hok, hdel⟩
    · rw [lock?_of_lockedBy hG.inv hkt] at hnone
      simp at hnone
    obtain rfl : k = j := by simpa [lock?_of_lockedBy hG.inv hkt] using hsome
    have hvalue := LockTable.value_update t.table k none
    rw [← hdel.table] at hvalue
    have hother : ∀ i, i ≠ k → t'.view i = t.view i := by
      intro i hik
      rw [view, hdel.entries i hik, hvalue, Function.update_of_ne hik, view]
    refine ⟨t', serves_get_iff.mpr ⟨_, hok, ?_⟩, fun i hi ↦ ?_, fun i hi ↦ ?_⟩
    · rw [← hpay]
      rfl
    · by_cases hik : i = k
      · rw [hik, Function.update_self, view, hdel.entry, hvalue, Function.update_self, hentry]
        rfl
      · rw [Function.update_of_ne hik, hother i hik, hst hi]
    · exact hother i fun h ↦ hi (h ▸ hk)

/-! ## Either order -/

theorem actsOn_of_by (s : Driver) (hby : r.By p) (hname : r.NamesEntry) :
    ∃ a, ActsOn Serves view (footprint s r) (Confined (footprint s r) p) (r, a) s := by
  cases r with
  | lock msg =>
    obtain rfl : msg.pid.toInt32 = p := hby
    exact actsOn_lock s hname
  | get pid msg =>
    obtain rfl : pid = p := hby
    exact actsOn_get s pid msg
  | set msg choice => exact hby.elim
  | query size => exact hby.elim

theorem footprint_of_lockedBy (hby : r.By p) (hi : LockedBy s i p) : i ∈ footprint s r := by
  cases r with
  | lock msg =>
    obtain rfl : msg.pid.toInt32 = p := hby
    exact Or.inr hi
  | get pid msg =>
    obtain rfl : pid = p := hby
    exact hi
  | set msg choice => exact hby.elim
  | query size => exact hby.elim

theorem confined_footprint (hI : Inv s) (hby : r.By p) : Confined (footprint s r) p s :=
  ⟨hI, fun _ hi ↦ footprint_of_lockedBy hby hi⟩

/-- A request of one process has no other process come to lock anything. -/
theorem Confined.of_serves {F : Set (Fin bufMaxCount)} (hF : Confined F q s) (hby : r.By p)
    (hpq : p ≠ q) {a : Reply} (hserves : Serves s (r, a) s') : Confined F q s' := by
  obtain ⟨hI, act, hm, hstep⟩ := serves_refines (e := ⟨s, (r, a), s'⟩) hF.inv hserves
  refine ⟨hI, fun i hi ↦ hF.lockedBy i ?_⟩
  have hnot : ¬act.By q := by
    intro hq
    have hr : r.By q := hm.by hq
    cases r with
    | lock msg => exact hpq (Eq.trans (Eq.symm hby) hr)
    | get pid msg => exact hpq (Eq.trans (Eq.symm hby) hr)
    | set msg choice => exact hr
    | query size => exact hr
  have hold := hstep.of_holds (lockedBy_iff_table.mp hi) hnot
  obtain ⟨huse, hpid, -⟩ := slotOf_eq_some_some_iff.mp hold
  exact ⟨huse, hpid⟩

theorem table_eq_of_view (h : s.view = s'.view) : s.table = s'.table := by
  funext i
  have hentry : s.entries i = s'.entries i := congrArg Prod.fst (congrFun h i)
  have hvalue : LockTable.value s.table i = LockTable.value s'.table i :=
    congrArg Prod.snd (congrFun h i)
  simp only [LockTable.value, table, slotOf, hentry] at hvalue ⊢
  -- the holder can be read off the entry
  cases huse : (s'.entries i).inUse <;> simp only [huse] at hvalue ⊢
  · exact congrArg (Option.map (Slot.mk · none)) hvalue
  · exact congrArg (Option.map (Slot.mk · (some (s'.entries i).lockingPid))) hvalue

/-- The `EMPTY` slots determine which ids the stack holds, though not their order. -/
theorem below_perm (hI : Inv s) (hI' : Inv s') (h : s.entries = s'.entries) :
    (s.availableEntries.below s.addr).Perm (s'.availableEntries.below s'.addr) := by
  obtain ⟨ids, hids⟩ := hI.free
  obtain ⟨ids', hids'⟩ := hI'.free
  rw [Stack.below_eq hids.holds, Stack.below_eq hids'.holds]
  refine List.Perm.map _ ((List.perm_ext_iff_of_nodup hids.nodup hids'.nodup).mpr fun i ↦ ?_)
  rw [hids.mem_iff, hids'.mem_iff, h]

/-- **Independent requests commute.** In every state the driver can be brought to, two lock or get
requests of different processes whose footprints are disjoint can be served in either order: each is
answered alike, the table is left alike, and the stacks of free ids hold the same ids. -/
theorem requests_commute (ha : Stack.Fits addr) (hs : Reachable Serves (initial addr) s)
    {r₁ r₂ : Request} (hpq : p ≠ q) (hby₁ : r₁.By p) (hby₂ : r₂.By q) (hname₁ : r₁.NamesEntry)
    (hname₂ : r₂.NamesEntry) (hdisj : ∀ i ∈ footprint s r₁, i ∉ footprint s r₂) :
    ∃ a₁ a₂ s₁ s₂ s₁₂ s₂₁, Serves s (r₁, a₁) s₁ ∧ Serves s₁ (r₂, a₂) s₁₂ ∧
      Serves s (r₂, a₂) s₂ ∧ Serves s₂ (r₁, a₁) s₂₁ ∧ s₁₂.entries = s₂₁.entries ∧
      s₁₂.table = s₂₁.table ∧
      (s₁₂.availableEntries.below s₁₂.addr).Perm (s₂₁.availableEntries.below s₂₁.addr) := by
  have hI := inv_of_reachable ha hs
  have hF₁ := confined_footprint hI hby₁
  have hF₂ := confined_footprint hI hby₂
  obtain ⟨a₁, hact₁⟩ := actsOn_of_by s hby₁ hname₁
  obtain ⟨a₂, hact₂⟩ := actsOn_of_by s hby₂ hname₂
  obtain ⟨s₁, s₂, s₁₂, s₂₁, hs₁, hs₁₂, hs₂, hs₂₁, hview⟩ := hact₁.commute hact₂ hdisj hF₁ hF₂
    (fun _ ht ↦ hF₂.of_serves hby₁ hpq ht) fun _ ht ↦ hF₁.of_serves hby₂ hpq.symm ht
  have hentries : s₁₂.entries = s₂₁.entries :=
    funext fun i ↦ congrArg Prod.fst (congrFun hview i)
  refine ⟨a₁, a₂, s₁, s₂, s₁₂, s₂₁, hs₁, hs₁₂, hs₂, hs₂₁, hentries, table_eq_of_view hview, ?_⟩
  exact below_perm (inv_of_reachable ha ((hs.next hs₁).next hs₁₂))
    (inv_of_reachable ha ((hs.next hs₂).next hs₂₁)) hentries

/-- The driver once process 8 has stored a byte as well. -/
def sampleOther : Driver := after (.set ⟨8, 1, 1, fun _ ↦ 120⟩ (some 16)) sampleLocked

set_option maxRecDepth 10000 in
/-- Process 7 gets the entry it has locked, and process 8 locks its own. -/
theorem requests_commute_sample : ∃ a₁ a₂ s₁ s₂ s₁₂ s₂₁,
    Serves sampleOther (.get 7 ⟨0, 0, fun _ ↦ 0⟩, a₁) s₁ ∧
      Serves s₁ (.lock ⟨8, 98, 1⟩, a₂) s₁₂ ∧
      Serves sampleOther (.lock ⟨8, 98, 1⟩, a₂) s₂ ∧
      Serves s₂ (.get 7 ⟨0, 0, fun _ ↦ 0⟩, a₁) s₂₁ ∧ s₁₂.entries = s₂₁.entries ∧
      s₁₂.table = s₂₁.table ∧
      (s₁₂.availableEntries.below s₁₂.addr).Perm (s₂₁.availableEntries.below s₂₁.addr) := by
  have hset : Serves sampleLocked (.set ⟨8, 1, 1, fun _ ↦ 120⟩ (some 16), ⟨98, none⟩) sampleOther :=
    rfl
  have ha : Stack.Fits 4096 := by decide
  have hs := ((Reachable.refl.next serves_sampleSet).next serves_sampleLock).next hset
  have hheld : LockedBy sampleOther 99 7 := ⟨rfl, rfl⟩
  refine requests_commute ha hs (show (7 : Int32) ≠ (8 : UInt32).toInt32 by decide) rfl rfl trivial
    (show (98 : UInt32).toNat < bufMaxCount by decide) fun i hi hi' ↦ ?_
  -- process 7 has locked entry 99 and nothing else, process 8 nothing
  obtain rfl : i = 99 := (inv_of_reachable ha hs).exclusive (lockedBy_iff_table.mp hi)
    (lockedBy_iff_table.mp hheld)
  rcases hi' with hid | hlock
  · exact absurd hid (by decide)
  · exact absurd (hlock.2.symm.trans hheld.2) (by decide)

end Driver

end MinixClipboard
