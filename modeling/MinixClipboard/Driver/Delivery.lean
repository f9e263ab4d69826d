import MinixClipboard.Driver.FreeSlots

/-!
# Delivery

What the table says of the driver once its runs are read back in terms of requests and answers:
every get delivers one set, unaltered and only once, and a lock is kept until its holder asks for
something else.
-/

namespace MinixClipboard

namespace Driver

variable {addr : Addr} {s s' : Driver} {e : Event Driver (Request × Reply)}
  {h : List (Event Driver (Request × Reply))} {i : Fin bufMaxCount}
  {a : LockTable.Action (Fin bufMaxCount) Int32 Payload}

/-! ## Successful sets and gets -/

/-- A set of this message that returned this id. -/
def SetAt (i : Fin bufMaxCount) (msg : SetMsg) (e : Event Driver (Request × Reply)) : Prop :=
  ∃ choice, e.label = (.set msg choice, ⟨(i : ℕ), none⟩)

/-- A successful get that emptied this slot and left this message. -/
structure GetAt (i : Fin bufMaxCount) (out : GetMsg) (e : Event Driver (Request × Reply)) :
    Prop where
  label : ∃ pid msg, e.label = (.get pid msg, ⟨ok, some out⟩)
  pre : (e.pre.entries i).inUse ≠ .empty
  post : (e.post.entries i).inUse = .empty

def isSet (e : Event Driver (Request × Reply)) : Bool :=
  match e.label with
  | (.set _ _, r) => 0 ≤ r.ret
  | _ => false

def isGet (e : Event Driver (Request × Reply)) : Bool :=
  match e.label with
  | (.get _ _, r) => r.ret == ok
  | _ => false

theorem Means.isSet_eq (hm : Means e a) : isSet e = a.isPut := by
  cases hm <;> simp [isSet, LockTable.Action.isPut]

theorem Means.isGet_eq (hm : Means e a) : isGet e = a.isTake := by
  cases hm <;> simp [isGet, LockTable.Action.isTake]

theorem Means.of_setAt {msg : SetMsg} (hm : Means e a) (he : SetAt i msg e) :
    ∃ a', a = .put i (setPayload msg a') := by
  obtain ⟨choice, hl⟩ := he
  cases hm with
  | put k a' =>
    obtain ⟨⟨rfl, -⟩, hk⟩ : (_ = msg ∧ _ = choice) ∧ k = i := by
      simpa [Fin.ext_iff] using hl
    exact ⟨a', by rw [hk]⟩
  | full => simp at hl
  | _ => simp at hl

theorem Means.setAt {v : Payload} (hm : Means e (.put i v)) :
    ∃ msg a', v = setPayload msg a' ∧ SetAt i msg e := by
  cases hm with
  | @put _ _ msg choice _ a' => exact ⟨msg, a', rfl, choice, rfl⟩

theorem Means.of_isGet {pid : Int32} {msg out : GetMsg} (hm : Means e a)
    (hl : e.label = (.get pid msg, ⟨ok, some out⟩)) :
    ∃ i v, a = .take pid i ∧ e.pre.table i = some ⟨v, some pid⟩ ∧ out = deliver msg v := by
  cases hm with
  | take i v hi =>
    obtain ⟨⟨rfl, rfl⟩, rfl⟩ : (_ = pid ∧ _ = msg) ∧ deliver _ v = out := by simpa using hl
    exact ⟨i, v, rfl, hi, rfl⟩
  | _ => simp [ok] at hl

theorem deliver_setPayload (msg : GetMsg) (smsg : SetMsg) (a : Addr) :
    (deliver msg (setPayload smsg a)).bufferLen = smsg.bufferLen ∧
      (deliver msg (setPayload smsg a)).decompressedLen = smsg.decompressedLen ∧
      (deliver msg (setPayload smsg a)).buffer.bytes smsg.bufferLen.toNat
        = smsg.buffer.bytes smsg.bufferLen.toNat := by
  refine ⟨rfl, rfl, ?_⟩
  have hwrite := Memory.bytes_write msg.buffer (setBytes smsg)
  rw [length_setBytes] at hwrite
  exact hwrite

/-! ## Every get delivers one set -/

/-- The get at index `j` of a history delivers the set at index `k`: the latest one that returned
the slot the get empties. -/
structure Delivery (h : List (Event Driver (Request × Reply))) (k j : ℕ) (i : Fin bufMaxCount)
    (smsg : SetMsg) (out : GetMsg) : Prop where
  lt : k < j
  set : ∃ e, h[k]? = some e ∧ SetAt i smsg e
  get : ∃ e, h[j]? = some e ∧ GetAt i out e
  latest : ∀ m, k < m → m < j → ∀ e, h[m]? = some e → ∀ smsg', ¬SetAt i smsg' e
  bufferLen : out.bufferLen = smsg.bufferLen
  decompressedLen : out.decompressedLen = smsg.decompressedLen
  bytes : out.buffer.bytes smsg.bufferLen.toNat = smsg.buffer.bytes smsg.bufferLen.toNat

section History

variable {h' : List (Event (LockTable (Fin bufMaxCount) Int32 Payload)
  (LockTable.Action (Fin bufMaxCount) Int32 Payload))}

/-- A successful get is a take, seen from both histories. -/
theorem exists_take_of_isGet (hrun : Run LockTable.Step LockTable.empty h' s.table)
    (hall : List.Forall₂ (Event.Matches table Means) h h') {j : ℕ} {pid : Int32} {msg out : GetMsg}
    (hj : h[j]? = some e) (hl : e.label = (.get pid msg, ⟨ok, some out⟩)) :
    ∃ i v e', h'[j]? = some e' ∧ e'.label = .take pid i ∧ LockTable.value e'.pre i = some v ∧
      out = deliver msg v ∧ ∀ i', GetAt i' out e ↔ i' = i := by
  obtain ⟨⟨t, a, t'⟩, hj', rfl, rfl, hm⟩ := hall.exists_getElem? hj
  obtain ⟨i, v, rfl, hi, hout⟩ := Means.of_isGet hm hl
  have hpost : e.post.table = Function.update e.pre.table i none := (hrun.event hj').2.of_take.2
  refine ⟨i, v, _, hj', rfl, congrArg (Option.map Slot.value) hi, hout, fun i' ↦
    ⟨fun hget ↦ ?_, ?_⟩⟩
  · by_contra hne
    refine hget.pre (table_eq_none_iff.mp ?_)
    rw [← Function.update_of_ne hne none e.pre.table, ← hpost, table_eq_none_iff]
    exact hget.post
  · rintro rfl
    refine ⟨⟨pid, msg, hl⟩, fun hempty ↦ ?_, table_eq_none_iff.mp ?_⟩
    · rw [table_eq_none_iff.mpr hempty] at hi
      simp at hi
    · rw [hpost, Function.update_self]

theorem setAt_of_put (hall : List.Forall₂ (Event.Matches table Means) h h') {k : ℕ} {v : Payload}
    (hk : (h'[k]?).map Event.label = some (.put i v)) :
    ∃ e smsg a, h[k]? = some e ∧ SetAt i smsg e ∧ v = setPayload smsg a := by
  obtain ⟨e', hk', hl⟩ := Option.map_eq_some_iff.mp hk
  obtain ⟨e, hke, hmatch⟩ := hall.flip.exists_getElem? hk'
  obtain ⟨smsg, a, rfl, hset⟩ := Means.setAt (hl ▸ hmatch.label)
  exact ⟨e, smsg, a, hke, hset, rfl⟩

theorem put_of_setAt (hall : List.Forall₂ (Event.Matches table Means) h h') {k : ℕ} {smsg : SetMsg}
    (hk : h[k]? = some e) (hset : SetAt i smsg e) :
    ∃ a, (h'[k]?).map Event.label = some (.put i (setPayload smsg a)) := by
  obtain ⟨e', hk', hmatch⟩ := hall.exists_getElem? hk
  obtain ⟨a, hl⟩ := Means.of_setAt hmatch.label hset
  exact ⟨a, by rw [hk', Option.map_some, hl]⟩

/-- A successful get delivers the set its slot's contents come from. -/
theorem delivery_of_sources (hall : List.Forall₂ (Event.Matches table Means) h h') {k j : ℕ}
    {v : Payload} {msg : GetMsg} (hs : LockTable.Sources h' i v k j) (hj : h[j]? = some e)
    (hget : GetAt i (deliver msg v) e) : ∃ smsg, Delivery h k j i smsg (deliver msg v) := by
  obtain ⟨f, smsg, a, hk, hset, rfl⟩ := setAt_of_put hall hs.put
  obtain ⟨hlen, hdec, hbytes⟩ := deliver_setPayload msg smsg a
  refine ⟨smsg, hs.lt, ⟨f, hk, hset⟩, ⟨e, hj, hget⟩, fun m hkm hmj g hg smsg' hset' ↦ ?_, hlen,
    hdec,
    hbytes⟩
  obtain ⟨b, hput⟩ := put_of_setAt hall hg hset'
  obtain ⟨g', hg', hl⟩ := Option.map_eq_some_iff.mp hput
  exact hs.untouched m hkm hmj g' hg' (by rw [hl]; exact rfl)

theorem sources_of_delivery (hrun : Run LockTable.Step LockTable.empty h' s.table)
    (hall : List.Forall₂ (Event.Matches table Means) h h') {k j : ℕ} {smsg : SetMsg} {out : GetMsg}
    (hd : Delivery h k j i smsg out) :
    ∃ v pid e', LockTable.Sources h' i v k j ∧ h'[j]? = some e' ∧ e'.label = .take pid i := by
  obtain ⟨e, hj, hget⟩ := hd.get
  obtain ⟨pid, msg, hl⟩ := hget.label
  obtain ⟨i', v, e', hj', hl', hv, -, hiff⟩ := exists_take_of_isGet hrun hall hj hl
  obtain rfl := (hiff i).mp hget
  obtain ⟨k', hs⟩ := LockTable.exists_source_of_event hrun hj' hv
  obtain ⟨f, hk, hset⟩ := hd.set
  obtain ⟨a, hput⟩ := put_of_setAt hall hk hset
  obtain rfl : k' = k := by
    refine hs.eq_of_latest hd.lt hput fun m hkm hmj w hw ↦ ?_
    obtain ⟨g, smsg', b, hg, hset', -⟩ := setAt_of_put hall hw
    exact hd.latest m hkm hmj g hg smsg' hset'
  exact ⟨v, pid, e', hs, hj', hl'⟩

end History

/-- What exactly-once delivery says of a history and the state it leads to. -/
structure ExactlyOnce (h : List (Event Driver (Request × Reply))) (s : Driver) : Prop where
  /-- Every successful get delivers a set. -/
  delivered : ∀ j e pid msg out, h[j]? = some e → e.label = (.get pid msg, ⟨ok, some out⟩) →
    ∃ k i smsg, Delivery h k j i smsg out
  /-- No set is delivered by two gets. -/
  once : ∀ k j j' i i' smsg smsg' out out', Delivery h k j i smsg out →
    Delivery h k j' i' smsg' out' → j = j'
  /-- What was stored and not delivered is still there. -/
  conserved : h.countP isSet = h.countP isGet + s.occupied.card

/-- **Exactly once.** In every run of the driver, every successful get delivers, unaltered, the
latest set that returned the slot it empties; no set is delivered by two gets; and the successful
sets are the successful gets and what is still stored. -/
theorem exactlyOnce_of_run (ha : Stack.Fits addr) (hrun : Run Serves (initial addr) h s) :
    ExactlyOnce h s := by
  obtain ⟨-, h', hrun', hall⟩ := run_refines ha hrun
  refine ⟨fun j e pid msg out hj hl ↦ ?_, fun k j j' i i' smsg smsg' out out' hd hd' ↦ ?_, ?_⟩
  · obtain ⟨i, v, e', hj', -, hv, rfl, hiff⟩ := exists_take_of_isGet hrun' hall hj hl
    obtain ⟨k, hs⟩ := LockTable.exists_source_of_event hrun' hj' hv
    obtain ⟨smsg, hd⟩ := delivery_of_sources hall hs hj ((hiff i).mpr rfl)
    exact ⟨k, i, smsg, hd⟩
  · obtain ⟨v, pid, e, hs, hj, hl⟩ := sources_of_delivery hrun' hall hd
    obtain ⟨v', pid', e', hs', hj', hl'⟩ := sources_of_delivery hrun' hall hd'
    exact hs.take_unique hs' hj hj' hl hl'
  · rw [hall.countP_eq fun _ _ hm ↦ Means.isSet_eq hm.label,
      hall.countP_eq fun _ _ hm ↦ Means.isGet_eq hm.label, ← live_table]
    exact LockTable.countP_isPut_of_run hrun'

def sampleSet : Request := .set ⟨7, 2, 2, fun k ↦ if k = 0 then 97 else 98⟩ (some 8)

def sampleLock : Request := .lock ⟨7, 99, 2⟩

/-- The driver once process 7 has stored two bytes and locked them. -/
def sampleLocked : Driver := after sampleLock (after sampleSet (initial 4096))

theorem serves_sampleSet :
    Serves (initial 4096) (sampleSet, ⟨99, none⟩) (after sampleSet (initial 4096)) := rfl

set_option maxRecDepth 10000 in
theorem serves_sampleLock :
    Serves (after sampleSet (initial 4096)) (sampleLock, ⟨ok, none⟩) sampleLocked := rfl

set_option maxRecDepth 10000 in
theorem exactlyOnce_sample : ∃ h s, Run Serves (initial 4096) h s ∧ h.countP isGet = 1 ∧
    ExactlyOnce h s := by
  have hget : Serves sampleLocked (.get 7 ⟨0, 0, fun _ ↦ 0⟩, ⟨ok, some _⟩)
      (after (.get 7 ⟨0, 0, fun _ ↦ 0⟩) sampleLocked) := rfl
  have hrun := ((Run.nil.snoc serves_sampleSet).snoc serves_sampleLock).snoc hget
  exact ⟨_, _, hrun, rfl, exactlyOnce_of_run (by decide) hrun⟩

end Driver

end MinixClipboard
