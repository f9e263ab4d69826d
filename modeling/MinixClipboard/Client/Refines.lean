import MinixClipboard.Client.Stages

/-!
# The library functions implement a clipboard

A clipboard is a partial map from ids to what was copied and by whom: copying binds a free id,
pasting takes a binding away, and only somebody the owner permits, with a buffer as long as the
announced length, can paste. Processes that make their library calls one after another see just
this, although one call is up to three device requests whose meaning is packed into a size.

What makes it so is that between complete calls nobody holds a lock. A lock that was granted is
followed by a get, and the get finds it.
-/

namespace MinixClipboard

open Fallible Program Driver

/-! ## The clipboard -/

/-- What was copied and by whom, by id. -/
abbrev Clip := Fin bufMaxCount → Option (Int32 × List CChar)

/-- A library call of a process, with its result, as a step of a clipboard. -/
inductive ClipStep (ancestor : Int32 → Int32 → Bool) :
    Clip → Int32 × LibCall × Result → Clip → Prop
  /-- A copy binds an id that was not bound. -/
  | copy {m : Clip} {p : Int32} {buffer : Memory} {bufferLen : UInt32} (i : Fin bufMaxCount) :
      bufferLen.toNat ≤ entryLenLimit → m i = none →
        ClipStep ancestor m (p, .copy buffer bufferLen, .copied (UInt32.ofNat i.val))
          (Function.update m i (some (p, buffer.bytes bufferLen.toNat)))
  /-- A copy to a full clipboard. -/
  | full {m : Clip} {p : Int32} {buffer : Memory} {bufferLen : UInt32} :
      bufferLen.toNat ≤ entryLenLimit → (∀ i, m i ≠ none) →
        ClipStep ancestor m (p, .copy buffer bufferLen, .copied (-1)) m
  /-- A copy of more than an entry can hold. -/
  | long {m : Clip} {p : Int32} {buffer : Memory} {bufferLen : UInt32} :
      entryLenLimit < bufferLen.toNat →
        ClipStep ancestor m (p, .copy buffer bufferLen, .copied (-1)) m
  /-- A paste takes a binding away. -/
  | paste {m : Clip} {p : Int32} {id bufferLen : UInt32} {i : Fin bufMaxCount} {owner : Int32}
      {bytes : List CChar} :
      id.toNat = i → m i = some (owner, bytes) → Permits ancestor owner p →
      expectedDecompressedSize bytes ≤ bufferLen →
        ClipStep ancestor m (p, .paste id bufferLen, .pasted 0 bytes) (Function.update m i none)
  /-- A paste that is refused. -/
  | refused {m : Clip} {p : Int32} {id bufferLen : UInt32} :
      (∀ (i : Fin bufMaxCount) (owner : Int32) (bytes : List CChar), id.toNat = i →
        m i = some (owner, bytes) → Permits ancestor owner p →
          ¬expectedDecompressedSize bytes ≤ bufferLen) →
        ClipStep ancestor m (p, .paste id bufferLen, .pasted (-1) []) m

/-- What a paste of a bound id can come to: it delivers the binding, or its process or its buffer is
not good enough. -/
theorem ClipStep.of_paste {ancestor : Int32 → Int32 → Bool} {m m' : Clip} {p owner : Int32}
    {id bufferLen : UInt32} {r : Result} {i : Fin bufMaxCount} {bytes : List CChar}
    (h : ClipStep ancestor m (p, .paste id bufferLen, r) m') (hid : id.toNat = i)
    (hi : m i = some (owner, bytes)) : r = .pasted 0 bytes ∨
      (Permits ancestor owner p → ¬expectedDecompressedSize bytes ≤ bufferLen) := by
  cases h with
  | paste hj hbound =>
    obtain rfl := Fin.ext (hid.symm.trans hj)
    obtain ⟨-, rfl⟩ : owner = _ ∧ bytes = _ := by simpa using hi.symm.trans hbound
    exact Or.inl rfl
  | refused hnot => exact Or.inr (hnot i owner bytes hid hi)

theorem ClipStep.of_copy {ancestor : Int32 → Int32 → Bool} {m m' : Clip} {p : Int32}
    {buffer : Memory} {bufferLen r : UInt32}
    (h : ClipStep ancestor m (p, .copy buffer bufferLen, .copied r) m') : r = -1 ∨
      ∃ i : Fin bufMaxCount, r = UInt32.ofNat i.val ∧ m i = none ∧
        m' = Function.update m i (some (p, buffer.bytes bufferLen.toNat)) := by
  cases h with
  | copy i _ hi => exact Or.inr ⟨i, rfl, hi, rfl⟩
  | full | long => exact Or.inl rfl

/-- The clipboard a driver implements. -/
def clip (s : Driver) : Clip := fun i ↦
  (LockTable.value s.table i).map fun v ↦ (v.sourcePid, v.bytes)

/-- The states between complete library calls: nobody holds a lock, and every entry has been stored
by a copy. -/
structure Quiet (s : Driver) : Prop where
  inv : Inv s
  unheld : ∀ i e, s.table i = some e → e.holder = none
  copied : ∀ i v, LockTable.value s.table i = some v → 0 < v.sourcePid ∧
    v.bufferLen.toNat ≤ entryLenLimit ∧ v.decompressedLen = expectedDecompressedSize v.bytes

variable {ancestor : Int32 → Int32 → Bool} {env : Env} {addr : Addr} {p : Int32} {s s' : Driver}
  {i : Fin bufMaxCount}

theorem quiet_initial (ha : Stack.Fits addr) : Quiet (initial addr) where
  inv := inv_initial ha
  unheld i e he := by simp [table_initial, LockTable.empty] at he
  copied i v hv := by simp [LockTable.value, table_initial, LockTable.empty] at hv

theorem Quiet.release (hQ : Quiet s) (p : Int32) : LockTable.release p s.table = s.table := by
  funext i
  rw [LockTable.release]
  cases hi : s.table i with
  | none => rfl
  | some e => rw [Option.map_some, if_neg (by rw [hQ.unheld i e hi]; simp)]

theorem Quiet.table_of_used (hQ : Quiet s) (hi : (s.entries i).inUse ≠ .empty) :
    s.table i = some ⟨payload s.heap (s.entries i), none⟩ := by
  cases huse : (s.entries i).inUse with
  | empty => exact absurd huse hi
  | used => exact slotOf_of_used huse
  | locked =>
    have hl := slotOf_of_locked (h := s.heap) huse
    have hn := hQ.unheld i _ hl
    simp at hn

theorem clip_eq_none_iff : clip s i = none ↔ (s.entries i).inUse = .empty := by
  rw [clip, Option.map_eq_none_iff, LockTable.value, Option.map_eq_none_iff, table_eq_none_iff]

theorem Quiet.clip_of_used (hQ : Quiet s) (hi : (s.entries i).inUse ≠ .empty) :
    clip s i = some ((s.entries i).sourcePid, s.heap.contents (s.entries i).buffer) := by
  rw [clip, LockTable.value, hQ.table_of_used hi]
  rfl

theorem clip_update {a : Option (Slot Int32 Payload)}
    (htable : s'.table = Function.update s.table i a) :
    clip s' = Function.update (clip s) i
      ((a.map Slot.value).map fun v ↦ (v.sourcePid, v.bytes)) := by
  funext j
  rw [clip, htable, LockTable.value_update]
  exact Function.apply_update (fun _ ↦ Option.map fun v : Payload ↦ (v.sourcePid, v.bytes))
    (LockTable.value s.table) i _ j

/-! ## Copy -/

theorem quiet_of_accepts (hQ : Quiet s) (hp : 0 < p) {msg : SetMsg} {a : Addr}
    (hacc : Accepts s i msg a s')
    {buffer : Memory} {bufferLen : UInt32} (hlen : bufferLen.toNat ≤ entryLenLimit)
    (hpay : setPayload msg a = copyPayload p buffer bufferLen a) :
    Quiet s' ∧ clip s' = Function.update (clip s) i (some (p, buffer.bytes bufferLen.toNat)) := by
  have htable := hacc.table
  rw [hpay] at htable
  refine ⟨⟨hacc.inv, fun j e he ↦ ?_, fun j v hv ↦ ?_⟩, clip_update htable⟩
  · rw [htable] at he
    by_cases hji : j = i
    · subst hji
      rw [Function.update_self, Option.some_inj] at he
      subst he
      rfl
    · rw [Function.update_of_ne hji] at he
      exact hQ.unheld j e he
  · rw [htable, LockTable.value_update] at hv
    by_cases hji : j = i
    · subst hji
      rw [Function.update_self, Option.map_some, Option.some_inj] at hv
      subst hv
      exact ⟨hp, hlen, rfl⟩
    · rw [Function.update_of_ne hji] at hv
      exact hQ.copied j v hv

/-- A library call completes, and is a step of the clipboard. -/
def Completes (ancestor : Int32 → Int32 → Bool) (env : Env) (p : Int32) (s : Driver)
    (c : LibCall) (locals : Locals) : Prop :=
  ∃ r s', exec (handle ancestor env p) (c.program locals) s = .ok (r, s') ∧ Quiet s' ∧
    ClipStep ancestor (clip s) (p, c, r) (clip s')

theorem completes_copy (hQ : Quiet s) (hp : 0 < p) (hfd : 0 ≤ env.fd) (buffer : Memory)
    (bufferLen : UInt32) (locals : Locals) :
    Completes ancestor env p s (.copy buffer bufferLen) locals ∨
      ¬s.heap.Succeeds env.choice ∧
        exec (handle ancestor env p) ((LibCall.copy buffer bufferLen).program locals) s
          = .error .pointer := by
  rcases exec_copy ancestor p hQ.inv hfd buffer bufferLen locals with
    ⟨hlong, hexec⟩ | ⟨hlen, ⟨hfull, hexec⟩ | ⟨i, hi, ⟨a, s', hexec, hacc, hpay⟩ | hbad⟩⟩
  · exact Or.inl ⟨_, s, hexec, hQ, .long hlong⟩
  · exact Or.inl ⟨_, s, hexec, hQ, .full hlen fun i ↦ clip_eq_none_iff.not.mpr (hfull i)⟩
  · obtain ⟨hQ', hclip⟩ := quiet_of_accepts hQ hp hacc hlen hpay
    refine Or.inl ⟨_, s', hexec, hQ', ?_⟩
    rw [hclip]
    exact .copy i hlen (clip_eq_none_iff.mpr hi)
  · exact Or.inr hbad

/-! ## Paste -/

theorem Quiet.lock?_eq_none (hQ : Quiet s) (p : Int32) : s.lock? p = none := by
  cases hlock : s.lock? p with
  | none => rfl
  | some i =>
    have hn := hQ.unheld i _ (table_of_lock?_eq_some hlock)
    simp at hn

theorem Quiet.unlocked (hQ : Quiet s) (p : Int32) : s.unlocked p = s := by
  rw [Driver.unlocked, hQ.lock?_eq_none]

theorem quiet_of_table (hQ : Quiet s) (hI' : Inv s')
    (htable : s'.table = Function.update s.table i none) :
    Quiet s' ∧ clip s' = Function.update (clip s) i none := by
  have hne : ∀ j x, s'.table j = some x → j ≠ i ∧ s.table j = some x := by
    intro j x hx
    rw [htable] at hx
    have hji : j ≠ i := by
      rintro rfl
      simp at hx
    exact ⟨hji, by rwa [Function.update_of_ne hji] at hx⟩
  refine ⟨⟨hI', fun j e he ↦ hQ.unheld j e (hne j e he).2, fun j v hv ↦ ?_⟩, clip_update htable⟩
  obtain ⟨e, he, rfl⟩ := Option.map_eq_some_iff.mp hv
  exact hQ.copied j _ (congrArg (Option.map Slot.value) (hne j e he).2)

/-- What a binding says of its entry. -/
structure Binds (s : Driver) (i : Fin bufMaxCount) (owner : Int32) (bytes : List CChar) : Prop where
  used : (s.entries i).inUse = .used
  sourcePid : (s.entries i).sourcePid = owner
  contents : s.heap.contents (s.entries i).buffer = bytes
  positive : 0 < owner
  bufferLen : (s.entries i).bufferLen.toNat ≤ entryLenLimit
  decompressedLen : (s.entries i).decompressedLen = expectedDecompressedSize bytes

theorem Quiet.binds (hQ : Quiet s) (hi : (s.entries i).inUse ≠ .empty) :
    Binds s i (s.entries i).sourcePid (s.heap.contents (s.entries i).buffer) := by
  have htable := hQ.table_of_used hi
  obtain ⟨hpos, hlen, hdec⟩ := hQ.copied i _ (congrArg (Option.map Slot.value) htable)
  exact ⟨(slotOf_eq_some_none_iff.mp htable).1, rfl, rfl, hpos, hlen, hdec⟩

theorem Quiet.binds_of_clip (hQ : Quiet s) {owner : Int32} {bytes : List CChar}
    (hi : clip s i = some (owner, bytes)) : Binds s i owner bytes := by
  have huse : (s.entries i).inUse ≠ .empty := fun he ↦ by
    rw [clip_eq_none_iff.mpr he] at hi
    simp at hi
  rw [hQ.clip_of_used huse, Option.some_inj, Prod.mk.injEq] at hi
  obtain ⟨rfl, rfl⟩ := hi
  exact hQ.binds huse

/-- When a paste of entry `i` by `p` is granted. -/
structure Grants (ancestor : Int32 → Int32 → Bool) (p : Int32) (s : Driver) (i : Fin bufMaxCount)
    (bufferLen : UInt32) : Prop where
  used : (s.entries i).inUse = .used
  permits : Permits ancestor (s.entries i).sourcePid p
  le : (s.entries i).decompressedLen ≤ bufferLen

theorem clipStep_refused (hQ : Quiet s) {id bufferLen : UInt32} (hid : id.toNat = i)
    (hnot : ¬Grants ancestor p s i bufferLen) :
    ClipStep ancestor (clip s) (p, .paste id bufferLen, .pasted (-1) []) (clip s) := by
  refine .refused fun j owner bytes hj hbound hperm hle ↦ hnot ?_
  obtain rfl : j = i := Fin.ext (hj.symm.trans hid)
  have hbinds := hQ.binds_of_clip hbound
  exact ⟨hbinds.used, by rw [hbinds.sourcePid]; exact hperm,
    by rw [hbinds.decompressedLen]; exact hle⟩

variable (ancestor env) in
/-- **What is left of a paste that is permitted**, in a quiet state: the entry is taken if it is in
use and the buffer is as long as was announced. -/
theorem exec_pasteLock (hQ : Quiet s) (hp : 0 < p) {id : UInt32} (hid : id.toNat = i)
    (bufferLen : UInt32) (locals : Locals) (fd : Int32) (mg : GetMsg) :
    ((s.entries i).inUse = .used ∧ (s.entries i).decompressedLen ≤ bufferLen →
      ∃ s', exec (handle ancestor env p) (pasteLock id bufferLen locals fd p mg) s
          = .ok (.pasted 0 (s.heap.contents (s.entries i).buffer), s') ∧
        Quiet s' ∧ clip s' = Function.update (clip s) i none ∧
        ∀ ids, FreeIds s ids → FreeIds s' (ids ++ [i])) ∧
    (¬((s.entries i).inUse = .used ∧ (s.entries i).decompressedLen ≤ bufferLen) →
      exec (handle ancestor env p) (pasteLock id bufferLen locals fd p mg) s
        = .ok (.pasted (-1) [], s)) := by
  have hlt : id.toNat < bufMaxCount := hid ▸ i.isLt
  have hi : (⟨id.toNat, hlt⟩ : Fin bufMaxCount) = i := Fin.ext hid
  have hlock : doClipboardLock ⟨p.toUInt32, id, bufferLen⟩ s =
      if (s.entries i).inUse = .used ∧ (s.entries i).decompressedLen ≤ bufferLen then
        .ok (ok, s.lockedAt i p)
      else .ok (-1, s) := by
    rw [doClipboardLock_eq _ hlt, hQ.unlocked, hi]
    rfl
  refine ⟨fun hgrant ↦ ?_, fun hdeny ↦ ?_⟩
  · rw [if_pos hgrant] at hlock
    have hbinds := hQ.binds (by simp [hgrant.1] : (s.entries i).inUse ≠ .empty)
    obtain ⟨s', hexec, hI', htable, hfree⟩ :=
      exec_pasteGet ancestor env hQ.inv hp hid rfl hlock hbinds.bufferLen fd mg
    rw [hQ.release] at htable
    obtain ⟨hQ', hclip⟩ := quiet_of_table hQ hI' htable
    refine ⟨s', ?_, hQ', hclip, hfree⟩
    rw [pasteLock, exec_of_ok (bind_ok hlock _), if_neg (show ¬Int32.ofInt ok < 0 by decide), hexec]
  · rw [if_neg hdeny] at hlock
    rw [pasteLock, exec_of_ok (bind_ok hlock _), if_pos (show Int32.ofInt (-1) < 0 by decide)]
    rfl

variable (ancestor env) in
/-- **A paste**, in a quiet state, of an id the table has. -/
theorem exec_paste (hQ : Quiet s) (hp : 0 < p) (hfd : 0 ≤ env.fd) {id : UInt32} (hid : id.toNat = i)
    (bufferLen : UInt32) (locals : Locals) :
    (Grants ancestor p s i bufferLen → ∃ s',
      exec (handle ancestor env p) ((LibCall.paste id bufferLen).program locals) s
          = .ok (.pasted 0 (s.heap.contents (s.entries i).buffer), s') ∧
        Quiet s' ∧ clip s' = Function.update (clip s) i none ∧
        ∀ ids, FreeIds s ids → FreeIds s' (ids ++ [i])) ∧
    (¬Grants ancestor p s i bufferLen →
      exec (handle ancestor env p) ((LibCall.paste id bufferLen).program locals) s
        = .ok (.pasted (-1) [], s)) := by
  have hlt : id.toNat < bufMaxCount := hid ▸ i.isLt
  have hi : (⟨id.toNat, hlt⟩ : Fin bufMaxCount) = i := Fin.ext hid
  rw [program_paste, exec_of_ok handle_openDevice, if_neg (Int32.not_lt.mpr hfd),
    if_neg (Nat.not_le.mpr hlt), pasteQuery, exec_of_ok (handle_query hlt _ _), hi]
  -- the query answers from the slot, whether it is in use or not
  by_cases hsrc : (s.entries i).sourcePid < 0
  · rw [if_pos hsrc]
    refine ⟨fun hgrant ↦ ?_, fun _ ↦ rfl⟩
    have hpos := (hQ.binds (by simp [hgrant.used] : (s.entries i).inUse ≠ .empty)).positive
    exact absurd hpos (Int32.not_lt.mpr (Int32.le_of_lt hsrc))
  rw [if_neg hsrc, pasteGetpid, exec_of_ok handle_getpid, pasteCheck,
    exec_of_ok (handle_checkIfAncestor _)]
  by_cases hperm : Permits ancestor (s.entries i).sourcePid p
  swap
  · rw [if_pos (by simpa using hperm)]
    exact ⟨fun hgrant ↦ absurd hgrant.permits hperm, fun _ ↦ rfl⟩
  rw [if_neg (by simpa using hperm)]
  obtain ⟨hgranted, hdenied⟩ :=
    exec_pasteLock ancestor env hQ hp hid bufferLen locals env.fd locals.mg
  exact ⟨fun hgrant ↦ hgranted ⟨hgrant.used, hgrant.le⟩,
    fun hdeny ↦ hdenied fun h ↦ hdeny ⟨h.1, hperm, h.2⟩⟩

variable (ancestor env) in
theorem completes_paste (hQ : Quiet s) (hp : 0 < p) (hfd : 0 ≤ env.fd) (id bufferLen : UInt32)
    (locals : Locals) :
    Completes ancestor env p s (.paste id bufferLen) locals := by
  by_cases hge : id.toNat ≥ bufMaxCount
  · rw [Completes, program_paste, exec_of_ok handle_openDevice, if_neg (Int32.not_lt.mpr hfd),
      if_pos hge]
    exact ⟨_, s, rfl, hQ, .refused fun i _ _ hi ↦ absurd i.isLt (by omega)⟩
  have hlt := Nat.not_le.mp hge
  obtain ⟨i, hid⟩ : ∃ i : Fin bufMaxCount, id.toNat = i := ⟨⟨id.toNat, hlt⟩, rfl⟩
  obtain ⟨hgranted, hdenied⟩ := exec_paste ancestor env hQ hp hfd hid bufferLen locals
  by_cases hgrant : Grants ancestor p s i bufferLen
  · obtain ⟨s', hexec, hQ', hclip, -⟩ := hgranted hgrant
    have hused : (s.entries i).inUse ≠ .empty := by simp [hgrant.used]
    refine ⟨_, s', hexec, hQ', ?_⟩
    rw [hclip]
    refine .paste hid (hQ.clip_of_used hused) hgrant.permits ?_
    rw [← (hQ.binds hused).decompressedLen]
    exact hgrant.le
  · exact ⟨_, s, hdenied hgrant, hQ, clipStep_refused hQ hid hgrant⟩

/-! ## Runs -/

/-- A complete library call of a process, as a step of the driver. -/
def Performs (ancestor : Int32 → Int32 → Bool) (s : Driver) (l : Int32 × LibCall × Result)
    (s' : Driver) : Prop :=
  0 < l.1 ∧ ∃ locals env, 0 ≤ env.fd ∧
    exec (handle ancestor env l.1) (l.2.1.program locals) s = .ok (l.2.2, s')

/-- One library call is one step of the clipboard. -/
theorem performs_refines {e : Event Driver (Int32 × LibCall × Result)} (hQ : Quiet e.pre)
    (h : Performs ancestor e.pre e.label e.post) :
    Quiet e.post ∧ ClipStep ancestor (clip e.pre) e.label (clip e.post) := by
  obtain ⟨s, ⟨p, c, r⟩, s'⟩ := e
  obtain ⟨hp, locals, env, hfd, hexec⟩ := h
  have hcompletes : Completes ancestor env p s c locals := by
    cases c with
    | copy buffer bufferLen =>
      refine (completes_copy hQ hp hfd buffer bufferLen locals).resolve_right fun hbad ↦ ?_
      have habs := hexec.symm.trans hbad.2
      simp at habs
    | paste id bufferLen => exact completes_paste ancestor env hQ hp hfd id bufferLen locals
  obtain ⟨r', t, hexec', hQ', hstep⟩ := hcompletes
  obtain ⟨rfl, rfl⟩ : r' = r ∧ t = s' := by simpa using hexec'.symm.trans hexec
  exact ⟨hQ', hstep⟩

theorem quiet_of_reachable (ha : Stack.Fits addr)
    (hs : Reachable (Performs ancestor) (initial addr) s) : Quiet s :=
  hs.invariant (quiet_initial ha) fun s l s' hQ h ↦
    (performs_refines (e := ⟨s, l, s'⟩) hQ h).1

/-- **The library functions implement a clipboard.** Complete library calls, made one after another,
have the results and leave the stores of a partial map from ids to what was copied and by whom; and
none fails to complete, but for a copy the heap has no room for. -/
theorem library_refines_clipboard (ancestor : Int32 → Int32 → Bool) (ha : Stack.Fits addr) :
    (∀ h s, Run (Performs ancestor) (initial addr) h s →
      ∃ h', Run (ClipStep ancestor) (fun _ ↦ none) h' (clip s) ∧
        List.Forall₂ (Event.Matches clip fun e l ↦ l = e.label) h h') ∧
    ∀ s, Reachable (Performs ancestor) (initial addr) s →
      ∀ (p : Int32) (c : LibCall) (locals : Locals) (env : Env), 0 < p → 0 ≤ env.fd →
      (∀ buffer bufferLen, c = .copy buffer bufferLen → s.heap.Succeeds env.choice) →
        ∃ r s', exec (handle ancestor env p) (c.program locals) s = .ok (r, s') := by
  refine ⟨fun h s hrun ↦ ?_, fun s hs p c locals env hp hfd hmem ↦ ?_⟩
  · refine (hrun.simulate clip (I := Quiet) (quiet_initial ha) fun e hQ h ↦ ?_).2
    exact ⟨(performs_refines hQ h).1, e.label, rfl, (performs_refines hQ h).2⟩
  · have hQ := quiet_of_reachable ha hs
    cases c with
    | copy buffer bufferLen =>
      obtain ⟨r, s', hexec, -⟩ := (completes_copy hQ hp hfd buffer bufferLen locals).resolve_right
        fun hbad ↦ hbad.1 (hmem buffer bufferLen rfl)
      exact ⟨r, s', hexec⟩
    | paste id bufferLen =>
      obtain ⟨r, s', hexec, -⟩ := completes_paste ancestor env hQ hp hfd id bufferLen locals
      exact ⟨r, s', hexec⟩

/-- Locals that hold zeros. -/
def zeroLocals : Locals := ⟨⟨0, 0, fun _ ↦ 0⟩, fun _ ↦ 0⟩

/-- Descriptor 3, zeros in the driver's memory, and a fresh block at this address. -/
def sampleEnv (a : Addr) : Env := ⟨3, some a, ⟨0, 0, fun _ ↦ 0⟩, fun _ ↦ 0⟩

set_option maxRecDepth 10000 in
/-- Process 7 copies two bytes and pastes them. -/
theorem library_refines_clipboard_sample : ∃ h s h',
    Run (Performs fun _ _ ↦ false) (initial 4096) h s ∧
      h.map Event.label = [(7, .copy (fun k ↦ if k = 0 then 65 else 66) 2, .copied 99),
        (7, .paste 99 2, .pasted 0 [65, 66])] ∧
      Run (ClipStep fun _ _ ↦ false) (fun _ ↦ none) h' (clip s) ∧
      List.Forall₂ (Event.Matches clip fun e l ↦ l = e.label) h h' := by
  have hcopy : Performs (fun _ _ ↦ false) (initial 4096)
      (7, .copy (fun k ↦ if k = 0 then 65 else 66) 2, .copied 99) _ :=
    ⟨by decide, zeroLocals, sampleEnv 8, by decide, rfl⟩
  have hrun := (Run.nil.snoc hcopy).snoc (l := (7, .paste 99 2, .pasted 0 [65, 66]))
    ⟨by decide, zeroLocals, sampleEnv 16, by decide, rfl⟩
  obtain ⟨h', hrun', hall⟩ :=
    (library_refines_clipboard (fun _ _ ↦ false) (show Stack.Fits 4096 by decide)).1 _ _ hrun
  exact ⟨_, _, h', hrun, rfl, hrun', hall⟩

end MinixClipboard
