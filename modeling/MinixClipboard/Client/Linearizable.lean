import MinixClipboard.Client.Interleaving
import MinixClipboard.Client.Updates
import MinixClipboard.Library.Atomic

/-!
# The library is linearizable

Library calls that overlap in time behave as if each took effect at one moment. A copy does so with
its set, a paste with its lock, and a paste that is refused with the query or the lock that refuses
it. So the traces of any number of processes, each system call atomic, are traces of one atomic
object, a board of cells.

A board is not just a partial map. A paste has its entry from the lock on, but the id is free only
after its get, and in between a copy can find no free id although an entry has been pasted: the cell
is `leaving`, until the process that pastes it has made its get, which it does before its paste
returns. And two mishaps can befall a call, each to be seen where it happens (`Befalls`): that the
device cannot be opened, and that between the query and the lock of a paste somebody who does not
permit it copies to the id whose owner did. Only a call that has met with the first is refused for
no reason on the board, and only one that has met with the second may paste what its owner does not
permit it.

Live updates may come anywhere in between, a lock and its get included: they do not change the
board, and what is answered does not tell of them. That a call under way is answered at all after an
update is not promised here: the new dispatcher drops its requests until the device has been opened
again. As everywhere in `handle`, every read reaches the driver, also one of length `0`.
-/

namespace MinixClipboard

open Fallible Program Driver

/-! ## Boards -/

/-- What a board has under an id. -/
inductive Cell
  | free
  /-- What was copied, and by whom. -/
  | stored (owner : Int32) (bytes : List CChar)
  /-- An entry that this process has pasted, before its id is free. -/
  | leaving (p : Int32)

/-- What is under each id. -/
abbrev Board := Fin bufMaxCount → Cell

/-- What can befall a library call. -/
inductive Mishap
  /-- It could not open the device. -/
  | unopened
  /-- A copy has come between its query and its lock. -/
  | overtaken

/-- What library calls come to on a board. -/
inductive BoardStep (ancestor : Int32 → Int32 → Bool) :
    Board → Int32 → LibCall → Set Mishap → Result → Board → Prop
  /-- A copy goes under a free id. -/
  | copy {m : Board} {p : Int32} {buffer : Memory} {bufferLen : UInt32} {met : Set Mishap}
      (i : Fin bufMaxCount) : bufferLen.toNat ≤ entryLenLimit → m i = .free →
        BoardStep ancestor m p (.copy buffer bufferLen) met (.copied (UInt32.ofNat i.val))
          (Function.update m i (.stored p (buffer.bytes bufferLen.toNat)))
  /-- A copy that finds no free id. -/
  | full {m : Board} {p : Int32} {buffer : Memory} {bufferLen : UInt32} {met : Set Mishap} :
      bufferLen.toNat ≤ entryLenLimit → (∀ i, m i ≠ .free) →
        BoardStep ancestor m p (.copy buffer bufferLen) met (.copied (-1)) m
  /-- A copy of more than an entry can hold. -/
  | long {m : Board} {p : Int32} {buffer : Memory} {bufferLen : UInt32} {met : Set Mishap} :
      entryLenLimit < bufferLen.toNat →
        BoardStep ancestor m p (.copy buffer bufferLen) met (.copied (-1)) m
  /-- A paste has its entry. -/
  | paste {m : Board} {p : Int32} {id bufferLen : UInt32} {met : Set Mishap} {i : Fin bufMaxCount}
      {owner : Int32} {bytes : List CChar} : id.toNat = i → m i = .stored owner bytes →
      (.overtaken ∉ met → Permits ancestor owner p) → expectedDecompressedSize bytes ≤ bufferLen →
        BoardStep ancestor m p (.paste id bufferLen) met (.pasted 0 bytes)
          (Function.update m i (.leaving p))
  /-- A paste that is refused. -/
  | refused {m : Board} {p : Int32} {id bufferLen : UInt32} {met : Set Mishap} :
      (∀ (i : Fin bufMaxCount) (owner : Int32) (bytes : List CChar), id.toNat = i →
        m i = .stored owner bytes → Permits ancestor owner p →
          ¬expectedDecompressedSize bytes ≤ bufferLen) →
        BoardStep ancestor m p (.paste id bufferLen) met (.pasted (-1) []) m
  /-- A copy that could not open the device. -/
  | unopenedCopy {m : Board} {p : Int32} {buffer : Memory} {bufferLen : UInt32}
      {met : Set Mishap} : .unopened ∈ met →
        BoardStep ancestor m p (.copy buffer bufferLen) met (.copied (-1)) m
  /-- A paste that could not open the device. -/
  | unopenedPaste {m : Board} {p : Int32} {id bufferLen : UInt32} {met : Set Mishap} :
      .unopened ∈ met → BoardStep ancestor m p (.paste id bufferLen) met (.pasted (-1) []) m

/-- The id of an entry becomes free after the paste of this process. -/
inductive Vacates : Board → Int32 → Board → Prop
  | vacate {m : Board} {p : Int32} {i : Fin bufMaxCount} : m i = .leaving p →
      Vacates m p (Function.update m i .free)

/-- A board as an atomic object. -/
def boardSpec (ancestor : Int32 → Int32 → Bool) : Atomic.Spec Int32 Board LibCall Mishap Result :=
  ⟨BoardStep ancestor, Vacates⟩

/-- A slot of the driver's table as a cell: locked is as good as pasted. -/
def cell : Option (Slot Int32 Payload) → Cell
  | none => .free
  | some ⟨v, none⟩ => .stored v.sourcePid v.bytes
  | some ⟨_, some p⟩ => .leaving p

/-- The board a table stands for. -/
def board (t : LockTable (Fin bufMaxCount) Int32 Payload) : Board := fun i ↦ cell (t i)

section Boards

variable {t : LockTable (Fin bufMaxCount) Int32 Payload} {i : Fin bufMaxCount}

theorem board_update (a : Option (Slot Int32 Payload)) :
    board (Function.update t i a) = Function.update (board t) i (cell a) := by
  funext j
  exact Function.apply_update (fun _ ↦ cell) t i a j

theorem board_eq_free : board t i = .free ↔ t i = none := by
  rw [board]
  rcases t i with _ | ⟨v, _ | p⟩ <;> simp [cell]

theorem board_eq_stored {owner : Int32} {bytes : List CChar} : board t i = .stored owner bytes ↔
    ∃ v, t i = some ⟨v, none⟩ ∧ v.sourcePid = owner ∧ v.bytes = bytes := by
  rw [board]
  rcases t i with _ | ⟨v, _ | p⟩ <;> simp [cell]

theorem board_eq_leaving {p : Int32} : board t i = .leaving p ↔ ∃ v, t i = some ⟨v, some p⟩ := by
  rw [board]
  rcases t i with _ | ⟨v, _ | q⟩ <;> simp [cell]

end Boards

/-! ## What a process holds -/

section Holding

variable {t t' : LockTable (Fin bufMaxCount) Int32 Payload} {p : Int32}
  {a : LockTable.Action (Fin bufMaxCount) Int32 Payload}

/-- The bytes of the entry a process has locked, if it has one. -/
def Holding (t : LockTable (Fin bufMaxCount) Int32 Payload) (p : Int32) :
    Option (List CChar) → Prop
  | none => ∀ i v, t i ≠ some ⟨v, some p⟩
  | some bytes => ∃ i v, t i = some ⟨v, some p⟩ ∧ v.bytes = bytes

theorem Holding.not_vacates (h : Holding t p none) (m : Board) : ¬Vacates (board t) p m := by
  rintro ⟨hi⟩
  obtain ⟨v, hv⟩ := board_eq_leaving.mp hi
  exact h _ v hv

theorem Holding.of_step {held : Option (List CChar)} (h : Holding t p held)
    (hs : LockTable.Step t a t') (hby : ¬a.By p) : Holding t' p held := by
  cases held with
  | none => exact fun i v hi ↦ h i v (hs.of_holds hi hby)
  | some bytes =>
    obtain ⟨i, v, hi, hbytes⟩ := h
    exact ⟨i, v, hs.holds hi hby, hbytes⟩

theorem Holding.unlocked_eq {s : Driver} (h : Holding s.table p none) : s.unlocked p = s := by
  rw [Driver.unlocked]
  split
  · rename_i i hlock
    exact absurd (table_of_lock?_eq_some hlock) (h i _)
  · rfl

end Holding

/-- Every entry has been stored by a copy. -/
def Stored (s : Driver) : Prop :=
  ∀ i v, LockTable.value s.table i = some v → 0 < v.sourcePid ∧
    v.bufferLen.toNat ≤ entryLenLimit ∧ v.decompressedLen = expectedDecompressedSize v.bytes

theorem Stored.of_step {s s' : Driver} {a : LockTable.Action (Fin bufMaxCount) Int32 Payload}
    (h : Stored s) (hs : LockTable.Step s.table a s'.table)
    (hput : ∀ i v, a = .put i v → 0 < v.sourcePid ∧ v.bufferLen.toNat ≤ entryLenLimit ∧
      v.decompressedLen = expectedDecompressedSize v.bytes) : Stored s' := by
  intro i v hv
  generalize ht : s.table = t at hs
  generalize ht' : s'.table = t' at hs hv
  by_cases htouch : a.Touches i
  · cases hs with
    | @put j w hj =>
      obtain rfl : j = i := htouch
      rw [LockTable.value_update, Function.update_self] at hv
      obtain rfl : w = v := by simpa using hv
      exact hput j w rfl
    | @take q j w hj =>
      obtain rfl : j = i := htouch
      rw [LockTable.value_update, Function.update_self] at hv
      simp at hv
    | acquire _ => exact htouch.elim
    | release _ => exact htouch.elim
    | idle => exact htouch.elim
  · rw [hs.value_of_not_touches htouch, ← ht] at hv
    exact h i v hv

/-! ## How far a call has come -/

/-- A paste with its first call to make. -/
def pasteOpen (id bufferLen : UInt32) (locals : Locals) : Client Result :=
  .call .openDevice fun fd ↦
    if fd < 0 then .ret (.pasted (-1) [])
    else if id.toNat ≥ bufMaxCount then .ret (.pasted (-1) [])
    else pasteQuery id bufferLen locals fd

/-- A copy that is not too long, with its first call to make. -/
def copyOpen (buffer : Memory) (bufferLen : UInt32) (locals : Locals) : Client Result :=
  .call .openDevice fun fd ↦
    if fd < 0 then .ret (.copied (-1)) else copyGetpid buffer bufferLen locals fd

/-- What a process holds and has still to run, and how far its call has come for the board. A paste
that will not be permitted has been refused when it was answered whose the entry is; any other has
its result with the lock. -/
inductive Working (ancestor : Int32 → Int32 → Bool) (p : Int32) (asked : Option (UInt32 × Int32)) :
    Option (List CChar) → Option (Client Result) → Option (Phase LibCall Mishap Result) → Prop
  | idle : Working ancestor p asked none none none
  | pasteOpen (id bufferLen : UInt32) (locals : Locals) (met : Set Mishap) :
      Working ancestor p asked none (some (pasteOpen id bufferLen locals))
        (some (.invoked (.paste id bufferLen) met))
  | pasteQuery (id bufferLen : UInt32) (locals : Locals) (fd : Int32) (met : Set Mishap) :
      id.toNat < bufMaxCount →
        Working ancestor p asked none (some (pasteQuery id bufferLen locals fd))
          (some (.invoked (.paste id bufferLen) met))
  | pasteGetpid (id bufferLen : UInt32) (locals : Locals) (fd src : Int32) (mg : GetMsg)
      (met : Set Mishap) :
      id.toNat < bufMaxCount → asked = some (id, src) → Permits ancestor src p →
        Working ancestor p asked none (some (pasteGetpid id bufferLen locals fd src mg))
          (some (.invoked (.paste id bufferLen) met))
  | pasteCheck (id bufferLen : UInt32) (locals : Locals) (fd src : Int32) (mg : GetMsg)
      (met : Set Mishap) :
      id.toNat < bufMaxCount → asked = some (id, src) → Permits ancestor src p →
        Working ancestor p asked none (some (pasteCheck id bufferLen locals fd src mg p))
          (some (.invoked (.paste id bufferLen) met))
  | deniedGetpid (id bufferLen : UInt32) (locals : Locals) (fd src : Int32) (mg : GetMsg) :
      ¬Permits ancestor src p →
        Working ancestor p asked none (some (pasteGetpid id bufferLen locals fd src mg))
          (some (.answered (.pasted (-1) [])))
  | deniedCheck (id bufferLen : UInt32) (locals : Locals) (fd src : Int32) (mg : GetMsg) :
      ¬Permits ancestor src p →
        Working ancestor p asked none (some (pasteCheck id bufferLen locals fd src mg p))
          (some (.answered (.pasted (-1) [])))
  | pasteLock (id bufferLen : UInt32) (locals : Locals) (fd src : Int32) (mg : GetMsg)
      (met : Set Mishap) :
      id.toNat < bufMaxCount → asked = some (id, src) → Permits ancestor src p →
        Working ancestor p asked none (some (pasteLock id bufferLen locals fd p mg))
          (some (.invoked (.paste id bufferLen) met))
  | pasteGet (fd : Int32) (mg : GetMsg) (bytes : List CChar) :
      Working ancestor p asked (some bytes) (some (pasteGet fd p mg))
        (some (.answered (.pasted 0 bytes)))
  | pasteClose (fd : Int32) (ret : UInt32) (written : List CChar) :
      Working ancestor p asked none (some (pasteClose fd ret written))
        (some (.answered (.pasted ret written)))
  | copyOpen (buffer : Memory) (bufferLen : UInt32) (locals : Locals) (met : Set Mishap) :
      bufferLen.toNat ≤ entryLenLimit →
        Working ancestor p asked none (some (copyOpen buffer bufferLen locals))
          (some (.invoked (.copy buffer bufferLen) met))
  | copyGetpid (buffer : Memory) (bufferLen : UInt32) (locals : Locals) (fd : Int32)
      (met : Set Mishap) : bufferLen.toNat ≤ entryLenLimit →
        Working ancestor p asked none (some (copyGetpid buffer bufferLen locals fd))
          (some (.invoked (.copy buffer bufferLen) met))
  | copySet (buffer : Memory) (bufferLen : UInt32) (locals : Locals) (fd : Int32)
      (met : Set Mishap) : bufferLen.toNat ≤ entryLenLimit →
        Working ancestor p asked none (some (copySet buffer bufferLen locals fd p))
          (some (.invoked (.copy buffer bufferLen) met))
  | copyClose (fd : Int32) (ret : UInt32) :
      Working ancestor p asked none (some (copyClose fd ret)) (some (.answered (.copied ret)))
  | returned (r : Result) : Working ancestor p asked none (some (.ret r)) (some (.answered r))

/-- Unless a call has been overtaken, whoever owns the entry its process has asked about lets it
paste, if whom it was told of does. -/
def Cleared (ancestor : Int32 → Int32 → Bool) (s : Driver) (p : Int32)
    (asked : Option (UInt32 × Int32)) (ph : Option (Phase LibCall Mishap Result)) : Prop :=
  ∀ (c : LibCall) (met : Set Mishap) (i : Fin bufMaxCount) (id : UInt32) (src : Int32),
    ph = some (.invoked c met) → .overtaken ∉ met → asked = some (id, src) → id.toNat = i →
      Permits ancestor src p → Permits ancestor (s.entries i).sourcePid p

/-- What a system call of process `p` does to a board and to the call it is part of: nothing, or the
call takes effect, or what it has pasted is gone. -/
inductive Becomes (ancestor : Int32 → Int32 → Bool) (p : Int32) : Board →
    Phase LibCall Mishap Result → Board → Phase LibCall Mishap Result → Prop
  | same {m : Board} {ph : Phase LibCall Mishap Result} : Becomes ancestor p m ph m ph
  | commit {m m' : Board} {c : LibCall} {met : Set Mishap} {r : Result} :
      BoardStep ancestor m p c met r m' → Becomes ancestor p m (.invoked c met) m' (.answered r)
  | settle {m m' : Board} {r : Result} : Vacates m p m' →
      Becomes ancestor p m (.answered r) m' (.answered r)

/-- What there is after a system call of process `p`, with this left to run. -/
structure Advances (ancestor : Int32 → Int32 → Bool) (p : Int32) (op : SysCall) (s s' : Driver)
    (asked : Option (UInt32 × Int32)) (prog : Client Result) (ph : Phase LibCall Mishap Result) :
    Prop where
  inv : Inv s'
  stored : Stored s'
  effect : Effect p op s s'
  others : ∀ q held, q ≠ p → Holding s.table q held → Holding s'.table q held
  working : ∃ held ph', Holding s'.table p held ∧
    Working ancestor p asked held (some prog) (some ph') ∧ Cleared ancestor s' p asked (some ph') ∧
      Becomes ancestor p (board s.table) ph (board s'.table) ph'

section Steps

variable {ancestor : Int32 → Int32 → Bool} {env : Env} {p : Int32} {s s' : Driver}
  {op : SysCall} {asked : Option (UInt32 × Int32)} {prog : Client Result} {met : Set Mishap}

theorem Working.meet {held : Option (List CChar)} {prog : Option (Client Result)}
    {ph : Option (Phase LibCall Mishap Result)} (h : Working ancestor p asked held prog ph)
    (mishaps : Set Mishap) : Working ancestor p asked held prog (ph.map (.meet mishaps)) := by
  cases h with
  | idle => exact .idle
  | pasteOpen id bufferLen locals met => exact .pasteOpen id bufferLen locals _
  | pasteQuery id bufferLen locals fd met hid => exact .pasteQuery id bufferLen locals fd _ hid
  | pasteGetpid id bufferLen locals fd src mg met hid hasked hperm =>
    exact .pasteGetpid id bufferLen locals fd src mg _ hid hasked hperm
  | pasteCheck id bufferLen locals fd src mg met hid hasked hperm =>
    exact .pasteCheck id bufferLen locals fd src mg _ hid hasked hperm
  | deniedGetpid id bufferLen locals fd src mg hdenied =>
    exact .deniedGetpid id bufferLen locals fd src mg hdenied
  | deniedCheck id bufferLen locals fd src mg hdenied =>
    exact .deniedCheck id bufferLen locals fd src mg hdenied
  | pasteLock id bufferLen locals fd src mg met hid hasked hperm =>
    exact .pasteLock id bufferLen locals fd src mg _ hid hasked hperm
  | pasteGet fd mg bytes => exact .pasteGet fd mg bytes
  | pasteClose fd ret written => exact .pasteClose fd ret written
  | copyOpen buffer bufferLen locals met hlen => exact .copyOpen buffer bufferLen locals _ hlen
  | copyGetpid buffer bufferLen locals fd met hlen =>
    exact .copyGetpid buffer bufferLen locals fd _ hlen
  | copySet buffer bufferLen locals fd met hlen => exact .copySet buffer bufferLen locals fd _ hlen
  | copyClose fd ret => exact .copyClose fd ret
  | returned r => exact .returned r

theorem cleared_answered (r : Result) : Cleared ancestor s p asked (some (.answered r)) := by
  rintro c met i id src ⟨⟩

theorem cleared_of_owner {i : Fin bufMaxCount} {id : UInt32}
    {ph : Option (Phase LibCall Mishap Result)} (hid : id.toNat = i) :
    Cleared ancestor s p (some (id, (s.entries i).sourcePid)) ph := by
  intro c met j id' src _ _ hasked hid' hperm
  obtain ⟨rfl, rfl⟩ := Prod.mk.inj (Option.some_inj.mp hasked)
  obtain rfl : i = j := Fin.ext (hid.symm.trans hid')
  exact hperm

theorem Cleared.meet {ph : Option (Phase LibCall Mishap Result)}
    (h : Cleared ancestor s p asked ph) (mishaps : Set Mishap) :
    Cleared ancestor s p asked (ph.map (.meet mishaps)) := by
  intro c met i id src hph hmet hasked hid hperm
  obtain ⟨met', rfl, rfl⟩ := Phase.map_meet_eq_invoked hph
  exact h c met' i id src rfl (fun hmem ↦ hmet (Or.inl hmem)) hasked hid hperm

theorem Advances.of_same {ph : Phase LibCall Mishap Result} (hI : Inv s) (hS : Stored s)
    (hheld : Holding s.table p none) {ph' : Phase LibCall Mishap Result}
    (hwork : Working ancestor p asked none (some prog) (some ph'))
    (hcleared : Cleared ancestor s p asked (some ph'))
    (hph : Becomes ancestor p (board s.table) ph (board s.table) ph') :
    Advances ancestor p op s s asked prog ph :=
  ⟨hI, hS, Or.inl rfl, fun _ _ _ hq ↦ hq, none, ph', hheld, hwork, hcleared, hph⟩

theorem Advances.of_step {ph : Phase LibCall Mishap Result} (hI' : Inv s') (hS : Stored s)
    (heffect : Effect p op s s') {a : LockTable.Action (Fin bufMaxCount) Int32 Payload}
    (hs : LockTable.Step s.table a s'.table) (hby : ∀ q, q ≠ p → ¬a.By q)
    (hput : ∀ i v, a = .put i v → 0 < v.sourcePid ∧ v.bufferLen.toNat ≤ entryLenLimit ∧
      v.decompressedLen = expectedDecompressedSize v.bytes)
    {held : Option (List CChar)} {r : Result} (hheld : Holding s'.table p held)
    (hwork : Working ancestor p asked held (some prog) (some (.answered r)))
    (hph : Becomes ancestor p (board s.table) ph (board s'.table) (.answered r)) :
    Advances ancestor p op s s' asked prog ph :=
  ⟨hI', hS.of_step hs hput, heffect, fun q _ hqp hq ↦ hq.of_step hs (hby q hqp), held, _, hheld,
    hwork, cleared_answered r, hph⟩

theorem sourcePid_of_stored {i : Fin bufMaxCount} {owner : Int32} {bytes : List CChar}
    (hi : board s.table i = .stored owner bytes) : (s.entries i).inUse = .used ∧
      (s.entries i).sourcePid = owner ∧ s.heap.contents (s.entries i).buffer = bytes ∧
      LockTable.value s.table i = some (payload s.heap (s.entries i)) := by
  obtain ⟨v, hv, rfl, rfl⟩ := board_eq_stored.mp hi
  obtain ⟨huse, rfl⟩ := slotOf_eq_some_none_iff.mp hv
  exact ⟨huse, rfl, rfl, congrArg (Option.map Slot.value) hv⟩

/-- A paste whose query is told of somebody who does not permit it, or of nobody, is refused. -/
theorem refused_of_query {id bufferLen : UInt32} (hS : Stored s) (hid : id.toNat < bufMaxCount)
    (h : (s.entries ⟨id.toNat, hid⟩).sourcePid < 0 ∨
      ¬Permits ancestor (s.entries ⟨id.toNat, hid⟩).sourcePid p) :
    BoardStep ancestor (board s.table) p (.paste id bufferLen) met (.pasted (-1) [])
      (board s.table) := by
  refine .refused fun i owner bytes hi hstored hperm ↦ absurd h ?_
  obtain rfl : (⟨id.toNat, hid⟩ : Fin bufMaxCount) = i := Fin.ext hi
  obtain ⟨-, howner, -, hvalue⟩ := sourcePid_of_stored hstored
  have hpos : 0 < (s.entries ⟨id.toNat, hid⟩).sourcePid := (hS _ _ hvalue).1
  rw [howner] at hpos ⊢
  exact not_or.mpr ⟨Int32.not_lt.mpr (Int32.le_of_lt hpos), not_not.mpr hperm⟩

theorem advances_lock (hI : Inv s) (hS : Stored s) (hheld : Holding s.table p none)
    {id bufferLen : UInt32} (hid : id.toNat < bufMaxCount) {locals : Locals} {fd : Int32}
    {mg : GetMsg} {x : Int32} (hperm : .overtaken ∉ met →
      Permits ancestor (s.entries ⟨id.toNat, hid⟩).sourcePid p)
    (hstep : handle ancestor env p (.write fd
      ((⟨p.toUInt32, id, bufferLen⟩ : LockMsg).toWrite locals.buffer) lockSize) s = .ok (x, s')) :
    Advances ancestor p op s s' asked
      (if x < 0 then .ret (.pasted x.toUInt32 []) else pasteGet fd p mg)
      (.invoked (.paste id bufferLen) met) := by
  obtain ⟨r, hlock, rfl⟩ := lock_of_handle hstep
  have heffect : Effect p op s s' := Or.inr
    ⟨_, serves_lock_iff.mpr ⟨r, hlock, rfl⟩, Int32.toInt32_toUInt32 p, by simp⟩
  obtain ⟨i, hi⟩ : ∃ i : Fin bufMaxCount, (⟨id.toNat, hid⟩ : Fin bufMaxCount) = i := ⟨_, rfl⟩
  rw [hi] at hperm
  have hpid : p.toUInt32.toInt32 = p := Int32.toInt32_toUInt32 p
  obtain ⟨hsame, ⟨rfl, -⟩ | ⟨k, v, rfl, hk, hle, hfree, htable⟩⟩ := doClipboardLock_refines hI hlock
  · -- the lock is refused, and the state is as it was
    rw [doClipboardLock_eq ⟨p.toUInt32, id, bufferLen⟩ hid] at hlock
    simp only [hpid, hheld.unlocked_eq, hi] at hlock
    split at hlock
    · simp [ok] at hlock
    rename_i hdenied
    obtain rfl : s = s' := by simpa using hlock
    rw [if_pos (show Int32.ofInt (-1) < 0 by decide)]
    refine .of_same hI hS hheld (.returned _) (cleared_answered _)
      (.commit (.refused fun j owner bytes hj hstored _ ↦ ?_))
    obtain rfl : i = j := by rw [← hi]; exact Fin.ext hj
    obtain ⟨huse, -, rfl, hvalue⟩ := sourcePid_of_stored hstored
    obtain ⟨-, -, hdec⟩ := hS i _ hvalue
    rw [show s.heap.contents (s.entries i).buffer = (payload s.heap (s.entries i)).bytes from rfl,
      ← hdec]
    exact fun hle ↦ hdenied ⟨huse, hle⟩
  · -- the lock is granted, and the entry as good as pasted
    obtain rfl : i = k := by rw [← hi]; exact Fin.ext hk
    rw [hpid] at hfree htable
    have hs : LockTable.Step s.table (.acquire p i) s'.table := by
      rw [htable]
      exact .acquire hfree
    rw [LockTable.release_eq_self hheld] at hfree htable
    obtain ⟨huse, rfl⟩ := slotOf_eq_some_none_iff.mp hfree
    have hstored : board s.table i = .stored (s.entries i).sourcePid _ :=
      board_eq_stored.mpr ⟨_, hfree, rfl, rfl⟩
    have hleaving : board s'.table = Function.update (board s.table) i (.leaving p) := by
      rw [htable, board_update]
      rfl
    obtain ⟨-, -, hdec⟩ := hS i _ (congrArg (Option.map Slot.value) hfree)
    have hheld' : Holding s'.table p (some (payload s.heap (s.entries i)).bytes) :=
      ⟨i, _, by rw [htable, Function.update_self], rfl⟩
    rw [if_neg (show ¬Int32.ofInt ok < 0 by decide)]
    refine .of_step (hI.of_sameButLocks hsame (hs.exclusive hI.exclusive)) hS heffect hs
      (fun q hqp hpq ↦ hqp hpq.symm) (by simp) hheld' (.pasteGet fd mg _) ?_
    rw [hleaving]
    exact .commit (.paste hk hstored hperm (hdec ▸ hle))

theorem advances_get (hI : Inv s) (hS : Stored s) (hp : 0 < p) {bytes : List CChar}
    (hheld : Holding s.table p (some bytes)) {fd : Int32} {mg : GetMsg} {x : Int32 × GetMsg}
    (hstep : handle ancestor env p (.read fd mg.zeroed (encodePid p.toUInt32)) s = .ok (x, s')) :
    Advances ancestor p op s s' asked
      (if x.1 < 0 then .ret (.pasted x.1.toUInt32 [])
        else pasteClose fd x.1.toUInt32 (x.2.buffer.bytes x.2.bufferLen.toNat))
      (.answered (.pasted 0 bytes)) := by
  obtain ⟨i, v, hi, rfl⟩ := hheld
  obtain ⟨huse, rfl, rfl⟩ := slotOf_eq_some_some_iff.mp hi
  obtain ⟨-, hlen, -⟩ := hS i _ (congrArg (Option.map Slot.value) hi)
  obtain ⟨-, -, l, hserves, hfrom, hset⟩ := get_of_handle hI hp ⟨huse, rfl⟩ hstep
  have heffect : Effect (s.entries i).lockingPid op s s' :=
    Or.inr ⟨l, hserves, hfrom, fun msg choice h ↦ absurd h (hset msg choice)⟩
  obtain ⟨mg', s₁, hget, hbytes, hdel⟩ := handle_get_of_lockedBy ancestor env hI
    (Int32.le_of_lt hp) ⟨huse, rfl⟩ hlen fd mg.zeroed
  obtain ⟨rfl, rfl⟩ : (0, mg') = x ∧ s₁ = s' := by simpa using hget.symm.trans hstep
  have hs : LockTable.Step s.table (.take (s.entries i).lockingPid i) s₁.table := by
    rw [hdel.table]
    exact .take hi
  have hfree : board s₁.table = Function.update (board s.table) i .free := by
    rw [hdel.table, board_update]
    rfl
  have hnone : Holding s₁.table (s.entries i).lockingPid none := fun j w hj ↦ by
    rw [hdel.table] at hj
    by_cases hji : j = i
    · rw [hji, Function.update_self] at hj
      cases hj
    · rw [Function.update_of_ne hji] at hj
      exact hji (hI.exclusive hj hi)
  rw [if_neg (show ¬(0 : Int32) < 0 by decide), hbytes]
  refine .of_step hdel.inv hS heffect hs (fun q hqp hpq ↦ hqp hpq.symm) (by simp) hnone
    (.pasteClose fd _ _) (.settle ?_)
  rw [hfree]
  refine .vacate ?_
  rw [board, hi]
  rfl

theorem advances_set (hI : Inv s) (hS : Stored s) (hp : 0 < p) (hheld : Holding s.table p none)
    {buffer : Memory} {bufferLen : UInt32} (hlen : bufferLen.toNat ≤ entryLenLimit)
    {locals : Locals} {fd : Int32} {x : Int32}
    (hstep : handle ancestor env p
      (.write fd (copyMsg p buffer bufferLen locals).toWrite setSize) s = .ok (x, s')) :
    Advances ancestor p (.write fd (copyMsg p buffer bufferLen locals).toWrite setSize) s s' asked
      (copyClose fd x.toUInt32) (.invoked (.copy buffer bufferLen) met) := by
  obtain ⟨r, hset, rfl⟩ := set_of_handle hstep
  have heffect : Effect p (.write fd (copyMsg p buffer bufferLen locals).toWrite setSize) s s' :=
    Or.inr ⟨_, serves_set_iff.mpr ⟨r, hset, rfl⟩, Int32.toInt32_toUInt32 p, fun _ _ _ ↦ ⟨_, _, rfl⟩⟩
  rcases doClipboardSet_spec hI (env.copyFrom (copyMsg p buffer bufferLen locals).toWrite).set
    env.choice with ⟨hfull, hok⟩ | ⟨i, hi, -, ⟨a, s₁, hok, hacc, -⟩ | ⟨-, -, hbad⟩⟩
  · obtain ⟨rfl, rfl⟩ : -1 = r ∧ s = s' := by simpa using hok.symm.trans hset
    exact .of_same hI hS hheld (.copyClose fd _) (cleared_answered _)
      (.commit (.full hlen fun i hi ↦ hfull i (table_eq_none_iff.mp (board_eq_free.mp hi))))
  · obtain ⟨rfl, rfl⟩ : ((i : ℕ) : ℤ) = r ∧ s₁ = s' := by simpa using hok.symm.trans hset
    have htable := hacc.table
    rw [setPayload_copyMsg hlen a] at htable
    have hnone : s.table i = none := table_eq_none_iff.mpr hi
    have hs : LockTable.Step s.table (.put i (copyPayload p buffer bufferLen a)) s₁.table := by
      rw [htable]
      exact .put _ hnone
    have hstored : board s₁.table
        = Function.update (board s.table) i (.stored p (buffer.bytes bufferLen.toNat)) := by
      rw [htable, board_update]
      rfl
    rw [toUInt32_ofInt_fin]
    refine .of_step hacc.inv hS heffect hs (fun _ _ hby ↦ hby) (fun j v hv ↦ ?_)
      (hheld.of_step hs fun hby ↦ hby) (.copyClose fd _) ?_
    · cases hv
      exact ⟨hp, hlen, rfl⟩
    · rw [hstored]
      exact .commit (.copy i hlen (board_eq_free.mpr hnone))
  · rw [hbad] at hset
    cases hset

/-- **A system call takes its process one step on**, and the board with it. -/
theorem Working.next {next : op.Answer → Client Result} {x : op.Answer}
    {ph : Phase LibCall Mishap Result} {held : Option (List CChar)} (hI : Inv s) (hS : Stored s)
    (hp : 0 < p) (hopen : ∀ c met, ph = .invoked c met → op = .openDevice → env.fd < 0 →
      .unopened ∈ met)
    (hheld : Holding s.table p held)
    (h : Working ancestor p asked held (some (.call op next)) (some ph))
    (hcleared : Cleared ancestor s p asked (some ph))
    (hstep : handle ancestor env p op s = .ok (x, s')) :
    Advances ancestor p op s s' (noteAsked asked op x) (next x) ph := by
  generalize hprog : Program.call op next = prog at h
  cases h with
  | pasteOpen id bufferLen locals met =>
    cases hprog
    obtain ⟨rfl, rfl⟩ := of_pure_ok hstep
    beta_reduce
    by_cases hfd : env.fd < 0
    · rw [if_pos hfd]
      exact .of_same hI hS hheld (.returned _) (cleared_answered _)
        (.commit (.unopenedPaste (hopen _ _ rfl rfl hfd)))
    rw [if_neg hfd]
    by_cases hid : id.toNat ≥ bufMaxCount
    · rw [if_pos hid]
      exact .of_same hI hS hheld (.returned _) (cleared_answered _)
        (.commit (.refused fun i _ _ hi ↦ absurd i.isLt (by omega)))
    · rw [if_neg hid]
      exact .of_same hI hS hheld (.pasteQuery id bufferLen locals env.fd met (Nat.not_le.mp hid))
        hcleared .same
  | pasteQuery id bufferLen locals fd met hid =>
    cases hprog
    obtain ⟨hx, rfl⟩ := query_of_handle hid hstep
    have hasked : noteAsked asked (.read fd locals.mg (encodeId id)) x = some (id, x.1) :=
      if_pos (isPidQuery_of_lt hid)
    rw [hasked]
    beta_reduce
    by_cases hsrc : x.1 < 0
    · rw [if_pos hsrc]
      exact .of_same hI hS hheld (.returned _) (cleared_answered _)
        (.commit (refused_of_query hS hid (Or.inl (hx ▸ hsrc))))
    rw [if_neg hsrc]
    -- from here on, the owner the query names and the owner of the slot are two things
    by_cases hperm : Permits ancestor x.1 p
    · refine .of_same hI hS hheld
        (.pasteGetpid id bufferLen locals fd x.1 x.2 met hid rfl hperm) ?_ .same
      rw [hx]
      exact cleared_of_owner rfl
    · exact .of_same hI hS hheld (.deniedGetpid id bufferLen locals fd x.1 x.2 hperm)
        (cleared_answered _) (.commit (refused_of_query hS hid (Or.inr (hx ▸ hperm))))
  | pasteGetpid id bufferLen locals fd src mg met hid hasked hperm =>
    cases hprog
    obtain ⟨rfl, rfl⟩ := of_pure_ok hstep
    exact .of_same hI hS hheld (.pasteCheck id bufferLen locals fd src mg met hid hasked hperm)
      hcleared .same
  | pasteCheck id bufferLen locals fd src mg met hid hasked hperm =>
    cases hprog
    obtain ⟨rfl, rfl⟩ := of_pure_ok hstep
    beta_reduce
    rw [if_neg (by simpa using hperm)]
    exact .of_same hI hS hheld (.pasteLock id bufferLen locals fd src mg met hid hasked hperm)
      hcleared .same
  | deniedGetpid id bufferLen locals fd src mg hdenied =>
    cases hprog
    obtain ⟨rfl, rfl⟩ := of_pure_ok hstep
    exact .of_same hI hS hheld (.deniedCheck id bufferLen locals fd src mg hdenied)
      (cleared_answered _) .same
  | deniedCheck id bufferLen locals fd src mg hdenied =>
    cases hprog
    obtain ⟨rfl, rfl⟩ := of_pure_ok hstep
    beta_reduce
    rw [if_pos (by simpa using hdenied)]
    exact .of_same hI hS hheld (.returned _) (cleared_answered _) .same
  | pasteLock id bufferLen locals fd src mg met hid hasked hperm =>
    cases hprog
    exact advances_lock hI hS hheld hid
      (fun hmet ↦ hcleared _ met _ id src rfl hmet hasked rfl hperm) hstep
  | pasteGet fd mg bytes =>
    cases hprog
    exact advances_get hI hS hp hheld hstep
  | pasteClose fd ret written =>
    cases hprog
    obtain ⟨-, rfl⟩ := of_pure_ok hstep
    exact .of_same hI hS hheld (.returned _) (cleared_answered _) .same
  | copyOpen buffer bufferLen locals met hlen =>
    cases hprog
    obtain ⟨rfl, rfl⟩ := of_pure_ok hstep
    beta_reduce
    by_cases hfd : env.fd < 0
    · rw [if_pos hfd]
      exact .of_same hI hS hheld (.returned _) (cleared_answered _)
        (.commit (.unopenedCopy (hopen _ _ rfl rfl hfd)))
    rw [if_neg hfd]
    exact .of_same hI hS hheld (.copyGetpid buffer bufferLen locals env.fd met hlen) hcleared .same
  | copyGetpid buffer bufferLen locals fd met hlen =>
    cases hprog
    obtain ⟨rfl, rfl⟩ := of_pure_ok hstep
    exact .of_same hI hS hheld (.copySet buffer bufferLen locals fd met hlen) hcleared .same
  | copySet buffer bufferLen locals fd met hlen =>
    cases hprog
    exact advances_set hI hS hp hheld hlen hstep
  | copyClose fd ret =>
    cases hprog
    obtain ⟨-, rfl⟩ := of_pure_ok hstep
    exact .of_same hI hS hheld (.returned _) (cleared_answered _) .same
  | returned r => cases hprog

end Steps

/-! ## Runs -/

/-- What is seen of a move: that a call is started, or what it returns. -/
def System.external (e : Event System Move) : Option (External Int32 LibCall Result) :=
  match e.label with
  | .start p c _ => some (.start p c)
  | .sysCall _ _ => none
  | .finish p => (e.pre.result p).map (.finish p)

/-- What befalls the call of a process with a move. -/
inductive Befalls (ancestor : Int32 → Int32 → Bool) (σ : System) : Move → Int32 → Mishap → Prop
  | unopened {p : Int32} {env : Env} {next : SysCall.openDevice.Answer → Client Result} :
      σ.running p = some (.call .openDevice next) → env.fd < 0 →
        Befalls ancestor σ (.sysCall p env) p .unopened
  /-- Process `q` copies to the id that `p` has asked about and not locked yet, and `p` may paste
  from the owner it was told of and not from `q`. -/
  | overtaken {p q : Int32} {env : Env} {fd : Int32} {msg : WriteMsg}
      {next : (SysCall.write fd msg setSize).Answer → Client Result} {id : UInt32} {src : Int32} :
      σ.running q = some (.call (.write fd msg setSize) next) → σ.asked p = some (id, src) →
      σ.driver.availableEntries.top σ.driver.addr = .ok id → Permits ancestor src p →
      ¬Permits ancestor q p → Befalls ancestor σ (.sysCall q env) p .overtaken

/-- What is seen of a move, and of what befalls calls with it. -/
def System.seen (ancestor : Int32 → Int32 → Bool) (e : Event System Move) :
    Option (Seen Int32 LibCall Mishap Result) :=
  match e.label with
  | .sysCall _ _ => some (.mishaps fun p ↦ {x | Befalls ancestor e.pre e.label p x})
  | _ => (System.external e).map .call

/-- A system of processes as an atomic object. -/
structure Depicts (ancestor : Int32 → Int32 → Bool) (σ : System)
    (a : Atomic Int32 Board LibCall Mishap Result) : Prop where
  inv : Inv σ.driver
  stored : Stored σ.driver
  memory : a.memory = board σ.driver.table
  positive : ∀ p, σ.running p ≠ none → 0 < p
  working : ∀ p, ∃ held, Holding σ.driver.table p held ∧
    Working ancestor p (σ.asked p) held (σ.running p) (a.phase p)
  cleared : ∀ p, Cleared ancestor σ.driver p (σ.asked p) (a.phase p)

section Runs

variable {ancestor : Int32 → Int32 → Bool} {addr : Addr} {σ σ' : System} {m : Move}
  {a : Atomic Int32 Board LibCall Mishap Result}

theorem depicts_initial (ha : Stack.Fits addr) :
    Depicts ancestor (System.initial addr) (Atomic.idle fun _ ↦ .free) where
  inv := inv_initial ha
  stored i v hv := by simp [LockTable.value, System.initial, table_initial, LockTable.empty] at hv
  memory := rfl
  positive p hp := absurd rfl hp
  working p := ⟨none, fun i v hi ↦ by
    simp [System.initial, table_initial, LockTable.empty] at hi, .idle⟩
  cleared p := by rintro c met i id src ⟨⟩

variable (ancestor) in
/-- A process that has started a call has its first system call to make, or has returned. -/
theorem working_of_start (p : Int32) (c : LibCall) (locals : Locals) :
    Working ancestor p none none (some (c.program locals)) (some (.invoked c ∅)) ∨
      ∃ r, Working ancestor p none none (some (c.program locals)) (some (.answered r)) ∧
        ∀ m, BoardStep ancestor m p c ∅ r m := by
  cases c with
  | paste id bufferLen =>
    rw [program_paste]
    exact Or.inl (.pasteOpen id bufferLen locals ∅)
  | copy buffer bufferLen =>
    rw [program_copy]
    by_cases hlong : bufferLen.toNat > entryLenLimit
    · rw [if_pos hlong]
      exact Or.inr ⟨_, .returned _, fun m ↦ .long hlong⟩
    · rw [if_neg hlong]
      exact Or.inl (.copyOpen buffer bufferLen locals ∅ (Nat.not_lt.mp hlong))

theorem Working.of_ret {p : Int32} {asked : Option (UInt32 × Int32)}
    {held : Option (List CChar)} {r : Result} {ph : Option (Phase LibCall Mishap Result)}
    (h : Working ancestor p asked held (some (.ret r)) ph) :
    held = none ∧ ph = some (.answered r) := by
  generalize hprog : some (Program.ret r) = prog at h
  cases h with
  | returned r' =>
    cases hprog
    exact ⟨rfl, rfl⟩
  | _ => cases hprog

theorem Depicts.meet (h : Depicts ancestor σ a) (befall : Int32 → Set Mishap) :
    Depicts ancestor σ (a.meet befall) where
  inv := h.inv
  stored := h.stored
  memory := h.memory
  positive := h.positive
  working p := by
    obtain ⟨held, hheld, hwork⟩ := h.working p
    exact ⟨held, hheld, hwork.meet (befall p)⟩
  cleared p := (h.cleared p).meet (befall p)

theorem Working.exists_phase {p : Int32} {asked : Option (UInt32 × Int32)}
    {held : Option (List CChar)} {prog : Client Result}
    {ph : Option (Phase LibCall Mishap Result)} (h : Working ancestor p asked held (some prog) ph) :
    ∃ ph', ph = some ph' := by
  cases h <;> exact ⟨_, rfl⟩

/-- Where one process has gone on, the others are as they were. -/
theorem Depicts.update (h : Depicts ancestor σ a) {s' : Driver} (hI : Inv s')
    (hS : Stored s') {m : Board} (hm : m = board s'.table) {p : Int32}
    {prog : Option (Client Result)} {ph : Option (Phase LibCall Mishap Result)}
    {held : Option (List CChar)} {asked : Option (UInt32 × Int32)}
    (received : Option (Int32 × List CChar)) (hp : prog ≠ none → 0 < p)
    (hheld : Holding s'.table p held) (hwork : Working ancestor p asked held prog ph)
    (hcleared : Cleared ancestor s' p asked ph)
    (hothers : ∀ q held, q ≠ p → Holding σ.driver.table q held → Holding s'.table q held)
    (hclear : ∀ q, q ≠ p → Cleared ancestor s' q (σ.asked q) (a.phase q)) :
    Depicts ancestor
      { driver := s'
        running := Function.update σ.running p prog
        asked := Function.update σ.asked p asked
        received := Function.update σ.received p received }
      { a.withPhase p ph with memory := m } where
  inv := hI
  stored := hS
  memory := hm
  positive q hq := by
    by_cases hqp : q = p
    · subst hqp
      simp only [Function.update_self] at hq
      exact hp hq
    · simp only [Function.update_of_ne hqp] at hq
      exact h.positive q hq
  working q := by
    by_cases hqp : q = p
    · subst hqp
      simp only [Atomic.withPhase, Function.update_self]
      exact ⟨held, hheld, hwork⟩
    · simp only [Atomic.withPhase, Function.update_of_ne hqp]
      obtain ⟨held', hheld', hwork'⟩ := h.working q
      exact ⟨held', hothers q held' hqp hheld', hwork'⟩
  cleared q := by
    by_cases hqp : q = p
    · subst hqp
      simpa only [Atomic.withPhase, Function.update_self] using hcleared
    · simpa only [Atomic.withPhase, Function.update_of_ne hqp] using hclear q hqp

/-- A process that another does not overtake stays cleared: an owner changes only with a copy. -/
theorem Depicts.cleared_of_effect (h : Depicts ancestor σ a) {p q : Int32} {env : Env}
    {op : SysCall} {next : op.Answer → Client Result} {s' : Driver}
    (hrun : σ.running p = some (.call op next)) (heffect : Effect p op σ.driver s') :
    Cleared ancestor s' q (σ.asked q)
      ((a.meet fun q ↦ {x | Befalls ancestor σ (.sysCall p env) q x}).phase q) := by
  intro c met i id src hph hmet hasked hid hsrc
  have hperm := (h.meet _).cleared q c met i id src hph hmet hasked hid hsrc
  obtain rfl | ⟨l, hserves, hfrom, hop⟩ := heffect
  · exact hperm
  rcases owner_of_serves h.inv hserves i with heq | ⟨msg, choice, hl, hnew, htop⟩
  · rwa [heq]
  obtain ⟨fd, msg', rfl⟩ := hop msg choice hl
  rw [hl] at hfrom
  rw [hnew, show msg.pid.toInt32 = p from hfrom]
  -- the slot is filled by a copy of `p`, and had this overtaken `q`, it would have been seen
  by_contra hdenied
  rw [← hid, UInt32.ofNat_toNat] at htop
  obtain ⟨met', -, rfl⟩ := Phase.map_meet_eq_invoked hph
  exact hmet (Or.inr (.overtaken hrun hasked htop hsrc hdenied))

/-- A call is started, and has taken effect if it makes no system call. -/
theorem Depicts.start (h : Depicts ancestor σ a) {p : Int32} (hp : 0 < p)
    (hidle : σ.running p = none) (c : LibCall) (locals : Locals) :
    ∃ h' a', Run (Atomic.Step (boardSpec ancestor)) a h' a' ∧
      h'.filterMap Atomic.seen = [.call (.start p c)] ∧
      Depicts ancestor
        { σ with
          running := Function.update σ.running p (some (c.program locals))
          asked := Function.update σ.asked p none
          received := Function.update σ.received p none } a' := by
  obtain ⟨held, hheld, hwork⟩ := h.working p
  rw [hidle] at hwork
  generalize hph : a.phase p = ph at hwork
  cases hwork
  have hstart : Run (Atomic.Step (boardSpec ancestor)) a _ _ := Run.nil.snoc (.start c hph)
  rcases working_of_start ancestor p c locals with hwork | ⟨r, hwork, heffect⟩
  · exact ⟨_, _, hstart, rfl, h.update h.inv h.stored h.memory none (fun _ ↦ hp) hheld hwork
      (by rintro c met i id src - - ⟨⟩) (fun _ _ _ hq ↦ hq) fun q _ ↦ h.cleared q⟩
  · have hcommit := hstart.snoc (Atomic.Step.commit (p := p) (Function.update_self ..) (heffect _))
    rw [Atomic.withPhase_withPhase] at hcommit
    exact ⟨_, _, hcommit, rfl, h.update h.inv h.stored h.memory none (fun _ ↦ hp) hheld hwork
      (cleared_answered r) (fun _ _ _ hq ↦ hq) fun q _ ↦ h.cleared q⟩

/-- A system call: first what is seen to befall, and then what the call does. -/
theorem Depicts.sysCall (h : Depicts ancestor σ a) {p : Int32} {env : Env} {op : SysCall}
    {next : op.Answer → Client Result} {x : op.Answer} {s' : Driver}
    (hrun : σ.running p = some (.call op next))
    (hstep : handle ancestor env p op σ.driver = .ok (x, s')) :
    ∃ h' a', Run (Atomic.Step (boardSpec ancestor)) a h' a' ∧
      h'.filterMap Atomic.seen
        = [.mishaps fun q ↦ {x | Befalls ancestor σ (.sysCall p env) q x}] ∧
      Depicts ancestor
        { driver := s'
          running := Function.update σ.running p (some (next x))
          asked := Function.update σ.asked p (noteAsked (σ.asked p) op x)
          received :=
            Function.update σ.received p (noteReceived σ.driver p (σ.received p) op x) } a' := by
  have hp := h.positive p (by rw [hrun]; simp)
  set befall : Int32 → Set Mishap := fun q ↦ {x | Befalls ancestor σ (.sysCall p env) q x}
  have hmet : Run (Atomic.Step (boardSpec ancestor)) a _ (a.meet befall) :=
    Run.nil.snoc (.mishaps befall)
  have hclear : ∀ q, Effect p op σ.driver s' →
      Cleared ancestor s' q (σ.asked q) ((a.meet befall).phase q) :=
    fun _ ↦ h.cleared_of_effect hrun
  have hb := h.meet befall
  obtain ⟨held, hheld, hwork⟩ := hb.working p
  rw [hrun] at hwork
  obtain ⟨ph, hph⟩ := hwork.exists_phase
  have hopen : ∀ c met, ph = .invoked c met → op = .openDevice → env.fd < 0 →
      .unopened ∈ met := by
    rintro c met rfl rfl hfd
    obtain ⟨met', -, rfl⟩ := Phase.map_meet_eq_invoked hph
    exact Or.inr (.unopened hrun hfd)
  rw [hph] at hwork
  have hadv := hwork.next hb.inv hb.stored hp hopen hheld (hph ▸ hb.cleared p) hstep
  obtain ⟨held', ph', hheld', hwork', hcleared', hbecomes⟩ := hadv.working
  rw [← hb.memory] at hbecomes
  have hupdate := fun m (hmem : m = board s'.table) ↦ hb.update hadv.inv hadv.stored hmem
    (noteReceived σ.driver p (σ.received p) op x) (fun _ ↦ hp) hheld' hwork' hcleared'
    hadv.others fun q _ ↦ hclear q hadv.effect
  generalize hboard : board s'.table = m' at hbecomes
  cases hbecomes with
  | same =>
    have hsame := hupdate (a.meet befall).memory hboard.symm
    rw [← hph, Atomic.withPhase_phase] at hsame
    exact ⟨_, _, hmet, rfl, hsame⟩
  | commit heffect =>
    exact ⟨_, _, hmet.snoc (.commit hph heffect), rfl, hupdate m' hboard.symm⟩
  | settle heffect =>
    have hsame := hupdate m' hboard.symm
    rw [← hph, Atomic.withPhase_phase] at hsame
    exact ⟨_, _, hmet.snoc (.settle hph heffect), rfl, hsame⟩

/-- A call returns, with nothing left to settle. -/
theorem Depicts.finish (h : Depicts ancestor σ a) {p : Int32} {r : Result}
    (hrun : σ.running p = some (.ret r)) :
    ∃ h' a', Run (Atomic.Step (boardSpec ancestor)) a h' a' ∧
      h'.filterMap Atomic.seen = [.call (.finish p r)] ∧
      Depicts ancestor
        { σ with
          running := Function.update σ.running p none
          asked := Function.update σ.asked p none } a' := by
  obtain ⟨held, hheld, hwork⟩ := h.working p
  rw [hrun] at hwork
  obtain ⟨rfl, hph⟩ := hwork.of_ret
  refine ⟨_, _, Run.nil.snoc (.finish hph (h.memory ▸ hheld.not_vacates)), rfl, ?_⟩
  rw [← Function.update_eq_self p σ.received]
  exact h.update h.inv h.stored h.memory _ (fun hnone ↦ absurd rfl hnone) hheld .idle
    (by rintro c met i id src ⟨⟩) (fun _ _ _ hq ↦ hq) fun q _ ↦ h.cleared q

/-- **A move of the system is what the atomic object does**: a start or a return, or what befalls
calls with it and then the effect of a call, the end of a paste or nothing. -/
theorem Depicts.move (h : Depicts ancestor σ a) (hm : σ.Moves ancestor m σ') :
    ∃ h' a', Run (Atomic.Step (boardSpec ancestor)) a h' a' ∧
      h'.filterMap Atomic.seen = (System.seen ancestor ⟨σ, m, σ'⟩).toList ∧
      Depicts ancestor σ' a' := by
  rw [System.Moves] at hm
  cases m with
  | start p c locals =>
    rw [System.move, Option.ite_none_right_eq_some] at hm
    obtain ⟨⟨hp, hidle⟩, hm⟩ := hm
    obtain rfl := Option.some_inj.mp hm
    exact h.start hp (Option.isNone_iff_eq_none.mp hidle) c locals
  | sysCall p env =>
    simp only [System.move] at hm
    split at hm
    case h_2 => cases hm
    rename_i op next hrun
    split at hm
    case h_2 => cases hm
    rename_i x driver hstep
    obtain rfl := Option.some_inj.mp hm
    exact h.sysCall hrun hstep
  | finish p =>
    simp only [System.move] at hm
    split at hm
    case h_2 => cases hm
    rename_i r hrun
    obtain rfl := Option.some_inj.mp hm
    simp only [System.seen, System.external, System.result, hrun]
    exact h.finish hrun

/-! ## Live updates under way -/

section Updated

variable {s s' u : Driver} {d d' : DataStore}

theorem board_of_updated (hu : Updated s u d s' d') : board s'.table = board s.table := by
  funext i
  rw [board, board, table_of_updated hu i]
  rcases s.table i with _ | ⟨v, _ | p⟩ <;> rfl

theorem Holding.updated {p : Int32} {held : Option (List CChar)} (h : Holding s.table p held)
    (hu : Updated s u d s' d') : Holding s'.table p held := by
  cases held with
  | none =>
    intro i v hi
    rw [table_of_updated hu i, Option.map_eq_some_iff] at hi
    obtain ⟨⟨w, q⟩, hw, heq⟩ := hi
    obtain rfl : q = some p := congrArg Slot.holder heq
    exact h i w hw
  | some bytes =>
    obtain ⟨i, v, hi, hbytes⟩ := h
    exact ⟨i, { v with buffer := (s'.entries i).buffer }, by rw [table_of_updated hu i, hi]; rfl,
      hbytes⟩

theorem Stored.updated (h : Stored s) (hu : Updated s u d s' d') : Stored s' := by
  intro i v hv
  rw [value_of_updated hu i] at hv
  obtain ⟨w, hw, rfl⟩ := Option.map_eq_some_iff.mp hv
  exact h i w hw

/-- **A live update** leaves the board, and every process where it is, even between a lock and its
get. -/
theorem Depicts.updated (h : Depicts ancestor σ a) {u : Driver}
    (hu : Updated σ.driver u d s' d') (haddr : u.addr = σ.driver.addr) :
    Depicts ancestor { σ with driver := s' } a where
  inv := hu.inv h.inv haddr
  stored := h.stored.updated hu
  memory := h.memory.trans (board_of_updated hu).symm
  positive := h.positive
  working p := by
    obtain ⟨held, hheld, hwork⟩ := h.working p
    exact ⟨held, hheld.updated hu, hwork⟩
  cleared p c met i id src hph hmet hasked hid hsrc := by
    rw [hu.entry i]
    exact h.cleared p c met i id src hph hmet hasked hid hsrc

end Updated

end Runs

/-! ## Histories -/

/-- A system of processes, and the data store its driver is updated through. -/
structure Hosted where
  system : System
  store : DataStore

/-- What can happen next. -/
inductive HostedMove
  | move (m : Move)
  /-- A new version of the driver takes over. -/
  | liveUpdate (p : Place) (choice : ℕ → Option Addr)

/-- One such step. -/
inductive Hosted.Moves (ancestor : Int32 → Int32 → Bool) : Hosted → HostedMove → Hosted → Prop
  | move {σ σ' : System} {d : DataStore} {m : Move} (h : σ.Moves ancestor m σ') :
      Hosted.Moves ancestor ⟨σ, d⟩ (.move m) ⟨σ', d⟩
  | liveUpdate {σ : System} {s' : Driver} {d d' : DataStore} {p : Place}
      {choice : ℕ → Option Addr} (h : Lives ⟨σ.driver, d⟩ (.liveUpdate p choice) ⟨s', d'⟩) :
      Hosted.Moves ancestor ⟨σ, d⟩ (.liveUpdate p choice) ⟨{ σ with driver := s' }, d'⟩

def Hosted.started (p : Place) (d : DataStore) : Hosted := ⟨System.initial p.addr, d⟩

/-- What is seen of calls: live updates are not. -/
def Hosted.external (e : Event Hosted HostedMove) : Option (External Int32 LibCall Result) :=
  match e.label with
  | .move m => System.external ⟨e.pre.system, m, e.post.system⟩
  | .liveUpdate _ _ => none

/-- What is seen of a step. -/
def Hosted.seen (ancestor : Int32 → Int32 → Bool) (e : Event Hosted HostedMove) :
    Option (Seen Int32 LibCall Mishap Result) :=
  match e.label with
  | .move m => System.seen ancestor ⟨e.pre.system, m, e.post.system⟩
  | .liveUpdate _ _ => none

/-- A live update finds memory and leaves the table where it is. -/
def Hosted.InPlace (e : Event Hosted HostedMove) : Prop :=
  match e.label with
  | .move _ => True
  | .liveUpdate p choice =>
    p.addr = e.pre.system.driver.addr ∧ Allocates e.pre.system.driver (fun _ ↦ none) choice

section Histories

variable {ancestor : Int32 → Int32 → Bool} {p : Place} {d : DataStore} {v : Hosted}
  {h : List (Event Hosted HostedMove)}

theorem Depicts.step {e : Event Hosted HostedMove} {a : Atomic Int32 Board LibCall Mishap Result}
    (ha : Depicts ancestor e.pre.system a) (hplace : Hosted.InPlace e)
    (he : Hosted.Moves ancestor e.pre e.label e.post) :
    ∃ h' a', Run (Atomic.Step (boardSpec ancestor)) a h' a' ∧
      h'.filterMap Atomic.seen = (Hosted.seen ancestor e).toList ∧
      Depicts ancestor e.post.system a' := by
  obtain ⟨v, l, v'⟩ := e
  cases he with
  | move hm => exact ha.move hm
  | @liveUpdate σ s' d d' p choice hlu =>
    obtain ⟨haddr, hA⟩ : p.addr = σ.driver.addr ∧ Allocates σ.driver (fun _ ↦ none) choice :=
      hplace
    exact ⟨[], a, .nil, rfl, ha.updated (updated_of_lives ha.inv hlu hA) haddr⟩

/-- In every run the system is an atomic object that has shown the same. -/
theorem exists_depicts (hrun : Run (Hosted.Moves ancestor) (Hosted.started p d) h v)
    (hplace : ∀ e ∈ h, Hosted.InPlace e) :
    ∃ h' a, Run (Atomic.Step (boardSpec ancestor)) (Atomic.idle fun _ ↦ .free) h' a ∧
      h'.filterMap Atomic.seen = h.filterMap (Hosted.seen ancestor) ∧
      Depicts ancestor v.system a :=
  hrun.simulate_traces (Q := Hosted.InPlace) (R := fun v a ↦ Depicts ancestor v.system a)
    (Hosted.seen ancestor) Atomic.seen (depicts_initial p.fits)
    (fun _ _ ha hQ he ↦ ha.step hQ he) hplace

theorem exists_depicts_of_moves {σ : System} {h : List (Event System Move)} (place : Place)
    (hrun : Run (System.Moves ancestor) (System.initial place.addr) h σ) :
    ∃ a, Depicts ancestor σ a := by
  have hhosted : Run (Hosted.Moves ancestor) (Hosted.started place fun _ ↦ none) _
      ⟨σ, fun _ ↦ none⟩ :=
    hrun.map (fun σ ↦ (⟨σ, fun _ ↦ none⟩ : Hosted)) HostedMove.move
      fun _ _ _ hm ↦ Hosted.Moves.move hm
  obtain ⟨-, a, -, -, ha⟩ := exists_depicts (p := place) hhosted fun e he ↦ by
    obtain ⟨f, -, rfl⟩ := List.mem_map.mp he
    trivial
  exact ⟨a, ha⟩

/-- **The library is linearizable.** What is seen of the library calls of any number of processes,
their system calls in any order and with live updates anywhere in between, is what is seen of calls
to a board that each take effect at one moment between their start and their return, and meet with
the same mishaps; and in the end that board is what the driver holds. -/
theorem linearizable (hrun : Run (Hosted.Moves ancestor) (Hosted.started p d) h v)
    (hplace : ∀ e ∈ h, Hosted.InPlace e) :
    ∃ h' a, Run (Atomic.Step (boardSpec ancestor)) (Atomic.idle fun _ ↦ .free) h' a ∧
      h'.filterMap Atomic.seen = h.filterMap (Hosted.seen ancestor) ∧
      a.memory = board v.system.driver.table := by
  obtain ⟨h', a, hrun', htrace, hdepicts⟩ := exists_depicts hrun hplace
  exact ⟨h', a, hrun', htrace, hdepicts.memory⟩

end Histories

/-- Process 7 opens the device for its paste, process 1 copies one byte in between, and both calls
return. -/
def sampleOverlap : List Move :=
  sampleCall 7 (.paste 99 1) 1 16 ++ sampleCall 1 (.copy (fun _ ↦ 65) 1) 3 8
    ++ List.replicate 6 (.sysCall 7 (sampleEnv 16))
    ++ [.finish 7, .sysCall 1 (sampleEnv 8), .finish 1]

theorem System.exists_run_overlap : ∃ h σ,
    Run (System.Moves fun a _ ↦ a == 1) (System.initial 4096) h σ ∧
      σ.received 7 = some (1, [65]) := by
  have hmoves : (sampleOverlap.foldlM (System.move fun a _ ↦ a == 1) (System.initial 4096)).map
      (System.received · 7) = some (some (1, [65])) := by
    decide +kernel
  obtain ⟨σ, hfold, hreceived⟩ := Option.map_eq_some_iff.mp hmoves
  obtain ⟨h, hrun, -⟩ := Run.of_foldlM (System.Moves fun a _ ↦ a == 1)
    (Q := fun _ ↦ True) (fun _ _ _ hm ↦ ⟨hm, trivial⟩) hfold
  exact ⟨h, σ, hrun, hreceived⟩

def Hosted.sampleMove (v : Hosted) : HostedMove → Option Hosted
  | .move m => (v.system.move (fun a _ ↦ a == 1) m).map fun σ ↦ ⟨σ, v.store⟩
  | .liveUpdate _ _ => none

theorem Hosted.of_sampleMove (v : Hosted) (l : HostedMove) (v' : Hosted)
    (h : v.sampleMove l = some v') :
    Hosted.Moves (fun a _ ↦ a == 1) v l v' ∧ Hosted.InPlace ⟨v, l, v'⟩ := by
  cases l with
  | move m =>
    obtain ⟨σ, hm, rfl⟩ := Option.map_eq_some_iff.mp h
    exact ⟨.move hm, trivial⟩
  | liveUpdate p choice => cases h

theorem exists_run_overlap : ∃ h v,
    Run (Hosted.Moves fun a _ ↦ a == 1) (Hosted.started samplePlace fun _ ↦ none) h v ∧
      v.system.received 7 = some (1, [65]) ∧ ∀ e ∈ h, Hosted.InPlace e := by
  have hmoves : ((sampleOverlap.map .move).foldlM Hosted.sampleMove
      (Hosted.started samplePlace fun _ ↦ none)).map
      (fun v ↦ (v.system.received 7, v.system.driver.addr)) = some (some (1, [65]), 4096) := by
    decide +kernel
  obtain ⟨v, hfold, hv⟩ := Option.map_eq_some_iff.mp hmoves
  obtain ⟨h, hrun, hplace⟩ := Run.of_foldlM (Hosted.Moves fun a _ ↦ a == 1)
    (Q := Hosted.InPlace) Hosted.of_sampleMove hfold
  obtain ⟨_, _, -, -, hdepicts⟩ := exists_depicts hrun hplace
  have hA := allocates_sampleChoice v.system.driver
  obtain ⟨w, hlu⟩ := exists_lives_liveUpdate (v := ⟨v.system.driver, v.store⟩) hdepicts.inv
    samplePlace hA
  refine ⟨_, _, hrun.snoc (.liveUpdate hlu), congrArg Prod.fst hv, fun e he ↦ ?_⟩
  rcases List.mem_append.mp he with he | he
  · exact hplace e he
  · obtain rfl := List.mem_singleton.mp he
    exact ⟨(congrArg Prod.snd hv).symm, hA⟩

theorem linearizable_sample : ∃ h v,
    Run (Hosted.Moves fun a _ ↦ a == 1) (Hosted.started samplePlace fun _ ↦ none) h v ∧
      v.system.received 7 = some (1, [65]) ∧
      ∃ h' a, Run (Atomic.Step (boardSpec fun a _ ↦ a == 1)) (Atomic.idle fun _ ↦ .free) h' a ∧
        h'.filterMap Atomic.seen = h.filterMap (Hosted.seen fun a _ ↦ a == 1) ∧
        a.memory = board v.system.driver.table := by
  obtain ⟨h, v, hrun, hreceived, hplace⟩ := exists_run_overlap
  exact ⟨h, v, hrun, hreceived, linearizable hrun hplace⟩

end MinixClipboard
