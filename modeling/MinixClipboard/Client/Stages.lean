import MinixClipboard.Client.Model
import MinixClipboard.Driver.Lengths

/-!
# Where a library call is

The two library functions cut at their system calls. Each stage is the program that is left when the
call it begins with is the next one to be made; a library call passes from one to the next and
returns from most of them.

After that, what the driver answers to each of the four device requests, and what a copy and the end
of a paste come to for a process that has the device for itself, in any state of the driver.
-/

namespace MinixClipboard

open Program

/-! ## Paste -/

section Paste

variable (id bufferLen : UInt32) (locals : Locals)

def pasteClose (fd : Int32) (ret : UInt32) (written : List CChar) : Client Result :=
  .call (.close fd) fun _ ↦ .ret (.pasted ret written)

def pasteGet (fd pid : Int32) (mg : GetMsg) : Client Result :=
  .call (.read fd mg.zeroed (encodePid pid.toUInt32)) fun x ↦
    if x.1 < 0 then .ret (.pasted x.1.toUInt32 [])
    else pasteClose fd x.1.toUInt32 (x.2.buffer.bytes x.2.bufferLen.toNat)

def pasteLock (fd pid : Int32) (mg : GetMsg) : Client Result :=
  .call (.write fd ((⟨pid.toUInt32, id, bufferLen⟩ : LockMsg).toWrite locals.buffer) lockSize)
    fun ret ↦ if ret < 0 then .ret (.pasted ret.toUInt32 []) else pasteGet fd pid mg

def pasteCheck (fd src : Int32) (mg : GetMsg) (pid : Int32) : Client Result :=
  .call (.checkIfAncestor src pid) fun permitted ↦
    if !permitted then .ret (.pasted (-1) []) else pasteLock id bufferLen locals fd pid mg

def pasteGetpid (fd src : Int32) (mg : GetMsg) : Client Result :=
  .call .getpid fun pid ↦ pasteCheck id bufferLen locals fd src mg pid

def pasteQuery (fd : Int32) : Client Result :=
  .call (.read fd locals.mg (encodeId id)) fun x ↦
    if x.1 < 0 then .ret (.pasted (-1) []) else pasteGetpid id bufferLen locals fd x.1 x.2

theorem program_paste : (LibCall.paste id bufferLen).program locals =
    .call .openDevice fun fd ↦
      if fd < 0 then .ret (.pasted (-1) [])
      else if id.toNat ≥ bufMaxCount then .ret (.pasted (-1) [])
      else pasteQuery id bufferLen locals fd := by
  simp only [LibCall.program, pasteFromClipboard, Client.openDevice, Client.read, Client.write,
    Client.checkIfAncestor, Client.getpid, Client.close, request_bind, pure_eq_ret, call_bind,
    ite_bind, ret_bind]
  rfl

end Paste

/-! ## Copy -/

section Copy

variable (buffer : Memory) (bufferLen : UInt32) (locals : Locals)

def copyClose (fd : Int32) (ret : UInt32) : Client Result :=
  .call (.close fd) fun _ ↦ .ret (.copied ret)

def copySet (fd pid : Int32) : Client Result :=
  .call (.write fd (copyMsg pid buffer bufferLen locals).toWrite setSize) fun ret ↦
    copyClose fd ret.toUInt32

def copyGetpid (fd : Int32) : Client Result :=
  .call .getpid fun pid ↦ copySet buffer bufferLen locals fd pid

theorem program_copy : (LibCall.copy buffer bufferLen).program locals =
    if bufferLen.toNat > entryLenLimit then .ret (.copied (-1))
    else .call .openDevice fun fd ↦
      if fd < 0 then .ret (.copied (-1)) else copyGetpid buffer bufferLen locals fd := by
  simp only [LibCall.program, copyToClipboard, Client.openDevice, Client.write, Client.getpid,
    Client.close, request_bind, pure_eq_ret, call_bind, ite_bind, ret_bind]
  rfl

end Copy

/-! ## Answers -/

section Answers

open Fallible Driver

variable {ancestor : Int32 → Int32 → Bool} {env : Env} {p : Int32} {s : Driver}
  {i : Fin bufMaxCount}

theorem handle_openDevice : handle ancestor env p .openDevice s = .ok (env.fd, s) := rfl

theorem handle_getpid : handle ancestor env p .getpid s = .ok (p, s) := rfl

theorem handle_close (fd : Int32) : handle ancestor env p (.close fd) s =
    .ok ((0 : Int32), s) := rfl

theorem handle_checkIfAncestor (q : Int32) :
    handle ancestor env p (.checkIfAncestor q p) s = .ok (decide (Permits ancestor q p), s) := rfl

theorem exec_of_ok {α : Type} {op : SysCall} {next : op.Answer → Client α} {x : op.Answer}
    {s' : Driver} (h : handle ancestor env p op s = .ok (x, s')) :
    exec (handle ancestor env p) (.call op next) s = exec (handle ancestor env p) (next x) s' :=
  bind_ok h _

/-- A query is answered with the `source_pid` of the slot, in use or not. -/
theorem handle_query {id : UInt32} (hid : id.toNat < bufMaxCount) (fd : Int32) (mg : GetMsg) :
    handle ancestor env p (.read fd mg (encodeId id)) s
      = .ok (((s.entries ⟨id.toNat, hid⟩).sourcePid, mg), s) := by
  have hquery : (Call.read (encodeId id) env.reply ok).query? = some id := by
    refine if_pos (decide_eq_true (UInt32.lt_iff_toNat_lt.mpr ?_))
    exact hid.trans (by decide)
  have hcall : clipboardRead (encodeId id) env.reply ok
      = do return (← pidQuery id, none) := call_of_query? hquery
  rw [handle, hcall, bind_ok (bind_ok (pidQuery_of_lt hid) _)]
  simp only [pure_apply, Int32.ofInt_toInt]

theorem handle_lock (ml : LockMsg) (fd : Int32) (rest : Memory) :
    handle ancestor env p (.write fd (ml.toWrite rest) lockSize)
      = do return Int32.ofInt (← doClipboardLock ml) := rfl

theorem handle_set (ms : SetMsg) (fd : Int32) :
    handle ancestor env p (.write fd ms.toWrite setSize)
      = do return Int32.ofInt (← doClipboardSet (env.copyFrom ms.toWrite).set env.choice) := rfl

theorem get?_encodePid (hp : 0 ≤ p) (msg : GetMsg) (copied : ℤ) :
    (Call.read (encodePid p.toUInt32) msg copied).get? = some (p, msg) := by
  have hlt : p.toUInt32.toNat < 2 ^ 31 := by
    rw [Int32.toNat_toUInt32_of_le hp]
    exact p.toNatClampNeg_lt
  rw [Call.get?, decodePid_encodePid, Int32.toInt32_toUInt32,
    if_pos ⟨isPidQuery_encodePid hlt, hp⟩]

theorem bytes_copyTo {out mg : GetMsg} {n : ℕ} (hn : n ≤ entryLenLimit) :
    (copyTo out mg).buffer.bytes n = out.buffer.bytes n :=
  Memory.bytes_congr fun _ hk ↦ if_pos (hk.trans_le hn)

variable (ancestor env) in
theorem handle_get_of_lockedBy (hI : Inv s) (hp : 0 ≤ p) (hi : LockedBy s i p)
    (hlen : (s.entries i).bufferLen.toNat ≤ entryLenLimit) (fd : Int32) (mg : GetMsg) :
    ∃ mg' s', handle ancestor env p (.read fd mg (encodePid p.toUInt32)) s = .ok ((0, mg'), s') ∧
      mg'.buffer.bytes mg'.bufferLen.toNat = s.heap.contents (s.entries i).buffer ∧
      Delivers s i s' := by
  have hread := clipboardRead_of_get? (get?_encodePid hp env.reply ok)
  have hlock := lock?_eq_some_of_table hI.exclusive (lockedBy_iff_table.mp hi)
  have huse : (s.entries i).inUse ≠ .empty := by simp [hi.1]
  rcases doClipboardGet_spec hI p env.reply with ⟨hnone, -⟩ | ⟨k, s', hsome, hok, hdel⟩
  · rw [hlock] at hnone
    simp at hnone
  obtain rfl : i = k := by simpa [hlock] using hsome
  refine ⟨copyTo (filled env.reply (s.entries i) (s.heap.contents (s.entries i).buffer)) mg, s', ?_,
    ?_, hdel⟩
  · rw [handle, hread, bind_apply, bind_ok hok, finishRead, if_pos rfl, filled,
      if_neg (Nat.not_lt.mpr hlen)]
    rfl
  · refine (bytes_copyTo hlen).trans ?_
    have hwrite := Memory.bytes_write env.reply.buffer (s.heap.contents (s.entries i).buffer)
    rw [hI.buffers.length i huse] at hwrite
    exact hwrite

/-- What a copy stores, at the address `malloc` returned. -/
def copyPayload (p : Int32) (buffer : Memory) (bufferLen : UInt32) (a : Addr) : Payload where
  sourcePid := p
  bufferLen := bufferLen
  decompressedLen := expectedDecompressedSize (buffer.bytes bufferLen.toNat)
  buffer := a
  bytes := buffer.bytes bufferLen.toNat

/-- The bytes of a copy's message are those of the caller's buffer. -/
theorem setPayload_copyMsg {buffer : Memory} {bufferLen : UInt32} {locals : Locals}
    (hlen : bufferLen.toNat ≤ entryLenLimit) (a : Addr) :
    setPayload (env.copyFrom (copyMsg p buffer bufferLen locals).toWrite).set a
      = copyPayload p buffer bufferLen a := by
  have hbytes : setBytes (env.copyFrom (copyMsg p buffer bufferLen locals).toWrite).set
      = buffer.bytes bufferLen.toNat := by
    have hwrite := Memory.bytes_write locals.buffer (buffer.bytes bufferLen.toNat)
    rw [Memory.length_bytes] at hwrite
    rw [← hwrite]
    exact Memory.bytes_congr fun k hk ↦ if_pos (hk.trans_le hlen)
  rw [setPayload, hbytes]
  rfl

/-! ## Whole calls -/

theorem exec_copy_eq (hfd : 0 ≤ env.fd) {buffer : Memory} {bufferLen : UInt32}
    (hlen : bufferLen.toNat ≤ entryLenLimit) (locals : Locals) :
    exec (handle ancestor env p) ((LibCall.copy buffer bufferLen).program locals) s
      = (doClipboardSet (env.copyFrom (copyMsg p buffer bufferLen locals).toWrite).set env.choice
        >>= fun r ↦ pure (.copied (Int32.ofInt r).toUInt32)) s := by
  rw [program_copy, if_neg (Nat.not_lt.mpr hlen), exec_of_ok handle_openDevice,
    if_neg (Int32.not_lt.mpr hfd), copyGetpid, exec_of_ok handle_getpid, copySet, exec_call,
    handle_set, bind_apply, bind_apply, bind_apply]
  cases doClipboardSet
    (env.copyFrom (copyMsg p buffer bufferLen locals).toWrite).set env.choice s with
  | error e => rfl
  | ok q => rfl

theorem toUInt32_ofInt_fin (i : Fin bufMaxCount) :
    (Int32.ofInt ((i : ℕ) : ℤ)).toUInt32 = UInt32.ofNat i.val := by
  rw [Int32.ofInt_eq_ofNat, Int32.toUInt32_ofNat']

variable (ancestor p) in
/-- A copy, in any state of the driver: it is too long, the driver is full, it stores its bytes, or
there is no memory for them. -/
theorem exec_copy (hI : Inv s) (hfd : 0 ≤ env.fd) (buffer : Memory) (bufferLen : UInt32)
    (locals : Locals) :
    (entryLenLimit < bufferLen.toNat ∧
      exec (handle ancestor env p) ((LibCall.copy buffer bufferLen).program locals) s
        = .ok (.copied (-1), s)) ∨
    bufferLen.toNat ≤ entryLenLimit ∧
      ((∀ i, (s.entries i).inUse ≠ .empty) ∧
        exec (handle ancestor env p) ((LibCall.copy buffer bufferLen).program locals) s
          = .ok (.copied (-1), s) ∨
      ∃ i, (s.entries i).inUse = .empty ∧
        ((∃ a s', exec (handle ancestor env p) ((LibCall.copy buffer bufferLen).program locals) s
            = .ok (.copied (UInt32.ofNat i.val), s') ∧
          Accepts s i (env.copyFrom (copyMsg p buffer bufferLen locals).toWrite).set a s' ∧
          setPayload (env.copyFrom (copyMsg p buffer bufferLen locals).toWrite).set a
            = copyPayload p buffer bufferLen a) ∨
        ¬s.heap.Succeeds env.choice ∧
          exec (handle ancestor env p) ((LibCall.copy buffer bufferLen).program locals) s
            = .error .pointer)) := by
  by_cases hlong : bufferLen.toNat > entryLenLimit
  · rw [program_copy, if_pos hlong]
    exact Or.inl ⟨hlong, rfl⟩
  have hlen := Nat.not_lt.mp hlong
  refine Or.inr ⟨hlen, ?_⟩
  rcases doClipboardSet_spec hI (env.copyFrom (copyMsg p buffer bufferLen locals).toWrite).set
    env.choice with ⟨hfull, hok⟩ | ⟨i, hi, -, ⟨a, s', hok, hacc, -⟩ | ⟨hfail, -, hbad⟩⟩
  · rw [exec_copy_eq hfd hlen, bind_ok hok]
    exact Or.inl ⟨hfull, rfl⟩
  · rw [exec_copy_eq hfd hlen, bind_ok hok, toUInt32_ofInt_fin]
    exact Or.inr ⟨i, hi, Or.inl ⟨a, s', rfl, hacc, setPayload_copyMsg hlen a⟩⟩
  · rw [exec_copy_eq hfd hlen, bind_error hbad]
    exact Or.inr ⟨i, hi, Or.inr ⟨hfail, rfl⟩⟩

variable (ancestor env) in
/-- What is left of a paste once its lock is granted: the get finds it, and takes the entry. -/
theorem exec_pasteGet (hI : Inv s) (hp : 0 < p) {ml : LockMsg} (hid : ml.id.toNat = i)
    (hpid : ml.pid = p.toUInt32) {s₁ : Driver} (hlock : doClipboardLock ml s = .ok (ok, s₁))
    (hlen : (s.entries i).bufferLen.toNat ≤ entryLenLimit) (fd : Int32) (mg : GetMsg) :
    ∃ s', exec (handle ancestor env p) (pasteGet fd p mg) s₁
        = .ok (.pasted 0 (s.heap.contents (s.entries i).buffer), s') ∧
      Inv s' ∧ s'.table = Function.update (LockTable.release p s.table) i none ∧
      ∀ ids, FreeIds s ids → FreeIds s' (ids ++ [i]) := by
  have hserves : Serves s (.lock ml, ⟨ok, none⟩) s₁ := serves_lock_iff.mpr ⟨ok, hlock, rfl⟩
  have hI₁ : Inv s₁ := (serves_refines (e := ⟨s, _, s₁⟩) hI hserves).1
  obtain ⟨k, hk, hi, hpay⟩ := lockedBy_of_serves hI hserves
  obtain ⟨hsame, hneg | ⟨k', v, -, hk', -, -, htable⟩⟩ := doClipboardLock_refines hI hlock
  · exact absurd hneg.1 (by decide)
  obtain rfl : i = k := Fin.ext (hid.symm.trans hk)
  obtain rfl : i = k' := Fin.ext (hid.symm.trans hk')
  rw [hpid, Int32.toInt32_toUInt32] at hi htable
  have hbufferLen : (s₁.entries i).bufferLen = (s.entries i).bufferLen :=
    congrArg Payload.bufferLen hpay
  obtain ⟨mg', s', hget, hbytes, hdel⟩ :=
    handle_get_of_lockedBy ancestor env hI₁ (Int32.le_of_lt hp) hi
    (by rw [hbufferLen]; exact hlen) fd mg.zeroed
  refine ⟨s', ?_, hdel.inv, by rw [hdel.table, htable, Function.update_idem], fun ids hids ↦
    hdel.free ids (hids.of_inUse hsame.addr hsame.availableEntries hsame.empty_iff)⟩
  rw [pasteGet, exec_of_ok hget, if_neg (show ¬(0 : Int32) < 0 by decide), pasteClose,
    exec_of_ok (handle_close fd), hbytes]
  exact congrArg (fun bytes ↦ Except.ok (Result.pasted 0 bytes, s')) (congrArg Payload.bytes hpay)

end Answers

end MinixClipboard
