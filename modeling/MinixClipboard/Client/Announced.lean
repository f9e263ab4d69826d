import MinixClipboard.Client.Refines

/-!
# The announced length

`expected_decompressed_size` parses bytes that nobody has checked. What it computes, with its
counters that wrap, is the number of letters the bytes announce: every byte that is no digit stands
for one letter, or for as many as the number behind it says, and so does a number at the very start.
A number that is zero, modulo the word size, counts as one.

A paste compares the caller's buffer with this number, and then copies as many bytes as were stored.
`pasteFits_iff` says for which bytes the first protects from the second.
-/

namespace MinixClipboard

open Fallible Program Driver

/-! ## What bytes announce -/

/-- How many letters a number announces. -/
def count (n : ℕ) : ℕ := if n % 2 ^ 32 = 0 then 1 else n % 2 ^ 32

/-- How many letters are announced by the bytes that are no digits. -/
def letters : List CChar → ℕ
  | [] => 0
  | c :: cs => (if isDigit c then 0 else count (number 0 (cs.takeWhile isDigit))) + letters cs

/-- How many letters bytes announce. -/
def announced (bytes : List CChar) : ℕ :=
  (if bytes.takeWhile isDigit = [] then 0 else count (number 0 (bytes.takeWhile isDigit)))
    + letters bytes

theorem count_number_mod (n : ℕ) (digits : List CChar) :
    count (number (n % 2 ^ 32) digits) = count (number n digits) := by
  rw [count, count, number_mod]

theorem toNat_add_digit {c : CChar} (hc : isDigit c = true) (current : UInt32) :
    (10 * current + c.toInt32.toUInt32 - 48).toNat = (10 * current.toNat + digit c) % 2 ^ 32 := by
  rw [toNat_add_sub_digit hc, UInt32.toNat_mul]
  change (10 * current.toNat % 2 ^ 32 + digit c) % 2 ^ 32 = _
  omega

/-- Including a letter behind the first position counts it as often as its number says, and the
counter is zero afterwards. -/
theorem includeChar_of_pos (len current : UInt32) {pos : UInt32} (hpos : 0 < pos.toNat) :
    (includeChar len current pos).1.toNat = (len.toNat + count current.toNat) % 2 ^ 32 ∧
      (includeChar len current pos).2 = 0 := by
  have hpos' : 0 < pos := UInt32.lt_iff_toNat_lt.mpr hpos
  have hlt := current.toNat_lt
  rw [includeChar, count, Nat.mod_eq_of_lt hlt]
  by_cases hzero : current = 0
  · subst hzero
    exact ⟨by simp [hpos'], by simp [hpos']⟩
  · have hne : current.toNat ≠ 0 := fun h ↦ hzero (UInt32.toNat_inj.mp h)
    simp only [beq_eq_false_iff_ne.mpr hzero, Bool.false_and, Bool.false_eq_true, if_false,
      if_neg hne, UInt32.toNat_add, and_self]

theorem expectedFrom_toNat (cs : List CChar) (len current pos : UInt32) (hpos : 0 < pos.toNat)
    (hlt : pos.toNat + cs.length < 2 ^ 32) :
    (expectedFrom cs len current pos).toNat
      = (len.toNat + count (number current.toNat (cs.takeWhile isDigit)) + letters cs)
        % 2 ^ 32 := by
  induction cs generalizing len current pos with
  | nil =>
    rw [expectedFrom, (includeChar_of_pos len current hpos).1]
    rfl
  | cons c cs ih =>
    rw [List.length_cons] at hlt
    have hnext : (pos + 1).toNat = pos.toNat + 1 := by
      rw [UInt32.toNat_add]
      change (pos.toNat + 1) % 2 ^ 32 = _
      omega
    cases hc : isDigit c with
    | false =>
      obtain ⟨hlen, hcurrent⟩ := includeChar_of_pos len current hpos
      rw [expectedFrom, hc, if_pos (by decide)]
      simp only [hcurrent]
      rw [ih _ _ _ (by omega) (by omega), hlen, List.takeWhile_cons_of_neg (by simp [hc]), letters,
        hc]
      change ((len.toNat + count current.toNat) % 2 ^ 32 + count (number 0 _) + _) % 2 ^ 32
        = (len.toNat + count current.toNat + (count (number 0 _) + _)) % 2 ^ 32
      omega
    | true =>
      rw [expectedFrom, hc, if_neg (by decide), ih _ _ _ (by omega) (by omega),
        toNat_add_digit hc, count_number_mod, List.takeWhile_cons_of_pos hc, letters, hc,
        if_pos rfl, Nat.zero_add]
      rfl

/-- **`expected_decompressed_size`** is what the bytes announce, modulo the word size. -/
theorem expectedDecompressedSize_toNat {bytes : List CChar} (hlt : bytes.length < 2 ^ 32) :
    (expectedDecompressedSize bytes).toNat = announced bytes % 2 ^ 32 := by
  rw [expectedDecompressedSize]
  cases bytes with
  | nil => rfl
  | cons c cs =>
    rw [List.length_cons] at hlt
    have hone : (0 + 1 : UInt32).toNat = 1 := rfl
    rw [announced, letters, expectedFrom]
    cases hc : isDigit c with
    | false =>
      rw [if_pos (by decide)]
      simp only []
      rw [expectedFrom_toNat _ _ _ _ (by rw [hone]; omega) (by rw [hone]; omega)]
      rw [List.takeWhile_cons_of_neg (by simp [hc]), if_pos rfl]
      change (0 + count (number 0 _) + _) % 2 ^ 32 = (0 + (count (number 0 _) + _)) % 2 ^ 32
      omega
    | true =>
      rw [if_neg (by decide),
        expectedFrom_toNat _ _ _ _ (by rw [hone]; omega) (by rw [hone]; omega),
        toNat_add_digit hc, count_number_mod, List.takeWhile_cons_of_pos hc, if_neg (by simp),
        if_pos rfl, Nat.zero_add]
      change (0 + _ + _) % 2 ^ 32 = _
      rw [Nat.zero_add]
      rfl

/-! ## What a paste writes -/

variable {ancestor : Int32 → Int32 → Bool} {env : Env} {addr : Addr} {p : Int32} {s s' : Driver}
  {i : Fin bufMaxCount}

theorem value_table_iff {v : Payload} : LockTable.value s.table i = some v ↔
    (s.entries i).inUse ≠ .empty ∧ payload s.heap (s.entries i) = v := by
  rw [LockTable.value, table, slotOf]
  cases (s.entries i).inUse <;> simp

/-- A paste writes nothing, or it writes what is stored, to a buffer as long as was announced. -/
theorem written_of_exec_paste (hI : Inv s) (hp : 0 < p) {id bufferLen ret : UInt32}
    (hid : id.toNat = i) {v : Payload} (hv : LockTable.value s.table i = some v)
    (hlen : v.bufferLen.toNat ≤ entryLenLimit) {locals : Locals} {written : List CChar}
    (hexec : exec (handle ancestor env p) ((LibCall.paste id bufferLen).program locals) s
      = .ok (.pasted ret written, s')) :
    written = [] ∨ v.decompressedLen ≤ bufferLen ∧ written = v.bytes := by
  have hempty : ∀ {r : UInt32} {t : Driver},
      (Except.ok (Result.pasted r [], t) : Except Fault _) = .ok (.pasted ret written, s') →
        written = [] := by
    intro r t h
    simp only [Except.ok.injEq, Prod.mk.injEq, Result.pasted.injEq] at h
    exact h.1.2.symm
  obtain ⟨-, rfl⟩ := value_table_iff.mp hv
  have hlt : id.toNat < bufMaxCount := hid ▸ i.isLt
  obtain rfl : i = ⟨id.toNat, hlt⟩ := Fin.ext hid.symm
  rw [program_paste, exec_of_ok handle_openDevice] at hexec
  by_cases hfd : env.fd < 0
  · rw [if_pos hfd] at hexec
    exact Or.inl (hempty hexec)
  rw [if_neg hfd, if_neg (Nat.not_le.mpr hlt), pasteQuery, exec_of_ok (handle_query hlt _ _)]
    at hexec
  split at hexec
  · exact Or.inl (hempty hexec)
  rw [pasteGetpid, exec_of_ok handle_getpid, pasteCheck, exec_of_ok (handle_checkIfAncestor _)]
    at hexec
  split at hexec
  · exact Or.inl (hempty hexec)
  have hsame := (sameButLocks_unlocked s p).payload s.heap ⟨id.toNat, hlt⟩
  have hlock : doClipboardLock ⟨p.toUInt32, id, bufferLen⟩ s = _ := doClipboardLock_eq _ hlt s
  rw [pasteLock] at hexec
  split at hlock
  · rename_i hgrant
    obtain ⟨t, hget, -⟩ := exec_pasteGet ancestor env hI hp hid rfl hlock hlen
      env.fd locals.mg
    rw [exec_of_ok (bind_ok hlock _), if_neg (show ¬Int32.ofInt ok < 0 by decide), hget,
      Except.ok.injEq, Prod.mk.injEq, Result.pasted.injEq] at hexec
    have hdec : ((s.unlocked p).entries ⟨id.toNat, hlt⟩).decompressedLen
        = (s.entries ⟨id.toNat, hlt⟩).decompressedLen := congrArg Payload.decompressedLen hsame
    refine Or.inr ⟨?_, hexec.1.2.symm⟩
    change (s.entries _).decompressedLen ≤ bufferLen
    rw [← hdec]
    exact hgrant.2
  · rw [exec_of_ok (bind_ok hlock _), if_pos (show Int32.ofInt (-1) < 0 by decide)] at hexec
    exact Or.inl (hempty hexec)

/-! ## Whether a paste stays within its buffer -/

/-- A copy of these bytes has been stored under `i`, and the slot has been in use ever since. -/
def StoredCopy (addr : Addr) (buffer : Memory) (n : UInt32) (i : Fin bufMaxCount) (s : Driver) :
    Prop :=
  ∃ s₀ ancestor q env locals s₁ h, Reachable Serves (initial addr) s₀ ∧
    0 ≤ Env.fd env ∧
    exec (handle ancestor env q) ((LibCall.copy buffer n).program locals) s₀
      = .ok (.copied (UInt32.ofNat i.val), s₁) ∧
    Run Serves s₁ h s ∧ ∀ e ∈ h, (e.post.entries i).inUse ≠ .empty

/-- No paste of a copy of these bytes writes more than its caller's buffer can hold. -/
def PasteFits (buffer : Memory) (n : UInt32) : Prop :=
  ∀ addr i s, Stack.Fits addr → StoredCopy addr buffer n i s →
    ∀ ancestor p env locals id bufferLen ret written s', 0 < p → id.toNat = i.val →
      exec (handle ancestor env p) ((LibCall.paste id bufferLen).program locals) s
        = .ok (.pasted ret written, s') → written.length ≤ bufferLen.toNat

theorem value_of_run (hI : Inv s) {v : Payload} (hv : LockTable.value s.table i = some v)
    {h : List (Event Driver (Request × Reply))} (hrun : Run Serves s h s')
    (huse : ∀ e ∈ h, (e.post.entries i).inUse ≠ .empty) :
    Inv s' ∧ LockTable.value s'.table i = some v := by
  refine hrun.invariant_of (P := fun s ↦ Inv s ∧ LockTable.value s.table i = some v)
    (Q := fun e ↦ (e.post.entries i).inUse ≠ .empty) ⟨hI, hv⟩ (fun e hpre hne hserves ↦ ?_) huse
  obtain ⟨hI', a, -, hstep⟩ := serves_refines hpre.1 hserves
  exact ⟨hI', hstep.value_of_ne_none hpre.2 (table_eq_none_iff.not.mpr hne)⟩

theorem StoredCopy.value {buffer : Memory} {n : UInt32} (ha : Stack.Fits addr)
    (h : StoredCopy addr buffer n i s) : Inv s ∧ n.toNat ≤ entryLenLimit ∧
      ∃ q a, LockTable.value s.table i = some (copyPayload q buffer n a) := by
  obtain ⟨s₀, ancestor, q, env, locals, s₁, h, hs₀, hfd, hexec, hrun, huse⟩ := h
  have hI₀ := inv_of_reachable ha hs₀
  rcases exec_copy ancestor q hI₀ hfd buffer n locals with
    ⟨-, hbad⟩ | ⟨hlen, ⟨-, hbad⟩ | ⟨k, -, ⟨a, t, hok, hacc, hpay⟩ | ⟨-, hbad⟩⟩⟩
  · have habs := hbad.symm.trans hexec
    simp only [Except.ok.injEq, Prod.mk.injEq, Result.copied.injEq] at habs
    exact absurd habs.1 (toNat_neg_one_ne i)
  · have habs := hbad.symm.trans hexec
    simp only [Except.ok.injEq, Prod.mk.injEq, Result.copied.injEq] at habs
    exact absurd habs.1 (toNat_neg_one_ne i)
  · have hsame := hok.symm.trans hexec
    simp only [Except.ok.injEq, Prod.mk.injEq, Result.copied.injEq] at hsame
    obtain ⟨hki, rfl⟩ := hsame
    obtain rfl : k = i := ofNat_fin_injective hki
    have hv : LockTable.value t.table k = some (copyPayload q buffer n a) := by
      rw [LockTable.value, hacc.table, Function.update_self, hpay]
      rfl
    obtain ⟨hI, hvalue⟩ := value_of_run hacc.inv hv hrun huse
    exact ⟨hI, hlen, q, a, hvalue⟩
  · have habs := hbad.symm.trans hexec
    simp at habs

theorem pasteFits_of_le {buffer : Memory} {n : UInt32} (hlen : n.toNat ≤ entryLenLimit)
    (hle : n.toNat ≤ announced (buffer.bytes n.toNat) % 2 ^ 32) : PasteFits buffer n := by
  intro addr i s ha hstored ancestor p env locals id bufferLen ret written s' hp hid hexec
  obtain ⟨hI, -, q, a, hv⟩ := hstored.value ha
  rcases written_of_exec_paste hI hp hid hv hlen hexec with rfl | ⟨hdec, rfl⟩
  · exact Nat.zero_le _
  · have hbytes : (buffer.bytes n.toNat).length < 2 ^ 32 := by
      rw [Memory.length_bytes]
      exact hlen.trans_lt (by decide)
    rw [UInt32.le_iff_toNat_le, copyPayload, expectedDecompressedSize_toNat hbytes] at hdec
    change (buffer.bytes n.toNat).length ≤ _
    rw [Memory.length_bytes]
    exact hle.trans hdec

theorem le_of_pasteFits {buffer : Memory} {n : UInt32} (hlen : n.toNat ≤ entryLenLimit)
    (h : PasteFits buffer n) : n.toNat ≤ announced (buffer.bytes n.toNat) % 2 ^ 32 := by
  have ha : Stack.Fits 4096 := by decide
  have hQ := quiet_initial ha
  have hp : (0 : Int32) < 7 := by decide
  have hfd : 0 ≤ (sampleEnv 8).fd := by decide
  rcases exec_copy (fun _ _ ↦ false) 7 hQ.inv hfd buffer n zeroLocals with
    ⟨hlong, -⟩ | ⟨-, ⟨hfull, -⟩ | ⟨i, -, ⟨a, t, hcopy, hacc, hpay⟩ | ⟨hfail, -⟩⟩⟩
  · omega
  · exact absurd rfl (hfull 0)
  · obtain ⟨hQ', hclip⟩ := quiet_of_accepts hQ hp hacc hlen hpay
    have hbound : clip t i = some (7, buffer.bytes n.toNat) := by rw [hclip, Function.update_self]
    have hid : (UInt32.ofNat i.val).toNat = i := toNat_ofNat_fin i
    have hstored : StoredCopy 4096 buffer n i t :=
      ⟨_, _, 7, sampleEnv 8, zeroLocals, t, [], .refl, hfd, hcopy, .nil, by simp⟩
    obtain ⟨r, s', hpaste, -, hstep⟩ := completes_paste (fun _ _ ↦ false)
      (sampleEnv 8) hQ' hp hfd (UInt32.ofNat i.val)
      (expectedDecompressedSize (buffer.bytes n.toNat)) zeroLocals
    rcases hstep.of_paste hid hbound with rfl | hnot
    · have hfits := h 4096 i t ha hstored _ 7 _ _ _ _ _ _ _ hp hid hpaste
      rw [Memory.length_bytes, expectedDecompressedSize_toNat] at hfits
      · exact hfits
      · rw [Memory.length_bytes]
        exact hlen.trans_lt (by decide)
    · exact absurd (UInt32.le_refl _) (hnot (Or.inl rfl))
  · exact absurd ⟨8, rfl, by decide, rfl⟩ hfail

/-- **What a paste writes.** No paste of a copy of at most `ENTRY_LEN_LIMIT` bytes overruns its
caller's buffer exactly when the bytes announce, modulo the word size, at least as many letters as
they are. -/
theorem pasteFits_iff (buffer : Memory) {n : UInt32} (hlen : n.toNat ≤ entryLenLimit) :
    PasteFits buffer n ↔ n.toNat ≤ announced (buffer.bytes n.toNat) % 2 ^ 32 :=
  ⟨le_of_pasteFits hlen, pasteFits_of_le hlen⟩

theorem pasteFits_iff_two : PasteFits (fun _ ↦ 97) 2 ↔
    (2 : UInt32).toNat ≤ announced (Memory.bytes (fun _ ↦ 97) (2 : UInt32).toNat) % 2 ^ 32 :=
  pasteFits_iff (fun _ ↦ 97) (by decide)

/-- The two bytes `a1` announce one letter. -/
theorem not_pasteFits_a1 : ¬PasteFits (fun k ↦ if k = 0 then 97 else 49) 2 :=
  fun h ↦ absurd (le_of_pasteFits (by decide) h) (by decide)

end MinixClipboard
