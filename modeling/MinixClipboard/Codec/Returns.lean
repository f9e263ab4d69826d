import MinixClipboard.Codec.Arrays

/-!
# What functions that have returned have done

The other way round than their equations: that a loop has returned says what its first round has
done and that the other rounds have returned. This is what a second implementation of the loop is
compared with, one round at a time.
-/

namespace MinixClipboard

namespace Codec

open Fallible

variable {σ : Type} {A : Arrays σ} {s s' : σ} {i pos pos' : UInt32} {c d : CChar}

theorem of_peek (h : peek A i s = .ok (c, s')) : (A.src s)[i.toNat]? = some c ∧ s' = s := by
  rw [peek, bind_ok (get_apply s)] at h
  cases hd : (A.src s)[i.toNat]? with
  | none => rw [hd] at h; cases h
  | some d =>
    rw [hd] at h
    obtain ⟨rfl, rfl⟩ := of_pure_ok h
    exact ⟨rfl, rfl⟩

theorem of_pushChar (h : pushChar A pos c s = .ok (pos', s')) :
    pos.toNat < (A.dst s).length ∧ pos' = pos + 1 ∧
      s' = A.setDst ((A.dst s).set pos.toNat c) s := by
  rw [pushChar, bind_ok (get_apply s)] at h
  split at h
  · rename_i hlt
    obtain ⟨rfl, rfl⟩ := of_pure_ok h
    exact ⟨hlt, rfl, rfl⟩
  · cases h

/-! ## The encoder -/

variable {size : UInt32} {lastChar : CChar} {val : UInt32} {room : ℕ} {ds cs : List CChar}

theorem of_pushChars_cons (h : pushChars A pos (c :: cs) s = .ok (pos', s')) :
    pos.toNat < (A.dst s).length ∧
      pushChars A (pos + 1) cs (A.setDst ((A.dst s).set pos.toNat c) s) = .ok (pos', s') := by
  rw [pushChars] at h
  obtain ⟨pos₁, s₁, hpush, hrest⟩ := of_bind_ok h
  obtain ⟨hlt, rfl, rfl⟩ := of_pushChar hpush
  exact ⟨hlt, hrest⟩

theorem of_pushChars (h : pushChars A pos cs s = .ok (pos', s')) :
    pos' = pos + UInt32.ofNat cs.length := by
  induction cs generalizing pos s with
  | nil =>
    obtain ⟨rfl, -⟩ := of_pure_ok h
    exact (UInt32.add_zero pos).symm
  | cons c cs ih =>
    rw [ih (of_pushChars_cons h).2, List.length_cons, UInt32.ofNat_add, UInt32.add_assoc]
    exact congrArg (pos + ·) (UInt32.add_comm _ _)

theorem of_pushChars_reverse {j : ℕ} (hc : cs[j]? = some c)
    (h : pushChars A pos (cs.take (j + 1)).reverse s = .ok (pos', s')) :
    pos.toNat < (A.dst s).length ∧ pushChars A (pos + 1) (cs.take j).reverse
      (A.setDst ((A.dst s).set pos.toNat c) s) = .ok (pos', s') := by
  rw [List.take_add_one, hc, List.reverse_append] at h
  exact of_pushChars_cons h

theorem of_itoaInverse (hval : 0 < val) (h : itoaInverse room val = .ok ds) :
    ∃ room' ds', room = room' + 1 ∧ ds = asChar (48 + val % 10) :: ds' ∧
      itoaInverse room' (val / 10) = .ok ds' := by
  cases room with
  | zero =>
    rw [itoaInverse, if_pos hval] at h
    cases h
  | succ room =>
    rw [itoaInverse, if_pos hval] at h
    cases hrest : itoaInverse room (val / 10) with
    | error e => rw [hrest] at h; cases h
    | ok ds' =>
      rw [hrest] at h
      exact ⟨room, ds', rfl, (Except.ok.inj h).symm, hrest⟩

theorem length_ne_zero_of_itoaInverse (hval : 0 < val) (h : itoaInverse room val = .ok ds) :
    ds.length ≠ 0 := by
  obtain ⟨_, ds', -, rfl, -⟩ := of_itoaInverse hval h
  exact Nat.succ_ne_zero _

theorem of_itoaInverse_zero (h : itoaInverse room 0 = .ok ds) : ds = [] := by
  cases room with
  | zero => exact (Except.ok.inj h).symm
  | succ room => exact (Except.ok.inj h).symm

theorem of_pushCharCount {count : UInt32} (h : pushCharCount A pos c count s = .ok (pos', s')) :
    count = 0 ∧ pos' = pos ∧ s' = s ∨
      count ≠ 0 ∧ pos.toNat < (A.dst s).length ∧
        (count = 1 ∧ pos' = pos + 1 ∧ s' = A.setDst ((A.dst s).set pos.toNat c) s ∨
          count ≠ 1 ∧ ∃ ds, itoaInverse 16 count = .ok ds ∧
            pushChars A (pos + 1) ds.reverse (A.setDst ((A.dst s).set pos.toNat c) s)
              = .ok (pos', s')) := by
  rw [pushCharCount] at h
  by_cases hzero : count = 0
  · rw [if_pos (beq_iff_eq.mpr hzero)] at h
    obtain ⟨rfl, rfl⟩ := of_pure_ok h
    exact .inl ⟨hzero, rfl, rfl⟩
  rw [if_neg (by simpa using hzero)] at h
  obtain ⟨pos₁, s₁, hpush, hrest⟩ := of_bind_ok h
  obtain ⟨hlt, rfl, rfl⟩ := of_pushChar hpush
  refine .inr ⟨hzero, hlt, ?_⟩
  by_cases hone : count = 1
  · rw [if_pos (beq_iff_eq.mpr hone)] at hrest
    obtain ⟨rfl, rfl⟩ := of_pure_ok hrest
    exact .inl ⟨hone, rfl, rfl⟩
  · rw [if_neg (by simpa using hone), pushInt] at hrest
    obtain ⟨ds, s₂, hlift, hpushes⟩ := of_bind_ok hrest
    obtain ⟨hds, rfl⟩ := of_lift_ok hlift
    exact .inr ⟨hone, ds, hds, hpushes⟩

theorem of_compressFrom_succ {n : ℕ} {count : UInt32}
    (h : compressFrom A (n + 1) i lastChar count pos s = .ok (size, s')) :
    ∃ c, (A.src s)[i.toNat]? = some c ∧
      (c = lastChar → compressFrom A n (i + 1) lastChar (count + 1) pos s = .ok (size, s')) ∧
      (c ≠ lastChar → ∃ pos₁ s₁, pushCharCount A pos lastChar count s = .ok (pos₁, s₁) ∧
        compressFrom A n (i + 1) c 1 pos₁ s₁ = .ok (size, s')) := by
  rw [compressFrom] at h
  obtain ⟨c, s₁, hpeek, hbody⟩ := of_bind_ok h
  obtain ⟨hc, rfl⟩ := of_peek hpeek
  refine ⟨c, hc, fun heq ↦ ?_, fun hne ↦ ?_⟩
  · rwa [if_pos (beq_iff_eq.mpr heq)] at hbody
  · rw [if_neg (by simpa using hne)] at hbody
    obtain ⟨pos₁, s₂, hpush, hrest⟩ := of_bind_ok hbody
    exact ⟨pos₁, s₂, hpush, hrest⟩

/-! ## The decoder -/

theorem of_pushDecompressed_succ {k : ℕ}
    (h : pushDecompressed A lastChar (k + 2) pos s = .ok (pos', s')) :
    pos.toNat < (A.dst s).length ∧ pushDecompressed A lastChar (k + 1) (pos + 1)
      (A.setDst ((A.dst s).set pos.toNat lastChar) s) = .ok (pos', s') := by
  rw [pushDecompressed] at h
  obtain ⟨pos₁, s₁, hpush, hrest⟩ := of_bind_ok h
  obtain ⟨hlt, rfl, rfl⟩ := of_pushChar hpush
  exact ⟨hlt, hrest⟩

theorem of_pushDecompressed_of_le {k : ℕ} (hk : k ≤ 1)
    (h : pushDecompressed A lastChar k pos s = .ok (pos', s')) : pos' = pos ∧ s' = s := by
  rw [pushDecompressed] at h
  · obtain ⟨rfl, rfl⟩ := of_pure_ok h
    exact ⟨rfl, rfl⟩
  · rintro k rfl
    omega

theorem of_pushDecompressed {k : ℕ}
    (h : pushDecompressed A lastChar (k + 1) pos s = .ok (pos', s')) :
    pos' = pos + UInt32.ofNat k := by
  induction k generalizing pos s with
  | zero => exact (of_pushDecompressed_of_le le_rfl h).1.trans (UInt32.add_zero pos).symm
  | succ k ih =>
    rw [ih (of_pushDecompressed_succ h).2, ← ofNat_add_one]
    grind

theorem of_pushDecompressed_apart {k : ℕ} {src dst : List CChar} {t : List CChar × List CChar}
    (h : pushDecompressed Arrays.apart lastChar k pos (src, dst) = .ok (pos', t)) : t.1 = src := by
  rcases Nat.lt_or_ge 1 k with hk | hk
  · obtain ⟨k, rfl⟩ : ∃ n, k = n + 1 := ⟨k - 1, by omega⟩
    induction k generalizing pos dst with
    | zero => exact absurd hk (by decide)
    | succ k ih =>
      have hrest := (of_pushDecompressed_succ h).2
      rcases Nat.eq_zero_or_pos k with rfl | hk'
      · rw [(of_pushDecompressed_of_le le_rfl hrest).2]
        rfl
      · exact ih hrest (by omega)
  · rw [(of_pushDecompressed_of_le hk h).2]

theorem of_decompressFrom_zero {count : UInt32} {parsing : Bool}
    (h : decompressFrom A 0 i count pos lastChar parsing s = .ok ((), s')) :
    ∃ pos₁, pushDecompressed A lastChar count.toNat pos s = .ok (pos₁, s') := by
  rw [decompressFrom] at h
  obtain ⟨pos₁, s₁, hpush, hend⟩ := of_bind_ok h
  obtain ⟨-, rfl⟩ := of_pure_ok hend
  exact ⟨pos₁, hpush⟩

theorem of_decompressFrom_succ {n : ℕ} {count : UInt32} {parsing : Bool}
    (h : decompressFrom A (n + 1) i count pos lastChar parsing s = .ok ((), s')) :
    ∃ c, (A.src s)[i.toNat]? = some c ∧
      (isDigit c = true → decompressFrom A n (i + 1)
        (((if parsing then 10 * count else 0) + c.toInt32.toUInt32 - 48) % 26) pos lastChar true s
          = .ok ((), s')) ∧
      (isDigit c = false → pos = 0 → pos.toNat < (A.dst s).length ∧
        decompressFrom A n (i + 1) count (pos + 1) c parsing
          (A.setDst ((A.dst s).set pos.toNat c) s) = .ok ((), s')) ∧
      (isDigit c = false → pos ≠ 0 → ∃ pos₁ s₁,
        pushDecompressed A lastChar count.toNat pos s = .ok (pos₁, s₁) ∧
        pos₁.toNat < (A.dst s₁).length ∧
        decompressFrom A n (i + 1) 0 (pos₁ + 1) c false
          (A.setDst ((A.dst s₁).set pos₁.toNat c) s₁) = .ok ((), s')) := by
  rw [decompressFrom] at h
  obtain ⟨c, s₁, hpeek, hbody⟩ := of_bind_ok h
  obtain ⟨hc, rfl⟩ := of_peek hpeek
  refine ⟨c, hc, fun hdigit ↦ ?_, fun hdigit hzero ↦ ?_, fun hdigit hne ↦ ?_⟩
  · rw [hdigit] at hbody
    exact hbody
  · rw [hdigit, Bool.not_false, if_pos rfl, hzero, if_neg (by decide)] at hbody
    obtain ⟨pos₁, s₂, hpush, hrest⟩ := of_bind_ok hbody
    obtain ⟨hlt, rfl, rfl⟩ := of_pushChar hpush
    rw [hzero]
    exact ⟨hlt, hrest⟩
  · have hpos : pos > 0 := by
      rw [gt_iff_lt, UInt32.lt_iff_toNat_lt]
      exact Nat.pos_of_ne_zero fun hzero ↦ hne (UInt32.toNat_inj.mp hzero)
    rw [hdigit, Bool.not_false, if_pos rfl, if_pos hpos] at hbody
    obtain ⟨pos₁, s₂, hpush, hrest⟩ := of_bind_ok hbody
    obtain ⟨pos₂, s₃, hpush', hrest'⟩ := of_bind_ok hrest
    obtain ⟨hlt, rfl, rfl⟩ := of_pushChar hpush'
    exact ⟨pos₁, s₂, hpush, hlt, hrest'⟩

/-! ## The key -/

theorem of_finishPushNumber {value : CChar} {parsing : Bool}
    (h : finishPushNumber A pos value parsing s = .ok (pos', s')) :
    parsing = true ∧ pos.toNat < (A.dst s).length ∧ pos' = pos + 1 ∧
        s' = A.setDst ((A.dst s).set pos.toNat value) s ∨
      parsing = false ∧ pos' = pos ∧ s' = s := by
  cases parsing with
  | true => exact .inl ⟨rfl, of_pushChar h⟩
  | false =>
    obtain ⟨rfl, rfl⟩ := of_pure_ok h
    exact .inr ⟨rfl, rfl, rfl⟩

variable {n : ℕ} {count j r : UInt32} {parsing : Bool} {key key' : List CChar}

theorem of_normalizeFrom_succ
    (h : normalizeFrom Arrays.inPlace (n + 1) i count j parsing key = .ok (r, key')) :
    ∃ c, key[i.toNat]? = some c ∧
      (isDigit c = true → normalizeFrom Arrays.inPlace n (i + 1)
        (((if parsing then 10 * count else 0) + c.toInt32.toUInt32 - 48) % 26) j true key
          = .ok (r, key')) ∧
      (isDigit c = false → ∃ j₁ key₁,
        finishPushNumber Arrays.inPlace j (asChar count) parsing key = .ok (j₁, key₁) ∧
        j₁.toNat < key₁.length ∧
        normalizeFrom Arrays.inPlace n (i + 1) count (j₁ + 1) false
          (key₁.set j₁.toNat (if isLower c then c - 97 else c - 65)) = .ok (r, key')) := by
  rw [normalizeFrom] at h
  obtain ⟨c, s₁, hpeek, hbody⟩ := of_bind_ok h
  obtain ⟨hc, hs₁⟩ := of_peek hpeek
  rw [hs₁] at hbody
  refine ⟨c, hc, fun hdigit ↦ ?_, fun hdigit ↦ ?_⟩
  · rw [hdigit] at hbody
    exact hbody
  · rw [hdigit] at hbody
    obtain ⟨j₁, key₁, hfinish, hpush⟩ := of_bind_ok hbody
    obtain ⟨j₂, key₂, hj₂, hrest⟩ := of_bind_ok hpush
    obtain ⟨hlt, rfl, rfl⟩ := of_pushChar hj₂
    exact ⟨j₁, key₁, hfinish, hlt, hrest⟩

/-! ## The text -/

variable {mode normKeyLen k : UInt32} {normKey text text' : List CChar}

theorem of_cipherFrom_succ
    (h : cipherFrom mode normKey normKeyLen (n + 1) i k text = .ok ((), text')) :
    ∃ c v, text[i.toNat]? = some c ∧ normKey[k.toNat]? = some v ∧ normKeyLen ≠ 0 ∧
      cipherFrom mode normKey normKeyLen n (i + 1) ((k + 1) % normKeyLen)
        (text.set i.toNat (cipherChar mode v c)) = .ok ((), text') := by
  rw [cipherFrom] at h
  obtain ⟨c, s₁, hpeek, hbody⟩ := of_bind_ok h
  obtain ⟨hc, hs₁⟩ := of_peek hpeek
  rw [hs₁] at hbody
  cases hv : normKey[k.toNat]? with
  | none => rw [hv] at hbody; cases hbody
  | some v =>
    rw [hv] at hbody
    obtain ⟨_, s₂, hpush, hrest⟩ := of_bind_ok hbody
    obtain ⟨-, -, rfl⟩ := of_pushChar hpush
    by_cases hzero : normKeyLen = 0
    · subst hzero
      cases hrest
    · rw [if_neg (by simpa using hzero)] at hrest
      exact ⟨c, v, hc, rfl, hzero, hrest⟩

theorem of_fmemcpy {dst src dst' : List CChar} {len : UInt32}
    (h : fmemcpy dst src len = .ok dst') : len.toNat ≤ src.length ∧ len.toNat ≤ dst.length ∧
      dst' = src.take len.toNat ++ dst.drop len.toNat := by
  rw [fmemcpy] at h
  split at h
  · rename_i hle
    obtain rfl := Except.ok.inj h
    exact ⟨hle.1, hle.2, rfl⟩
  · cases h

theorem of_cipher {normKey : Local} {len keyLen : UInt32} (hsize : keyLen.toNat ≤ maxSize)
    (h : cipher normKey len key keyLen mode text = .ok (r, text')) :
    ∃ key' normKeyLen, normalizeFrom Arrays.inPlace keyLen.toNat 0 0 0 false
        (key.take keyLen.toNat ++ normKey.val.drop keyLen.toNat) = .ok (normKeyLen, key') ∧
      cipherFrom mode key' normKeyLen len.toNat 0 0 text = .ok ((), text') ∧ r = 0 := by
  rw [cipher, if_neg (Nat.not_lt.mpr hsize)] at h
  obtain ⟨key₁, s₁, hlift₁, hnormalize⟩ := of_bind_ok h
  obtain ⟨⟨normKeyLen, key'⟩, s₂, hlift₂, hrest⟩ := of_bind_ok hnormalize
  obtain ⟨hcopy, rfl⟩ := of_lift_ok hlift₁
  obtain ⟨hnormal, rfl⟩ := of_lift_ok hlift₂
  obtain ⟨_, s₃, hloop, hend⟩ := of_bind_ok hrest
  obtain ⟨rfl, rfl⟩ := of_pure_ok hend
  obtain ⟨-, -, rfl⟩ := of_fmemcpy hcopy
  exact ⟨key', normKeyLen, hnormal, hloop, rfl⟩

/-! ## In front of a clipboard -/

variable {bound len : ℕ}

theorem of_slen_succ (h : slen text (bound + 1) = .ok len) :
    ∃ c cs, text = c :: cs ∧
      (c = 0 ∧ len = 0 ∨ c ≠ 0 ∧ ∃ len', slen cs bound = .ok len' ∧ len = len' + 1) := by
  cases text with
  | nil => cases h
  | cons c cs =>
    rw [slen] at h
    by_cases hc : c = 0
    · rw [if_neg (not_not_intro hc)] at h
      exact ⟨c, cs, rfl, .inl ⟨hc, (Except.ok.inj h).symm⟩⟩
    · rw [if_pos hc] at h
      cases hrest : slen cs bound with
      | error e => rw [hrest] at h; cases h
      | ok len' =>
        rw [hrest] at h
        exact ⟨c, cs, rfl, .inr ⟨hc, len', hrest, (Except.ok.inj h).symm⟩⟩

theorem le_of_slen (h : slen text bound = .ok len) : len ≤ text.length := by
  induction bound generalizing text len with
  | zero =>
    rw [slen] at h
    obtain rfl : 0 = len := Except.ok.inj h
    exact Nat.zero_le _
  | succ bound ih =>
    obtain ⟨c, cs, rfl, ⟨-, rfl⟩ | ⟨-, len', hrest, rfl⟩⟩ := of_slen_succ h
    · exact Nat.zero_le _
    · exact Nat.succ_le_succ (ih hrest)

theorem of_fmemset {dst : List CChar} {len : UInt32} (h : fmemset text c len = .ok dst) :
    len.toNat ≤ text.length ∧ dst = List.replicate len.toNat c ++ text.drop len.toNat := by
  rw [fmemset] at h
  split at h
  · rename_i hle
    exact ⟨hle, (Except.ok.inj h).symm⟩
  · cases h

variable {τ : Type} {w w' : τ} {tmp norm : Local} {buffer buffer' : List CChar}
  {id bufferLen keyLen res : UInt32}
  {pasteFromClipboard : UInt32 → List CChar → UInt32 →
    StateT τ (Except Fault) (UInt32 × List CChar × UInt32)}

theorem of_pasteSafely
    (h : pasteSafely pasteFromClipboard tmp norm id buffer bufferLen key keyLen w
      = .ok ((res, buffer'), w')) :
    ∃ left n, pasteFromClipboard id tmp.val bufferLen w = .ok ((res, left, n), w') ∧
      (res ≠ 0 ∧ buffer' = buffer ∨ res = 0 ∧ ∃ len text₁ left' text₂ len' r,
        slen left bufferLen.toNat = .ok len ∧ fmemset buffer 0 bufferLen = .ok text₁ ∧
        decompress Arrays.apart (UInt32.ofNat len) (left, text₁) = .ok ((), (left', text₂)) ∧
        slen text₂ bufferLen.toNat = .ok len' ∧
        cipher norm (UInt32.ofNat len') key keyLen modeDecipher text₂ = .ok (r, buffer')) := by
  rw [pasteSafely] at h
  obtain ⟨⟨res', left, n⟩, w₁, hpaste, hbody⟩ := of_bind_ok h
  dsimp only at hbody
  by_cases hres : res' = 0
  · rw [if_neg (not_not_intro hres)] at hbody
    obtain ⟨len, w₂, hlift₂, hclear⟩ := of_bind_ok hbody
    obtain ⟨text₁, w₃, hlift₃, hdecompress⟩ := of_bind_ok hclear
    obtain ⟨⟨_, left', text₂⟩, w₄, hlift₄, hscan⟩ := of_bind_ok hdecompress
    obtain ⟨len', w₅, hlift₅, hcipher⟩ := of_bind_ok hscan
    obtain ⟨⟨r, text₃⟩, w₆, hlift₆, hend⟩ := of_bind_ok hcipher
    -- what is lifted leaves the world as the paste has left it
    obtain ⟨h₂, rfl⟩ := of_lift_ok hlift₂
    obtain ⟨h₃, rfl⟩ := of_lift_ok hlift₃
    obtain ⟨h₄, rfl⟩ := of_lift_ok hlift₄
    obtain ⟨h₅, rfl⟩ := of_lift_ok hlift₅
    obtain ⟨h₆, rfl⟩ := of_lift_ok hlift₆
    obtain ⟨hpair, rfl⟩ := of_pure_ok hend
    obtain ⟨rfl, rfl⟩ := Prod.mk.inj hpair
    exact ⟨left, n, hpaste, .inr ⟨hres, len, text₁, left', text₂, len', r, h₂, h₃, h₄, h₅, h₆⟩⟩
  · rw [if_pos hres] at hbody
    obtain ⟨hpair, rfl⟩ := of_pure_ok hbody
    obtain ⟨rfl, rfl⟩ := Prod.mk.inj hpair
    exact ⟨left, n, hpaste, .inl ⟨hres, rfl⟩⟩

end Codec

end MinixClipboard
