import MinixClipboard.Asm.CipherKey
import MinixClipboard.Codec.Cipher

/-!
# The assembler's `cipher`
-/

namespace MinixClipboard

namespace Asm

namespace Cipher

open I386 Mem Routine Codec Fallible

variable {τ : Type} {w : τ} {Q : UInt32 → Machine → τ → Prop} {m : Machine} {n : ℕ}
  {f b len normKeyLen i k mode : UInt32} {normKey text text' : List CChar} {mem₁ mem : Mem}
  {c v : CChar}

/-! ## The frame -/

/-- The frame and the buffer while the text is ciphered. -/
structure TextFrame (f b len normKeyLen : UInt32) (normKey text : List CChar) (mem₁ mem : Mem) :
    Prop where
  last : mem.word (f + 4) = b + len
  keyLen : mem.word (f + 1064) = normKeyLen
  key : mem.Chars (f + 8) normKey
  length : normKey.length = 1024
  text : mem.Chars b text
  kept : Kept f b len.toNat mem₁ mem

/-- The machine before a character is read. -/
structure Reading (f b len normKeyLen mode i k : UInt32) (normKey text : List CChar) (mem₁ : Mem)
    (m : Machine) : Prop where
  esp : m.esp = f
  esi : m.esi = b + i
  edx : m.edx = k
  edi : m.edi = mode
  frame : TextFrame f b len normKeyLen normKey text mem₁ m.mem

/-- The machine when the base of a character is known. -/
structure Based (f b len normKeyLen mode i k : UInt32) (c : CChar) (normKey text : List CChar)
    (mem₁ : Mem) (m : Machine) : Prop extends
    Reading f b len normKeyLen mode i k normKey text mem₁ m where
  eax : m.eax.toUInt8 = (c - charBase c).toUInt8
  base : m.mem f = (charBase c).toUInt8

/-! ## The remainder -/

theorem ends_l12Rem {rest : List (Line Empty)} (hebp : m.ebp &&& 0xffff0000 = 0)
    (hnext : ∀ m', m'.ecx.toUInt8 = (m.ecx.toUInt8.toInt8 % 26).toUInt8 →
      m'.ebx = (m.mem m.esp).toUInt32 → m'.edx = m.edx → m'.esi = m.esi → m'.edi = m.edi →
      m'.esp = m.esp → m'.mem = m.mem → (routine τ).Ends rest m' w Q) :
    (routine τ).Ends (l12Rem ++ rest) m w Q := by
  simp [l12Rem, hebp]
  refine hnext _ ?_ rfl rfl rfl rfl rfl rfl
  simpa using sub_mul_26 m.ecx.toUInt8

section Apart

variable {size : ℕ} (hapart : ∀ x, ofs b x < size → 1072 ≤ ofs f x)
include hapart

theorem TextFrame.setBase (h : TextFrame f b len normKeyLen normKey text mem₁ mem)
    (hsize : text.length = size) (x : UInt8) :
    TextFrame f b len normKeyLen normKey text mem₁ (mem.setByte f x) := by
  refine ⟨?_, ?_, ?_, h.length, ?_, h.kept.setByte (by simp) x⟩
  · rw [word_setByte_of_le (le_ofs (f := f) (by simp)), h.last]
  · rw [word_setByte_of_le (le_ofs (f := f) (by simp)), h.keyLen]
  · refine h.key.setByte_of_le (le_ofs (f := f) ?_)
    simp [h.length]
  · refine h.text.setByte_of_le (Nat.not_lt.mp fun hx ↦ ?_)
    have hx' := hapart f (hsize ▸ hx)
    rw [ofs_self] at hx'
    omega

theorem ends_l15 (h : Reading f b len normKeyLen mode i k normKey text mem₁ m)
    (hsize : text.length = size) (hc : text[i.toNat]? = some c)
    (hnext : ∀ m', Based f b len normKeyLen mode i k c normKey text mem₁ m' →
      (routine τ).Ends (behind 12 code) m' w Q) :
    (routine τ).Ends (behind 15 code) m w Q := by
  have hbased := fun x ↦ h.frame.setBase hapart hsize x
  change (routine τ).Ends (l15 ++ .label 9 :: behind 9 code) _ _ _
  simp [l15, h.esp, h.esi, h.frame.text i c hc]
  rw [toUInt8_add_neg_48]
  -- one comparison of bytes stands for each of the two-sided tests of the source
  by_cases hdigit : isDigit c = true
  · rw [if_neg (UInt8.not_lt.mpr ((sub_48_le_iff c).mpr hdigit))]
    have hbase : charBase c = 48 := if_pos hdigit
    refine hnext _ ⟨⟨rfl, rfl, h.edx, h.edi, hbased _⟩, ?_, ?_⟩
    · simp [hbase, toUInt8_add_neg_48]
    · simp [hbase]
      rfl
  rw [if_pos (UInt8.not_le.mp (mt (sub_48_le_iff c).mp hdigit))]
  change (routine τ).Ends (l35 ++ .label 12 :: behind 12 code) _ _ _
  simp [l35]
  rw [toUInt8_add_neg_97]
  by_cases hlower : isLower c = true
  · rw [if_pos ((sub_97_le_iff c).mpr hlower)]
    have hbase : charBase c = 97 := by rw [charBase, if_neg hdigit, if_pos hlower]
    change (routine τ).Ends l20 _ _ _
    simp [l20]
    refine hnext _ ⟨⟨rfl, rfl, h.edx, h.edi, hbased _⟩, ?_, ?_⟩
    · simp [hbase, toUInt8_add_neg_97]
    · simp [hbase]
      rfl
  rw [if_neg (mt (sub_97_le_iff c).mp hlower)]
  by_cases hupper : isUpper c = true
  · have hle : c.toUInt8 + -65 ≤ 25 := by rw [toUInt8_add_neg_65, sub_65_le_iff, hupper]
    have hbase : charBase c = 65 := by rw [charBase, if_neg hdigit, if_neg hlower, if_pos hupper]
    simp only [hle, (sub_65_lt_iff c).mpr hupper, if_true]
    refine hnext _ ⟨⟨rfl, rfl, h.edx, h.edi, hbased _⟩, ?_, ?_⟩
    · simp [hbase, toUInt8_add_neg_65]
    · simp [hbase]
      rfl
  · -- neither digit nor letter: the mask that `sbbl` leaves is 0, and so is the base
    have hle : ¬c.toUInt8 + -65 ≤ 25 := by rwa [toUInt8_add_neg_65, sub_65_le_iff]
    have hbase : charBase c = 0 := by rw [charBase, if_neg hdigit, if_neg hlower, if_neg hupper]
    simp only [hle, mt (sub_65_lt_iff c).mp hupper, if_false]
    refine hnext _ ⟨⟨rfl, rfl, h.edx, h.edi, hbased _⟩, ?_, ?_⟩
    · simp [hbase]
    · simp [hbase]
      rfl

theorem TextFrame.setText (h : TextFrame f b len normKeyLen normKey text mem₁ mem)
    (hlen : len.toNat ≤ size) (hi : i.toNat < len.toNat) (d : CChar) :
    TextFrame f b len normKeyLen normKey (text.set i.toNat d) mem₁
    (mem.setByte (b + i) d.toUInt8) := by
  have hofs : 1072 ≤ ofs f (b + i) := hapart _ (by rw [ofs_add_self]; omega)
  refine ⟨?_, ?_, ?_, h.length, h.text.set i d, fun y hy hy' hlen' ↦ ?_⟩
  · rw [word_setByte_of_le (le_ofs (f := f) (by simp; omega)), h.last]
  · rw [word_setByte_of_le (le_ofs (f := f) (by simp; omega)), h.keyLen]
  · refine h.key.setByte_of_le (le_ofs (f := f) ?_)
    simp [h.length]
    omega
  · rw [setByte_of_ne fun heq ↦ ?_, h.kept y hy hy' hlen']
    subst heq
    rw [ofs_add_self] at hlen'
    omega

theorem ends_l12 (h : Based f b len normKeyLen mode i k c normKey text mem₁ m)
    (hlen : len.toNat ≤ size) (hi : i.toNat < len.toNat)
    (hv : normKey[k.toNat]? = some v) (hne : normKeyLen ≠ 0)
    (hnext : ∀ m', Reading f b len normKeyLen mode (i + 1) ((k + 1) % normKeyLen) normKey
      (text.set i.toNat (cipherChar mode v c)) mem₁ m' →
      (routine τ).Ends (if b + len = b + (i + 1) then behind 16 code else behind 15 code) m' w Q) :
    (routine τ).Ends (behind 12 code) m w Q := by
  have hback : b + i + 1 + -1 = b + i := by grind
  change (routine τ).Ends (l12Add ++ (l12Rem ++ (l12Store ++ .label 15 :: behind 15 code))) _ _ _
  simp [l12Add, h.esp, h.esi, h.edx, h.edi, h.frame.key k v hv]
  refine ends_l12Rem (toUInt32_and_high _) fun m' hecx hebx hedx hesi hedi hesp hmem ↦ ?_
  simp at hecx hebx hedx hesi hedi hesp hmem
  simp [l12Store, hebx, hedx, hesi, hedi, hesp, hmem, h.base, hback, h.frame.keyLen, ite_ends,
    divide_of_edx_eq_zero, hne]
  -- both branches leave the remainder, and the base is added to it
  have hbyte : (charBase c).toUInt8 + m'.ecx.toUInt8 = (cipherChar mode v c).toUInt8 := by
    rw [hecx, toUInt8_cipherChar, ← h.eax]
    split
    · simp
    · simp
  rw [hbyte]
  have hframe := h.frame.setText hapart hlen hi (cipherChar mode v c)
  rw [hframe.last, UInt32.add_assoc b i 1]
  exact hnext _ ⟨rfl, rfl, rfl, rfl, hframe⟩

/-- The text is ciphered as it is by the loop of `cipher`. -/
theorem ends_cipher (hlen : len.toNat ≤ size) (hi : i.toNat + n + 1 = len.toNat)
    (hsize : text.length = size) (h : Reading f b len normKeyLen mode i k normKey text mem₁ m)
    (hloop : cipherFrom mode normKey normKeyLen (n + 1) i k text = .ok ((), text'))
    (hnext : ∀ m', m'.esp = f → TextFrame f b len normKeyLen normKey text' mem₁ m'.mem →
      (routine τ).Ends (behind 16 code) m' w Q) :
    (routine τ).Ends (behind 15 code) m w Q := by
  induction n generalizing i k text m with
  | zero =>
    obtain ⟨c, v, hc, hv, hne, hrest⟩ := of_cipherFrom_succ hloop
    obtain ⟨-, rfl⟩ := of_pure_ok hrest
    have hlast : len = i + 1 := by
      rw [← UInt32.toNat_inj, toNat_add_one (n := len.toNat) (by omega) (UInt32.toNat_lt _)]
      omega
    refine ends_l15 hapart h hsize hc fun m₁ hbased ↦
      ends_l12 hapart hbased hlen (by omega) hv hne fun m₂ hnew ↦ ?_
    rw [if_pos (by rw [hlast])]
    exact hnext m₂ hnew.esp hnew.frame
  | succ n ih =>
    obtain ⟨c, v, hc, hv, hne, hrest⟩ := of_cipherFrom_succ hloop
    have hi' : (i + 1).toNat = i.toNat + 1 :=
      toNat_add_one (n := len.toNat) (by omega) (UInt32.toNat_lt _)
    refine ends_l15 hapart h hsize hc fun m₁ hbased ↦
      ends_l12 hapart hbased hlen (by omega) hv hne fun m₂ hnew ↦ ?_
    rw [if_neg fun heq ↦ ?_]
    · exact ih (by omega) (by rw [List.length_set, hsize]) hnew hrest
    · -- the pointer is not the end of the text, since some of it is left
      rw [(UInt32.add_right_inj b).mp heq] at hi
      omega

end Apart

/-! ## Calls -/

/-- A call of `cipher`: the arguments are on the stack, and what they point to is apart from it. -/
structure Called (m : Machine) (b len k keyLen mode : UInt32) (buffer key : List CChar) : Prop where
  bufferArg : m.mem.word (m.esp + 4) = b
  bufferLenArg : m.mem.word (m.esp + 8) = len
  keyArg : m.mem.word (m.esp + 12) = k
  keyLenArg : m.mem.word (m.esp + 16) = keyLen
  modeArg : m.mem.word (m.esp + 20) = mode
  text : m.mem.Chars b buffer
  bufferLen : len.toNat ≤ buffer.length
  textApart : ∀ x, ofs b x < buffer.length → Apart m.esp 24 1048 x
  keyText : m.mem.Chars k key
  keyLen : key.length = keyLen.toNat
  keyApart : ∀ x, ofs k x < key.length → Apart m.esp 24 1048 x

/-- What a call of `cipher` leaves: its result, the buffer, and all that is apart from the stack and
the bytes it was to cipher. -/
structure Left (m₀ : Machine) (b len r : UInt32) (buffer : List CChar) (a : UInt32) (m : Machine) :
    Prop extends Returned m₀ a m where
  eax : m.eax = r
  text : m.mem.Chars b buffer
  kept : ∀ x, Apart m₀.esp 24 1048 x → len.toNat ≤ ofs b x → m.mem x = m₀.mem x

variable {m₀ : Machine} {r keyLen : UInt32} {buffer buffer' key : List CChar}

theorem ends_l1 (hesp : m.esp = f) (hsaved : Saved m₀ (f + 1032) m.mem)
    (hQ : ∀ a m', Returned m₀ a m' → m'.eax = m.eax → m'.mem = m.mem → Q a m' w) :
    (routine τ).Ends (behind 1 code) m w Q := by
  change (routine τ).Ends (leave 1032 ++ .label 20 :: behind 20 code) _ _ _
  exact hsaved.ends_leave (by rw [hesp]) hQ

theorem ends_l16 (hesp : m.esp = f) (hsaved : Saved m₀ (f + 1032) m.mem)
    (hQ : ∀ a m', Returned m₀ a m' → m'.eax = 0 → m'.mem = m.mem → Q a m' w) :
    (routine τ).Ends (behind 16 code) m w Q := by
  change (routine τ).Ends (l16 ++ .label 1 :: behind 1 code) _ _ _
  simp [l16, hesp]
  exact ends_l1 rfl hsaved hQ

theorem ends_l3 (hb : mem₁.word (f + 1052) = b) (hlen : mem₁.word (f + 1056) = len)
    (hmode : mem₁.word (f + 1068) = mode) (h : Normalized f b normKeyLen normKey mem₁ m)
    (htext : mem₁.Chars b text) (hapart : ∀ x, ofs b x < text.length → 1072 ≤ ofs f x)
    (hzero : len = 0 → ∀ m', m'.esp = f → Kept f b 0 mem₁ m'.mem → m'.mem.Chars b text →
      (routine τ).Ends (behind 16 code) m' w Q)
    (hmore : len ≠ 0 → ∀ m', Reading f b len normKeyLen mode 0 0 normKey text mem₁ m' →
      (routine τ).Ends (behind 15 code) m' w Q) :
    (routine τ).Ends (behind 3 code) m w Q := by
  have hb' := (h.kept.word (d := 1052) (by decide)).trans hb
  have hlen' := (h.kept.word (d := 1056) (by decide)).trans hlen
  have hmode' := (h.kept.word (d := 1068) (by decide)).trans hmode
  change (routine τ).Ends (l3 ++ .label 35 :: behind 35 code) _ _ _
  simp [l3, h.esp, h.ebx, hb', hlen', hmode', word_setWord_of_ofs]
  have hkept := h.kept.setWord (x := f + 4) (.inl (by simp)) (len + b)
  have hkept' := hkept.setWord (x := f + 1064) (.inr rfl) normKeyLen
  split
  · rename_i hlen₀
    exact hzero hlen₀ _ rfl hkept (hkept.chars htext hapart)
  · rename_i hlen₀
    refine hmore hlen₀ _ ⟨rfl, (UInt32.add_zero _).symm, rfl, rfl, ?_⟩
    refine ⟨?_, word_setWord_self, ?_, h.length, hkept'.chars htext hapart,
      hkept'.mono (Nat.zero_le _)⟩
    · rw [word_setWord_of_ofs (by simp), word_setWord_self, UInt32.add_comm]
    · -- the two words are stored on either side of the normalised key
      have hofs := fun y (hy : ofs (f + 8) y < normKey.length) ↦ ofs_eq f (f + 8) y
      rw [h.length] at hofs
      refine (h.chars.setWord_of_le fun y hy ↦ le_ofs (f := f) ?_).setWord_of_le
        fun y hy ↦ le_ofs (f := f) ?_
      · have hcases := hofs y (h.length ▸ hy)
        rw [h.length] at hy
        simp at *
        omega
      · have hcases := hofs y (h.length ▸ hy)
        rw [h.length] at hy
        simp at *
        omega

theorem ends_entry (hesp : m.esp = f + 1048) (hk : (saving m (f + 1032)).word (f + 1060) = k)
    (hkeyLen : (saving m (f + 1032)).word (f + 1064) = keyLen) (hne : keyLen ≠ 0)
    (hlong : 1024 < keyLen → ∀ m', m'.esp = f → m'.eax = -1 → m'.mem = saving m (f + 1032) →
      (routine τ).Ends (behind 1 code) m' w Q)
    (hmore : keyLen ≤ 1024 → ∀ m', m'.esp = f → m'.eax = 0 → m'.ebx = keyLen → m'.ecx = k →
      m'.mem = saving m (f + 1032) → (routine τ).Ends (behind 4 code) m' w Q) :
    (routine τ).Ends code m w Q := by
  have hsaving : saving m (f + 1032) = (((m.mem.setWord (f + 1044) m.ebp).setWord (f + 1040)
      m.edi).setWord (f + 1036) m.esi).setWord (f + 1032) m.ebx := by
    simp [saving, UInt32.add_assoc]
  change (routine τ).Ends (entry ++ .label 4 :: behind 4 code) _ _ _
  simp [entry, hesp, add_sub_eq, ← hsaving, hk, hkeyLen, hne]
  split
  · rename_i hlt
    exact hlong hlt _ rfl rfl rfl
  · rename_i hle
    exact hmore (UInt32.not_lt.mp hle) _ rfl rfl rfl rfl rfl

theorem Kept.of_apart {size : ℕ} {x : UInt32} (h : Kept f b size (saving m (f + 1032)) mem)
    (hesp : m.esp = f + 1048) (hx : Apart m.esp 24 1048 x) (hsize : size ≤ ofs b x) :
    mem x = m.mem x := by
  have hofs : 24 + 1048 ≤ ofs f x := hx.le_ofs (by rw [hesp, ofs_add_self]; rfl)
  rw [h x (by omega) (by omega) hsize, saving_of_le]
  have hcases := ofs_eq f (f + 1032) x
  rw [ofs_add_self] at hcases
  simp at hcases
  omega

/-- The memory when the registers have been saved. -/
structure Entered (m₀ : Machine) (f b len k keyLen mode : UInt32) (buffer key : List CChar)
    (mem₁ : Mem) : Prop where
  saved : Saved m₀ (f + 1032) mem₁
  bufferArg : mem₁.word (f + 1052) = b
  bufferLenArg : mem₁.word (f + 1056) = len
  keyArg : mem₁.word (f + 1060) = k
  keyLenArg : mem₁.word (f + 1064) = keyLen
  modeArg : mem₁.word (f + 1068) = mode
  text : mem₁.Chars b buffer
  textApart : ∀ x, ofs b x < buffer.length → 1072 ≤ ofs f x
  keyText : mem₁.Chars k key
  keyApart : ∀ x, ofs k x < key.length → 1072 ≤ ofs f x

theorem Called.entered (h : Called m b len k keyLen mode buffer key) (hesp : m.esp = f + 1048) :
    Entered m f b len k keyLen mode buffer key (saving m (f + 1032)) := by
  have hesp' : m.esp = f + 1032 + 16 := by rw [hesp, UInt32.add_assoc]; rfl
  have hword : ∀ d : UInt32, d.toNat < 1024 →
      (saving m (f + 1032)).word (f + (1048 + d)) = m.mem.word (m.esp + d) := fun d hd ↦ by
    have hword := word_saving hesp' hd
    rw [UInt32.add_assoc, UInt32.add_assoc, ← UInt32.add_assoc 1032] at hword
    exact hword
  have hframe : ∀ x, Apart m.esp 24 1048 x → 1072 ≤ ofs f x := fun x hx ↦
    hx.le_ofs (by rw [hesp, ofs_add_self]; rfl)
  have hsaving : ∀ x, 1072 ≤ ofs f x → 16 ≤ ofs (f + 1032) x := fun x hx ↦
    I386.le_ofs (f := f) (.inl (by rw [ofs_add_self]; simp; omega))
  have htext := fun x hx ↦ hframe x (h.textApart x hx)
  have hkey := fun x hx ↦ hframe x (h.keyApart x hx)
  exact ⟨saved_saving hesp', (hword 4 (by decide)).trans h.bufferArg,
    (hword 8 (by decide)).trans h.bufferLenArg, (hword 12 (by decide)).trans h.keyArg,
    (hword 16 (by decide)).trans h.keyLenArg, (hword 20 (by decide)).trans h.modeArg,
    chars_saving h.text fun x hx ↦ hsaving x (htext x hx), htext,
    chars_saving h.keyText fun x hx ↦ hsaving x (hkey x hx), hkey⟩

section Entered

variable (h : Entered m₀ f b len k keyLen mode buffer key mem₁)
include h

theorem ends_key {junk : List CChar} (hne : keyLen ≠ 0) (hle : keyLen.toNat ≤ 1024)
    (hsize : key.length = keyLen.toNat) (hjunk : junk.length = 1024)
    (hchars : mem₁.Chars (f + 8) junk)
    (hesp : m.esp = f) (heax : m.eax = 0) (hebx : m.ebx = keyLen) (hecx : m.ecx = k)
    (hmem : m.mem = mem₁)
    (hnormal : normalizeFrom Arrays.inPlace keyLen.toNat 0 0 0 false
      (key.take keyLen.toNat ++ junk.drop keyLen.toNat) = .ok (normKeyLen, normKey))
    (hnext : ∀ m', Normalized f b normKeyLen normKey mem₁ m' →
      (routine τ).Ends (behind 3 code) m' w Q) :
    (routine τ).Ends (behind 4 code) m w Q := by
  obtain ⟨n, hn⟩ := exists_toNat_eq_succ hne
  rw [← hsize, List.take_length] at hnormal
  refine ends_copy (b := b) (i := 0) (n := n) h.keyText h.keyApart (by omega) hjunk (by omega)
    ⟨hesp, heax, ?_, hecx, ?_, ?_⟩ fun m' h' ↦ ?_
  · rw [hebx, hsize, UInt32.ofNat_toNat]
  · rw [hmem]
    exact hchars
  · rw [hmem]
    exact fun _ _ _ _ ↦ rfl
  · have hlength : key.length = n + 1 := hsize.trans hn
    rw [hlength] at h' hnormal
    exact ends_normalize (by simp; omega) (by simpa using h') hnormal hnext

theorem ends_text (hlen : len.toNat ≤ buffer.length)
    (hnormal : Normalized f b normKeyLen normKey mem₁ m)
    (hloop : cipherFrom mode normKey normKeyLen len.toNat 0 0 buffer = .ok ((), buffer'))
    (hQ : ∀ a m', Returned m₀ a m' → m'.eax = 0 → m'.mem.Chars b buffer' →
      Kept f b len.toNat mem₁ m'.mem → Q a m' w) :
    (routine τ).Ends (behind 3 code) m w Q := by
  have hend : ∀ m', m'.esp = f → Kept f b len.toNat mem₁ m'.mem → m'.mem.Chars b buffer' →
      (routine τ).Ends (behind 16 code) m' w Q := fun m' hesp hkept htext ↦ by
    have hsaved := hkept.saved h.saved fun x hx ↦ h.textApart x (hx.trans_le hlen)
    refine ends_l16 hesp hsaved fun a m'' hreturned heax hmem ↦ hQ a m'' hreturned heax ?_ ?_
    · rwa [hmem]
    · rwa [hmem]
  refine ends_l3 h.bufferArg h.bufferLenArg h.modeArg hnormal h.text h.textApart
    (fun hzero m' hesp hkept htext ↦ ?_) fun hne m' hreading ↦ ?_
  · rw [hzero] at hloop
    obtain ⟨-, rfl⟩ := of_pure_ok hloop
    exact hend m' hesp (hkept.mono (Nat.zero_le _)) htext
  · obtain ⟨n, hn⟩ := exists_toNat_eq_succ hne
    rw [hn] at hloop
    refine ends_cipher h.textApart hlen (n := n) ?_ rfl hreading hloop fun m'' hesp hframe ↦
      hend m'' hesp hframe.kept hframe.text
    rw [hn, UInt32.toNat_zero, Nat.zero_add]

end Entered

/-- The routine does what the function does, whatever the array of the function holds at first. -/
theorem ends_code (h : Called m b len k keyLen mode buffer key) (hne : keyLen ≠ 0)
    (hC : ∀ junk, Codec.cipher junk len key keyLen mode buffer = .ok (r, buffer'))
    (hQ : ∀ a m', Left m b len r buffer' a m' → Q a m' w) : (routine τ).Ends code m w Q := by
  obtain ⟨f, hesp⟩ : ∃ f, m.esp = f + 1048 := ⟨m.esp - 1048, by grind⟩
  have hentered := h.entered hesp
  -- what is in the frame stands for what the array of the function holds
  obtain ⟨junk, hjunk, hchars⟩ : ∃ junk : List CChar, junk.length = 1024 ∧
      (saving m (f + 1032)).Chars (f + 8) junk :=
    ⟨_, length_chars (saving m (f + 1032)) (f + 8) 1024, chars_chars _ _ 1024⟩
  have hrun := hC ⟨junk, hjunk⟩
  refine ends_entry hesp hentered.keyArg hentered.keyLenArg hne (fun hlong m₁ hesp₁ heax hmem ↦ ?_)
    fun hle m₁ hesp₁ heax hebx hecx hmem ↦ ?_
  · have hlong' : maxSize < keyLen.toNat := UInt32.lt_iff_toNat_lt.mp hlong
    rw [Codec.cipher, if_pos hlong'] at hrun
    obtain ⟨rfl, rfl⟩ := of_pure_ok hrun
    refine ends_l1 hesp₁ (hmem ▸ hentered.saved) fun a m' hreturned heax' hmem' ↦
      hQ a m' ⟨hreturned, heax'.trans heax, ?_, fun x hx hlen ↦ ?_⟩
    · rw [hmem', hmem]
      exact hentered.text
    · rw [hmem', hmem]
      exact Kept.of_apart (b := b) (fun _ _ _ _ ↦ rfl) hesp hx hlen
  · have hle : keyLen.toNat ≤ 1024 := UInt32.le_iff_toNat_le.mp hle
    obtain ⟨normKey, normKeyLen, hnormal, hloop, rfl⟩ := of_cipher hle hrun
    refine ends_key hentered hne hle h.keyLen hjunk hchars hesp₁ heax hebx hecx hmem hnormal
      fun m₂ h₂ ↦ ?_
    exact ends_text hentered h.bufferLen h₂ hloop fun a m' hreturned heax' htext hkept ↦
      hQ a m' ⟨hreturned, heax', htext, fun x hx hlen ↦ hkept.of_apart hesp hx hlen⟩

theorem called_of_pushed {g s : UInt32} (hesp : m.esp = g)
    (hmem : m.mem = pushed mem g [s, b, len, k, keyLen, mode]) (htext : mem.Chars b buffer)
    (hlen : len.toNat ≤ buffer.length)
    (htextApart : ∀ x, ofs b x < buffer.length → Apart g 24 1048 x)
    (hkey : mem.Chars k key) (hkeyLen : key.length = keyLen.toNat)
    (hkeyApart : ∀ x, ofs k x < key.length → Apart g 24 1048 x) :
    Called m b len k keyLen mode buffer key := by
  have hword : ∀ {i v}, [s, b, len, k, keyLen, mode][i]? = some v →
      m.mem.word (m.esp + UInt32.ofNat (4 * i)) = v := fun {i v} hv ↦ by
    rw [hmem, hesp]
    exact word_pushed (by simp) hv
  have hapart : ∀ x, Apart g 24 1048 x → m.mem x = mem x := fun x hx ↦ by
    rw [hmem]
    exact pushed_of_le hx.1
  exact ⟨hword (i := 1) rfl, hword (i := 2) rfl, hword (i := 3) rfl, hword (i := 4) rfl,
    hword (i := 5) rfl, htext.congr fun x hx ↦ hapart x (htextApart x hx), hlen,
    hesp ▸ htextApart, hkey.congr fun x hx ↦ hapart x (hkeyApart x hx), hkeyLen, hesp ▸ hkeyApart⟩

/-- A routine that calls `cipher` goes on when it has done its work. -/
theorem ends_call_cipher {F : Type} {R : Routine F τ} {fn : F} {rest : List (Line F)}
    (hfn : ∀ n m, R.call fn n m = (routine τ).run n code m)
    (h : ∀ s, Called (m.push s) b len k keyLen mode buffer key) (hne : keyLen ≠ 0)
    (hC : ∀ junk, Codec.cipher junk len key keyLen mode buffer = .ok (r, buffer'))
    (hnext : ∀ s a m', Left (m.push s) b len r buffer' a m' → R.Ends rest m' w Q) :
    R.Ends (.call fn :: rest) m w Q := by
  refine Routine.ends_call_of_returned ?_
  obtain ⟨n, a, m', w', hrun, hleft, rfl⟩ := ends_code (τ := τ) (w := w) (h _) hne hC
    (Q := fun a m' w' ↦ Left (m.push (R.site rest.length)) b len r buffer' a m' ∧ w' = w)
    fun a m' hleft ↦ ⟨hleft, rfl⟩
  refine ⟨n, a, m', w', ?_, hleft.toReturned, hnext _ a m' hleft⟩
  rw [hfn]
  exact hrun

/-- **The assembler's `cipher` is the one in C**: it returns the same value and leaves the same
bytes in the buffer. -/
theorem cipher_refines (h : Called m b len k keyLen mode buffer key) (hne : 1 ≤ keyLen) :
    ∃ r buffer', buffer'.length = buffer.length ∧
      (∀ junk, Codec.cipher junk len key keyLen mode buffer = .ok (r, buffer')) ∧
      (routine τ).Ends code m w fun a m' w' ↦ Left m b len r buffer' a m' ∧ w' = w := by
  have hne' : keyLen ≠ 0 := fun hzero ↦ by rw [hzero] at hne; exact absurd hne (by decide)
  obtain ⟨r, buffer', hlength, hC⟩ := exists_cipher hne' h.keyLen h.bufferLen mode
  exact ⟨r, buffer', hlength, hC, ends_code h hne' hC fun a m' hleft ↦ ⟨hleft, rfl⟩⟩

/-- A machine on which `cipher` is called to encipher `"a"` with the key `"b"`. -/
def sampleMachine : Machine where
  eax := 0
  ebx := 0
  ecx := 0
  edx := 0
  esi := 0
  edi := 0
  ebp := 0
  esp := 4096
  flags := none
  mem x := if x = 256 then 97 else if x = 512 then 98 else
    if x = 4101 ∨ x = 4104 ∨ x = 4112 then 1 else if x = 4109 then 2 else 0

theorem called_sampleMachine : Called sampleMachine 256 1 512 1 0 [97] [98] := by
  have hzero : ∀ i : UInt32, i.toNat < 1 → i = 0 := fun i hi ↦
    UInt32.toNat_inj.mp (Nat.lt_one_iff.mp hi)
  have hself : ∀ a x, ofs a x < 1 → x = a := fun a x hx ↦ by
    have hsub := hzero _ hx
    grind
  have hchars : ∀ a c, sampleMachine.mem a = c.toUInt8 → sampleMachine.mem.Chars a [c] :=
    fun a c hc i d hd ↦ by
      obtain ⟨hi, rfl⟩ := List.getElem?_eq_some_iff.mp hd
      obtain rfl := hzero i hi
      rw [UInt32.add_zero]
      exact hc
  refine ⟨by decide, by decide, by decide, by decide, by decide, hchars 256 97 rfl, by decide,
    fun x hx ↦ ?_, hchars 512 98 rfl, by decide, fun x hx ↦ ?_⟩
  · obtain rfl := hself 256 x hx
    exact ⟨by decide, by decide⟩
  · obtain rfl := hself 512 x hx
    exact ⟨by decide, by decide⟩

theorem cipher_refines_sampleMachine : (routine Unit).Ends code sampleMachine () fun a m' _ ↦
    Left sampleMachine 256 1 0 [98] a m' := by
  obtain ⟨r, buffer', -, hC, n, a, m', w', hrun, hleft, -⟩ :=
    cipher_refines (w := ()) called_sampleMachine (by decide)
  have hciphered := cipher_eq (l := [97]) (List.cons_ne_nil 98 []) (by decide) (by decide) zeroLocal
    [] 0
  rw [show ciphered 0 (keyValues [98]) [97] = [98] by decide +kernel] at hciphered
  obtain ⟨rfl, rfl⟩ := Prod.mk.inj (Except.ok.inj ((hC zeroLocal).symm.trans hciphered))
  exact ⟨n, a, m', w', hrun, hleft⟩

end Cipher

end Asm

end MinixClipboard
