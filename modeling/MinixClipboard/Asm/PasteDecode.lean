import MinixClipboard.Asm.Cipher

/-!
# The decoder in the assembler's `paste_safely`

`decompress` is compiled into `paste_safely`. In the frame, at `f`, there are the end of the text
(4), what `paste_from_clipboard` has returned (8), a character (15), the text (32 to 1055) and, from
1068 on, the saved registers and the arguments. The characters of the buffer are written one after
the other; for a repeated character there is a loop of its own, at `.L82` and, behind the text, at
`.L87`.
-/

namespace MinixClipboard

namespace Asm

namespace PasteSafely

open I386 Mem Routine Codec Fallible

/-- `paste_safely`, with the `cipher` above and any `paste_from_clipboard`. -/
def routine {τ : Type} (ext : Callees Unit τ) (site : ℕ → UInt32) : Routine Call τ where
  call
    | .cipher => fun n m ↦ (Cipher.routine τ).run n Cipher.code m
    | .pasteFromClipboard => ext.call ()
  call_mono {f} := match f with
    | .cipher => run_mono
    | .pasteFromClipboard => ext.call_mono
  code := code
  site := site

/-! ## The frame -/

/-- Nothing is stored apart from the buffer, the end of the text and the character. -/
def Kept (f b : UInt32) (size : ℕ) (mem₁ mem : Mem) : Prop :=
  ∀ x, 8 ≤ ofs f x → ofs f x ≠ 15 → size ≤ ofs b x → mem x = mem₁ x

/-- The frame and the buffer while the text is decoded. -/
structure TextFrame (f b last : UInt32) (size : ℕ) (text : List CChar) (mem₁ mem : Mem) : Prop where
  last : mem.word (f + 4) = last
  chars : mem.Chars b text
  length : text.length = size
  kept : Kept f b size mem₁ mem

variable {f b last i count pos bufferLen : UInt32} {size : ℕ} {tmp tmp' text text' : List CChar}
  {c lastChar : CChar} {parsing : Bool} {mem₁ mem : Mem}

section Apart

variable (hapart : ∀ x, ofs b x < size → 1108 ≤ ofs f x)
include hapart

theorem Kept.word {d : UInt32} (h : Kept f b size mem₁ mem) (hd : 16 ≤ d.toNat)
    (hd' : d.toNat ≤ 1104) :
    mem.word (f + d) = mem₁.word (f + d) :=
  word_congr fun x hx ↦ by
    have hcases := ofs_eq f (f + d) x
    rw [ofs_add_self] at hcases
    exact h x (by omega) (by omega) (Nat.not_lt.mp fun hlt ↦ by have hofs := hapart x hlt; omega)

theorem Kept.chars_tmp (h : Kept f b size mem₁ mem) (htmp : mem₁.Chars (f + 32) tmp)
    (hlength : tmp.length = 1024) : mem.Chars (f + 32) tmp :=
  htmp.congr fun x hx ↦ by
    have hcases := ofs_eq f (f + 32) x
    rw [hlength] at hx
    simp at hcases
    exact h x (by omega) (by omega) (Nat.not_lt.mp fun hlt ↦ by have hofs := hapart x hlt; omega)

theorem TextFrame.setLast (h : TextFrame f b last size text mem₁ mem) (v : UInt32) :
    TextFrame f b v size text mem₁ (mem.setWord (f + 4) v) := by
  refine ⟨word_setWord_self, h.chars.setWord_of_le fun x hx ↦ ?_, h.length, fun x hx hx' hb ↦ ?_⟩
  · have hofs := hapart x (h.length ▸ hx)
    exact I386.le_ofs (f := f) (by simp; omega)
  · rw [setWord_of_le (I386.le_ofs (f := f) (by simp; omega)), h.kept x hx hx' hb]

theorem TextFrame.setChar (h : TextFrame f b last size text mem₁ mem) (d : UInt8) :
    TextFrame f b last size text mem₁ (mem.setByte (f + 15) d) := by
  refine ⟨?_, h.chars.setByte_of_le (Nat.not_lt.mp fun hlt ↦ ?_), h.length, fun x hx hx' hb ↦ ?_⟩
  · rw [word_setByte_of_le (by simp), h.last]
  · have hofs := hapart (f + 15) (h.length ▸ hlt)
    simp at hofs
  · rw [setByte_of_ne fun heq ↦ hx' (by subst heq; simp), h.kept x hx hx' hb]

theorem TextFrame.setText (h : TextFrame f b last size text mem₁ mem) (hi : i.toNat < size)
    (d : CChar) :
    TextFrame f b last size (text.set i.toNat d) mem₁ (mem.setByte (b + i) d.toUInt8) := by
  have hofs : 1108 ≤ ofs f (b + i) := hapart _ (by rwa [ofs_add_self])
  refine ⟨?_, h.chars.set i d, by rw [List.length_set, h.length], fun x hx hx' hb ↦ ?_⟩
  · rw [word_setByte_of_le (I386.le_ofs (f := f) (by simp; omega)), h.last]
  · rw [setByte_of_ne fun heq ↦ ?_, h.kept x hx hx' hb]
    subst heq
    rw [ofs_add_self] at hb
    omega

end Apart

/-! ## Repeated characters -/

variable {τ : Type} {ext : Callees Unit τ} {site : ℕ → UInt32} {w : τ}
  {Q : UInt32 → Machine → τ → Prop} {m : Machine} {p p' e : UInt32}

/-- A loop that writes a character as often as it has been counted does what `push_decompressed`
does. -/
theorem ends_pushDecompressed {R : Routine Call τ} {lines lines' : List (Line Call)}
    {P : UInt32 → List CChar → Machine → Prop} {D : List CChar → Machine → Prop}
    (hround : ∀ {p text m}, P p text m → p.toNat < text.length →
      (p + 1 ≠ p' → ∀ m', P (p + 1) (text.set p.toNat c) m' → R.Ends lines m' w Q) →
      (p + 1 = p' → ∀ m', D (text.set p.toNat c) m' → R.Ends lines' m' w Q) → R.Ends lines m w Q)
    {k : ℕ} (hk : k < 2 ^ 32) (h : P p text m)
    (hpush : pushDecompressed Arrays.apart c (k + 2) p (tmp, text) = .ok (p', (tmp', text')))
    (hnext : ∀ m', D text' m' → R.Ends lines' m' w Q) : R.Ends lines m w Q := by
  obtain ⟨hp, hrest⟩ := of_pushDecompressed_succ hpush
  have hp' := of_pushDecompressed hrest
  induction k generalizing p text m with
  | zero =>
    obtain ⟨-, hend⟩ := of_pushDecompressed_of_le le_rfl hrest
    obtain ⟨-, rfl⟩ := Prod.mk.inj hend
    exact hround h hp (fun hne ↦ absurd (hp'.trans (UInt32.add_zero _)).symm hne) fun _ ↦ hnext
  | succ k ih =>
    obtain ⟨hlt, hrest'⟩ := of_pushDecompressed_succ hrest
    refine hround h hp (fun _ m' h' ↦ ih (by omega) h' hrest hlt hrest' ?_) fun heq ↦ ?_
    · exact of_pushDecompressed hrest'
    · have hzero : UInt32.ofNat (k + 1) = 0 := by rw [heq] at hp'; grind
      exact absurd hzero (ofNat_succ_ne_zero hk)

theorem add_one_of_pushDecompressed {k : ℕ} (hk : count.toNat = k + 2)
    (hpush : pushDecompressed Arrays.apart c (k + 2) p (tmp, text) = .ok (p', (tmp', text'))) :
    p' + 1 = p + count := by
  have hcount : count = UInt32.ofNat (k + 1) + 1 := by rw [ofNat_add_one, ← hk, UInt32.ofNat_toNat]
  rw [of_pushDecompressed hpush, hcount, UInt32.add_assoc]

/-- The machine before a repeated character is written, in the loop; `c` is the one behind it. -/
structure Repeating (f b last i count pos p' : UInt32) (size : ℕ) (c lastChar : CChar) (mem₁ : Mem)
    (p : UInt32) (text : List CChar) (m : Machine) : Prop where
  esp : m.esp = f
  eax : m.eax.toUInt8 = lastChar.toUInt8
  ebx : m.ebx = b + p
  ecx : m.ecx = f + 32 + i
  edx : m.edx = count
  esi : m.esi.toUInt8 = c.toUInt8
  edi : m.edi = pos
  ebp : m.ebp = b + p'
  frame : TextFrame f b last size text mem₁ m.mem

/-- The machine before a character is written. -/
structure Writing (f b last i count : UInt32) (size : ℕ) (c : CChar) (parsing : Bool) (mem₁ : Mem)
    (pos : UInt32) (text : List CChar) (m : Machine) : Prop where
  esp : m.esp = f
  eax : m.eax.toUInt8 = c.toUInt8
  ebx : m.ebx = b + pos
  ecx : m.ecx = f + 32 + i
  edx : m.edx = count
  edi : m.edi = pos + 1
  ebp : m.ebp = if parsing then 0 else 1
  frame : TextFrame f b last size text mem₁ m.mem

/-- The machine before it goes on to the next character. -/
structure Decoding (f b last i count pos : UInt32) (size : ℕ) (lastChar : CChar) (parsing : Bool)
    (text : List CChar) (mem₁ : Mem) (m : Machine) : Prop where
  esp : m.esp = f
  ecx : m.ecx = f + 32 + i
  edx : m.edx = count
  esi : m.esi.toUInt8 = lastChar.toUInt8
  edi : m.edi = pos
  ebp : m.ebp = if parsing then 0 else 1
  frame : TextFrame f b last size text mem₁ m.mem

/-- Where the loop goes on behind the test for the end of the text. -/
def atEnd (last r : UInt32) : List (Line Call) :=
  if last = r then behind 85 code else behind 111 code

section Loop

variable (hapart : ∀ x, ofs b x < size → 1108 ≤ ofs f x)
include hapart

theorem ends_l80 (h : Writing f b last i count size c parsing mem₁ pos text m)
    (hpos : pos.toNat < size)
    (hnext : ∀ m', Decoding f b last i count (pos + 1) size c parsing
      (text.set pos.toNat c) mem₁ m' →
      (routine ext site).Ends (atEnd last (f + 32 + i)) m' w Q) :
    (routine ext site).Ends (behind 80 code) m w Q := by
  have hframe := h.frame.setText hapart hpos c
  change (routine ext site).Ends (l80 ++ .label 111 :: behind 111 code) _ _ _
  simp [l80, h.esp, h.eax, h.ebx, h.ecx, hframe.last, ite_ends]
  exact hnext _ ⟨rfl, rfl, h.edx, h.eax, h.edi, h.ebp, hframe⟩

theorem ends_l82 (hargs : mem₁.word (f + 1092) = b) (hpos : p' + 1 = pos + count)
    (h : Repeating f b last i count pos p' size c lastChar mem₁ p text m)
    (hp : p.toNat < text.length)
    (hmore : p + 1 ≠ p' → ∀ m', Repeating f b last i count pos p' size c lastChar mem₁ (p + 1)
      (text.set p.toNat lastChar) m' → (routine ext site).Ends (behind 82 code) m' w Q)
    (hdone : p + 1 = p' → ∀ m', Writing f b last i 0 size c false mem₁ p'
      (text.set p.toNat lastChar) m' → (routine ext site).Ends (behind 80 code) m' w Q) :
    (routine ext site).Ends (behind 82 code) m w Q := by
  rw [h.frame.length] at hp
  have hframe := h.frame.setText hapart hp lastChar
  have hb := (hframe.kept.word hapart (d := 1092) (by decide) (by decide)).trans hargs
  change (routine ext site).Ends (l82 ++ .label 113 :: behind 113 code) _ _ _
  simp [l82, h.esp, h.eax, h.ebx, h.ebp, h.edx, h.edi, hb, UInt32.add_assoc b p 1]
  split
  · rename_i heq
    refine hdone heq.symm _ ⟨rfl, h.esi, ?_, h.ecx, rfl, hpos.symm, rfl, hframe⟩
    change b + -1 + (pos + count) = b + p'
    rw [← hpos]
    grind
  · rename_i hne
    exact hmore (fun heq ↦ hne heq.symm) _ ⟨rfl, h.eax, rfl, h.ecx, rfl, h.esi, rfl, rfl, hframe⟩

theorem ends_l109 (hargs : mem₁.word (f + 1092) = b)
    (h : Decoding f b last i count pos size lastChar parsing text mem₁ m)
    (heax : m.eax.toUInt8 = c.toUInt8)
    (hpush : pushDecompressed Arrays.apart lastChar count.toNat pos (tmp, text)
      = .ok (p', (tmp', text')))
    (hnext : ∀ m', Writing f b last i 0 size c false mem₁ p' text' m' →
      (routine ext site).Ends (behind 80 code) m' w Q) :
    (routine ext site).Ends (behind 109 code) m w Q := by
  have hb := (h.frame.kept.word hapart (d := 1092) (by decide) (by decide)).trans hargs
  have hframe := h.frame.setChar hapart m.eax.toUInt8
  have hb' := (hframe.kept.word hapart (d := 1092) (by decide) (by decide)).trans hargs
  change (routine ext site).Ends (l109 ++ .label 82 :: behind 82 code) _ _ _
  simp [l109, h.esp, h.edx, h.edi, hb]
  split
  · rename_i hle
    have hle : count.toNat ≤ 1 := UInt32.le_iff_toNat_le.mp hle
    obtain ⟨rfl, hend⟩ := of_pushDecompressed_of_le hle hpush
    obtain ⟨-, rfl⟩ := Prod.mk.inj hend
    change (routine ext site).Ends (l115 ++ .label 112 :: behind 112 code) _ _ _
    simp [l115]
    exact hnext _ ⟨rfl, heax, rfl, h.ecx, rfl, rfl, rfl, h.frame⟩
  · rename_i hlt
    have hlt : 1 < count.toNat := UInt32.lt_iff_toNat_lt.mp (UInt32.not_le.mp hlt)
    -- the program compares addresses where the source counts, so the last one is computed first
    obtain ⟨k, hk⟩ : ∃ k, count.toNat = k + 2 := ⟨count.toNat - 2, by omega⟩
    rw [hk] at hpush
    have hpos := add_one_of_pushDecompressed hk hpush
    have hebp : b + -1 + pos + count = b + p' := by rw [UInt32.add_assoc, ← hpos]; grind
    have hlt' := UInt32.toNat_lt count
    refine ends_pushDecompressed (P := Repeating f b last i count pos p' size c lastChar mem₁)
      (D := Writing f b last i 0 size c false mem₁ p') (ends_l82 hapart hargs hpos) (by omega)
      ⟨rfl, h.esi, rfl, h.ecx, rfl, ?_, rfl, hebp, hframe⟩ hpush hnext
    simpa using heax

theorem ends_l110 {n : ℕ} (hargs : mem₁.word (f + 1092) = b)
    (h : Decoding f b last (i + 1) count pos size lastChar parsing text mem₁ m)
    (heax : m.eax.toUInt8 = c.toUInt8)
    (hzero : pos = 0 → pos.toNat < text.length ∧
      decompressFrom Arrays.apart n (i + 1) count (pos + 1) c
      parsing (tmp, text.set pos.toNat c) = .ok ((), (tmp', text')))
    (hmore : pos ≠ 0 → ∃ pos₁ s₁,
      pushDecompressed Arrays.apart lastChar count.toNat pos (tmp, text) = .ok (pos₁, s₁) ∧
      pos₁.toNat < s₁.2.length ∧ decompressFrom Arrays.apart n (i + 1) 0 (pos₁ + 1) c false
        (s₁.1, s₁.2.set pos₁.toNat c) = .ok ((), (tmp', text')))
    (hnext : ∀ count' pos' lastChar' parsing' text₁ m',
      Decoding f b last (i + 1) count' pos' size lastChar' parsing' text₁ mem₁ m' →
      decompressFrom Arrays.apart n (i + 1) count' pos' lastChar' parsing' (tmp, text₁)
        = .ok ((), (tmp', text')) →
      (routine ext site).Ends (atEnd last (f + 32 + (i + 1))) m' w Q) :
    (routine ext site).Ends (behind 110 code) m w Q := by
  have hb := (h.frame.kept.word hapart (d := 1092) (by decide) (by decide)).trans hargs
  change (routine ext site).Ends (l110 ++ .label 80 :: behind 80 code) _ _ _
  simp [l110, h.esp, h.edi, hb]
  split
  · -- the first character finds none before it
    rename_i hpos
    obtain ⟨hlt, hrest⟩ := hzero hpos
    subst hpos
    exact ends_l80 hapart ⟨rfl, heax, (UInt32.add_zero b).symm, h.ecx, h.edx, rfl, h.ebp,
      h.frame⟩ (h.frame.length ▸ hlt) fun m' h' ↦ hnext _ _ _ _ _ m' h' hrest
  · rename_i hpos
    obtain ⟨pos₁, ⟨tmp₁, text₁⟩, hpush, hlt, hrest⟩ := hmore hpos
    obtain rfl := of_pushDecompressed_apart hpush
    exact ends_l109 hapart hargs ⟨rfl, h.ecx, h.edx, h.esi, rfl, h.ebp, h.frame⟩ heax hpush
      fun m' h' ↦ ends_l80 hapart h' (h'.frame.length ▸ hlt) fun m'' h'' ↦
        hnext _ _ _ _ _ m'' h'' hrest

omit hapart in
theorem ends_l84 (hesp : m.esp = f) (hecx : m.ecx = f + 32 + (i + 1))
    (heax : m.eax = c.toInt32.toUInt32)
    (hebx : m.ebx = e) (hedi : m.edi = pos) (hesi : m.esi.toUInt8 = lastChar.toUInt8)
    (hframe : TextFrame f b last size text mem₁ m.mem)
    (hnext : ∀ m', Decoding f b last (i + 1) ((e + c.toInt32.toUInt32 - 48) % 26) pos size
      lastChar true
      text mem₁ m' → (routine ext site).Ends (atEnd last (f + 32 + (i + 1))) m' w Q) :
    (routine ext site).Ends (behind 84 code) m w Q := by
  have hsum : e + -48 + c.toInt32.toUInt32 = e + c.toInt32.toUInt32 - 48 := by grind
  change (routine ext site).Ends (l84 ++ .label 85 :: behind 85 code) _ _ _
  simp [l84, hesp, hecx, heax, hebx, hframe.last, hsum, mulHigh_comm 1321528399, mulHigh_shr_26,
    sub_div_mul, ite_ends]
  exact hnext _ ⟨rfl, rfl, rfl, hesi, hedi, rfl, hframe⟩

theorem ends_l86 {n : ℕ} (hargs : mem₁.word (f + 1092) = b)
    (h : Decoding f b last (i + 1) count pos size lastChar parsing text mem₁ m)
    (heax : m.eax = c.toInt32.toUInt32) (hc : tmp[i.toNat]? = some c)
    (hloop : decompressFrom Arrays.apart (n + 1) i count pos lastChar parsing (tmp, text)
      = .ok ((), (tmp', text')))
    (hnext : ∀ count' pos' lastChar' parsing' text₁ m',
      Decoding f b last (i + 1) count' pos' size lastChar' parsing' text₁ mem₁ m' →
      decompressFrom Arrays.apart n (i + 1) count' pos' lastChar' parsing' (tmp, text₁)
        = .ok ((), (tmp', text')) →
      (routine ext site).Ends (atEnd last (f + 32 + (i + 1))) m' w Q) :
    (routine ext site).Ends (behind 86 code) m w Q := by
  obtain ⟨d, hd, hdigit, hzero, hmore⟩ := of_decompressFrom_succ hloop
  obtain rfl : c = d := Option.some.inj (hc.symm.trans hd)
  have hten : count + count * 4 + (count + count * 4) = 10 * count := by grind
  change (routine ext site).Ends (l86 ++ .label 84 :: behind 84 code) _ _ _
  simp [l86, h.edx, h.ebp, heax]
  rw [toUInt8_add_neg_48]
  by_cases hdig : isDigit c = true
  · rw [if_neg (UInt8.not_lt.mpr ((sub_48_le_iff c).mpr hdig))]
    have hrest := hdigit hdig
    -- the count so far is multiplied by ten, or dropped
    cases parsing with
    | true =>
      rw [if_pos rfl] at hrest
      exact ends_l84 h.esp h.ecx rfl hten h.edi h.esi h.frame fun m' h' ↦
        hnext _ _ _ _ _ m' h' hrest
    | false =>
      rw [if_neg Bool.false_ne_true] at hrest
      exact ends_l84 h.esp h.ecx rfl rfl h.edi h.esi h.frame fun m' h' ↦ hnext _ _ _ _ _ m' h' hrest
  · rw [if_pos (UInt8.not_le.mp (mt (sub_48_le_iff c).mp hdig))]
    have hdig' := Bool.eq_false_iff.mpr hdig
    refine ends_l110 hapart hargs ⟨h.esp, h.ecx, rfl, h.esi, h.edi, rfl, h.frame⟩ ?_ (hzero hdig')
      (hmore hdig') hnext
    simp

section Text

variable (htmp : mem₁.Chars (f + 32) tmp) (hlength : tmp.length = 1024)
include htmp hlength

theorem ends_l111 (h : Decoding f b last i count pos size lastChar parsing text mem₁ m)
    (hc : tmp[i.toNat]? = some c)
    (hnext : ∀ m', Decoding f b last (i + 1) count pos size lastChar parsing text mem₁ m' →
      m'.eax = c.toInt32.toUInt32 → (routine ext site).Ends (behind 86 code) m' w Q) :
    (routine ext site).Ends (behind 111 code) m w Q := by
  have hbyte := h.frame.kept.chars_tmp hapart htmp hlength i c hc
  change (routine ext site).Ends (l111 ++ .label 86 :: behind 86 code) _ _ _
  simp [l111, h.ecx, hbyte]
  exact hnext _ ⟨h.esp, UInt32.add_assoc _ _ _, h.edx, h.esi, h.edi, h.ebp, h.frame⟩ rfl

/-- The text is decoded as it is by the loop of `decompress`, up to its last run. -/
theorem ends_decode {n : ℕ} (hn : i.toNat + n < 1024) (hargs : mem₁.word (f + 1092) = b)
    (h : Decoding f b (f + 32 + (i + UInt32.ofNat (n + 1))) (i + 1) count pos size lastChar
      parsing text
      mem₁ m)
    (heax : m.eax = c.toInt32.toUInt32) (hc : tmp[i.toNat]? = some c)
    (hloop : decompressFrom Arrays.apart (n + 1) i count pos lastChar parsing (tmp, text)
      = .ok ((), (tmp', text')))
    (hnext : ∀ last i' count' pos' p' lastChar' parsing' text₁ m',
      Decoding f b last i' count' pos' size lastChar' parsing' text₁ mem₁ m' →
      pushDecompressed Arrays.apart lastChar' count'.toNat pos' (tmp, text₁) =
        .ok (p', (tmp', text')) →
      (routine ext site).Ends (behind 85 code) m' w Q) :
    (routine ext site).Ends (behind 86 code) m w Q := by
  induction n generalizing i count pos lastChar parsing text c m with
  | zero =>
    refine ends_l86 hapart hargs h heax hc hloop
      fun count' pos' lastChar' parsing' text₁ m' h' hrest ↦ ?_
    obtain ⟨p', hpush⟩ := of_decompressFrom_zero hrest
    rw [atEnd, show UInt32.ofNat (0 + 1) = 1 from rfl, if_pos rfl]
    exact hnext _ _ _ _ _ _ _ _ m' h' hpush
  | succ n ih =>
    have hi := toNat_add_one (i := i) (n := 1024) (by omega) (by decide)
    -- more is left, so the pointer is not at the end of the text
    have hne := ofNat_succ_ne_zero (n := n) (by omega)
    rw [add_ofNat_succ] at h
    refine ends_l86 hapart hargs h heax hc hloop
      fun count' pos' lastChar' parsing' text₁ m' h' hrest ↦ ?_
    obtain ⟨c', hc', -⟩ := of_decompressFrom_succ hrest
    rw [atEnd, if_neg fun heq ↦ hne (by grind)]
    exact ends_l111 hapart htmp hlength h' hc' fun m'' h'' heax' ↦
      ih (by omega) h'' heax' hc' hrest

end Text

/-! ## The last run -/

/-- The machine before a repeated character is written, behind the loop. -/
structure LastRepeating (f b bufferLen p' : UInt32) (size : ℕ) (lastChar : CChar) (mem₁ : Mem)
    (p : UInt32) (text : List CChar) (m : Machine) : Prop where
  esp : m.esp = f
  eax : m.eax = b + p
  ebx : m.ebx = bufferLen
  ecx : m.ecx.toUInt8 = lastChar.toUInt8
  edx : m.edx = b + p'
  frame : ∃ last, TextFrame f b last size text mem₁ m.mem

/-- The machine when the text is decoded. -/
structure Decoded (f b bufferLen : UInt32) (size : ℕ) (mem₁ : Mem) (text : List CChar)
    (m : Machine) :
    Prop where
  esp : m.esp = f
  ebx : m.ebx = bufferLen
  frame : ∃ last, TextFrame f b last size text mem₁ m.mem

theorem ends_l87 (h : LastRepeating f b bufferLen p' size lastChar mem₁ p text m)
    (hp : p.toNat < text.length)
    (hmore : p + 1 ≠ p' → ∀ m', LastRepeating f b bufferLen p' size lastChar mem₁ (p + 1)
      (text.set p.toNat lastChar) m' → (routine ext site).Ends (behind 87 code) m' w Q)
    (hdone : p + 1 = p' → ∀ m', Decoded f b bufferLen size mem₁ (text.set p.toNat lastChar) m' →
      (routine ext site).Ends (behind 78 code) m' w Q) :
    (routine ext site).Ends (behind 87 code) m w Q := by
  obtain ⟨last, hframe⟩ := h.frame
  rw [hframe.length] at hp
  have hframe' := hframe.setText hapart hp lastChar
  change (routine ext site).Ends (l87 ++ .label 78 :: behind 78 code) _ _ _
  simp [l87, h.eax, h.ecx, h.edx, UInt32.add_assoc b p 1]
  split
  · rename_i heq
    exact hdone heq _ ⟨h.esp, h.ebx, last, hframe'⟩
  · rename_i hne
    exact hmore hne _ ⟨h.esp, rfl, h.ebx, h.ecx, rfl, last, hframe'⟩

theorem ends_l85 (hargs : mem₁.word (f + 1092) = b) (hlen : mem₁.word (f + 1096) = bufferLen)
    (h : Decoding f b last i count pos size lastChar parsing text mem₁ m)
    (hpush : pushDecompressed Arrays.apart lastChar count.toNat pos (tmp, text)
      = .ok (p', (tmp', text')))
    (hnext : ∀ m', Decoded f b bufferLen size mem₁ text' m' →
      (routine ext site).Ends (behind 78 code) m' w Q) :
    (routine ext site).Ends (behind 85 code) m w Q := by
  have hb := (h.frame.kept.word hapart (d := 1092) (by decide) (by decide)).trans hargs
  have hlen' := (h.frame.kept.word hapart (d := 1096) (by decide) (by decide)).trans hlen
  change (routine ext site).Ends (l85 ++ .label 87 :: behind 87 code) _ _ _
  simp [l85, h.esp, h.edx, h.edi, hb, hlen']
  split
  · rename_i hle
    obtain ⟨rfl, hend⟩ := of_pushDecompressed_of_le (UInt32.le_iff_toNat_le.mp hle) hpush
    obtain ⟨-, rfl⟩ := Prod.mk.inj hend
    exact hnext _ ⟨rfl, rfl, last, h.frame⟩
  · rename_i hlt
    have hlt : 1 < count.toNat := UInt32.lt_iff_toNat_lt.mp (UInt32.not_le.mp hlt)
    obtain ⟨k, hk⟩ : ∃ k, count.toNat = k + 2 := ⟨count.toNat - 2, by omega⟩
    rw [hk] at hpush
    have hpos := add_one_of_pushDecompressed hk hpush
    have hedx : count + (b + -1 + pos) = b + p' := by
      rw [UInt32.add_comm, UInt32.add_assoc, ← hpos]; grind
    have hlt' := UInt32.toNat_lt count
    exact ends_pushDecompressed (P := LastRepeating f b bufferLen p' size lastChar mem₁)
      (D := Decoded f b bufferLen size mem₁) (ends_l87 hapart) (by omega)
      ⟨rfl, rfl, rfl, h.esi, hedx, last, h.frame⟩ hpush hnext

end Loop

end PasteSafely

end Asm

end MinixClipboard
