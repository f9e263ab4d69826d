import MinixClipboard.Asm.Cipher

/-!
# The encoder in the assembler's `copy_safely`

`compress` is compiled into `copy_safely` with `push_char_count` twice, in the loop and behind it.
In the frame, at `f`, there are what `ebx` was (at 0), the end of the text (4), the position behind
the character of a run (8), the next character (15), the digits of a count (16 to 31), the text (32
to 1055) and, from 1068 on, the saved registers. The digits come the wrong way round, and are copied
to the text from the last one on.
-/

namespace MinixClipboard

namespace Asm

namespace CopySafely

open I386 Mem Routine Codec Fallible

/-- `copy_safely`, with the `cipher` above and any `copy_to_clipboard`. -/
def routine {τ : Type} (ext : Callees Unit τ) (site : ℕ → UInt32) : Routine Call τ where
  call
    | .cipher => fun n m ↦ (Cipher.routine τ).run n Cipher.code m
    | .copyToClipboard => ext.call ()
  call_mono {f} := match f with
    | .cipher => run_mono
    | .copyToClipboard => ext.call_mono
  code := code
  site := site

/-! ## The frame -/

/-- The frame while the text is encoded. -/
structure TextFrame (f last : UInt32) (text : List CChar) (mem₁ mem : Mem) : Prop where
  last : mem.word (f + 4) = last
  chars : mem.Chars (f + 32) text
  length : text.length = 1024
  kept : ∀ x, 1056 ≤ ofs f x → mem x = mem₁ x

variable {f last i pos count val size : UInt32} {text text' done ds : List CChar}
  {c lastChar : CChar}
  {mem₁ mem : Mem}

theorem ofs_text (f : UInt32) (hi : i.toNat < 1024) : ofs f (f + 32 + i) = 32 + i.toNat := by
  simp [ofs_add]
  omega

theorem ofs_digit (f : UInt32) {k : ℕ} (hk : k < 16) :
    ofs f (f + 16 + UInt32.ofNat k) = 16 + k := by
  rw [ofs_add, ofs_add_self, toNat_ofNat (by omega)]
  simp
  omega

theorem pos_of_ne_zero (hval : val ≠ 0) : 0 < val := by
  rw [UInt32.lt_iff_toNat_lt]
  exact Nat.pos_of_ne_zero fun hzero ↦ hval (UInt32.toNat_inj.mp hzero)

theorem add_ofNat_pred (a : UInt32) {j : ℕ} (hj : j ≠ 0) :
    a + UInt32.ofNat j + -1 = a + UInt32.ofNat (j - 1) := by
  have hsucc : UInt32.ofNat (j - 1) + 1 = UInt32.ofNat j := by
    rw [ofNat_add_one, Nat.sub_add_cancel (Nat.pos_of_ne_zero hj)]
  rw [← hsucc]
  grind

theorem add_two_add_pred (a : UInt32) {j : ℕ} (hj : j ≠ 0) :
    a + 2 + UInt32.ofNat (j - 1) = a + 1 + UInt32.ofNat j := by
  rw [← add_ofNat_pred (a + 2) hj]
  grind

/-- The end of the text and the text itself stay, whatever is stored beside them in the frame. -/
theorem TextFrame.congr {mem' : Mem} (h : TextFrame f last text mem₁ mem)
    (hsame : ∀ x, 4 ≤ ofs f x ∧ ofs f x < 8 ∨ 32 ≤ ofs f x → mem' x = mem x) :
    TextFrame f last text mem₁ mem' := by
  refine ⟨?_, h.chars.congr fun x hx ↦ ?_, h.length, fun x hx ↦ ?_⟩
  · rw [word_congr fun x hx ↦ hsame x ?_, h.last]
    have hcases := ofs_eq f (f + 4) x
    simp at hcases
    omega
  · have hcases := ofs_eq f (f + 32) x
    rw [h.length] at hx
    simp at hcases
    exact hsame x (by omega)
  · rw [hsame x (by omega), h.kept x hx]

theorem TextFrame.setLast (h : TextFrame f last text mem₁ mem) (v : UInt32) :
    TextFrame f v text mem₁ (mem.setWord (f + 4) v) := by
  refine ⟨word_setWord_self, h.chars.setWord_of_le fun x hx ↦ ?_, h.length, fun x hx ↦ ?_⟩
  · have hcases := ofs_eq f (f + 32) x
    rw [h.length] at hx
    simp at hcases
    exact I386.le_ofs (f := f) (by simp; omega)
  · rw [setWord_of_le (I386.le_ofs (f := f) (by simp; omega)), h.kept x hx]

theorem TextFrame.setByte {x : UInt32} (h : TextFrame f last text mem₁ mem) (hx : 8 ≤ ofs f x)
    (hx' : ofs f x < 32) (d : UInt8) : TextFrame f last text mem₁ (mem.setByte x d) :=
  h.congr fun y hy ↦ setByte_of_ne fun heq ↦ by subst heq; omega

theorem TextFrame.setWord {x : UInt32} (h : TextFrame f last text mem₁ mem)
    (hx : ofs f x = 0 ∨ 8 ≤ ofs f x ∧ ofs f x + 4 ≤ 32) (v : UInt32) :
    TextFrame f last text mem₁ (mem.setWord x v) :=
  h.congr fun y hy ↦ setWord_of_le (I386.le_ofs (f := f) (by have hlt := ofs_lt f y; omega))

theorem TextFrame.setText (h : TextFrame f last text mem₁ mem) (hi : i.toNat < 1024) (d : CChar) :
    TextFrame f last (text.set i.toNat d) mem₁ (mem.setByte (f + 32 + i) d.toUInt8) := by
  have hofs := ofs_text f hi
  refine ⟨?_, h.chars.set i d, by rw [List.length_set, h.length], fun x hx ↦ ?_⟩
  · rw [word_setByte_of_le (I386.le_ofs (f := f) (by simp [hofs]; omega)), h.last]
  · rw [setByte_of_ne fun heq ↦ by subst heq; omega, h.kept x hx]

/-- The frame while the digits of a count are written and copied. -/
structure DigitFrame (f last saved : UInt32) (b : UInt8) (done text : List CChar) (mem₁ mem : Mem) :
    Prop extends TextFrame f last text mem₁ mem where
  char : mem (f + 15) = b
  saved : mem.word (f + 8) = saved
  digits : mem.Chars (f + 16) done
  room : done.length ≤ 16

variable {saved : UInt32} {b : UInt8}

theorem DigitFrame.push (h : DigitFrame f last saved b done text mem₁ mem)
    (hroom : done.length < 16)
    (d : CChar) : DigitFrame f last saved b (done ++ [d]) text mem₁
      (mem.setByte (f + 16 + UInt32.ofNat done.length) d.toUInt8) := by
  have hofs := ofs_digit f hroom
  refine ⟨h.toTextFrame.setByte (by omega) (by omega) _, ?_, ?_, h.digits.push (by omega) d, ?_⟩
  · rw [setByte_of_ne fun heq ↦ ?_, h.char]
    rw [← heq, ofs_add_self] at hofs
    simp at hofs
    omega
  · rw [word_setByte_of_le (I386.le_ofs (f := f) (by simp [hofs]; omega)), h.saved]
  · rw [List.length_append, List.length_singleton]
    omega

theorem DigitFrame.digit (h : DigitFrame f last saved b done text mem₁ mem) {j : ℕ}
    (hc : done[j]? = some c) : j < 16 ∧ mem (f + 16 + UInt32.ofNat j) = c.toUInt8 := by
  have hj : j < 16 := (List.getElem?_eq_some_iff.mp hc).1.trans_le h.room
  have hword : (UInt32.ofNat j).toNat = j := toNat_ofNat (hj.trans (by decide))
  exact ⟨hj, h.digits _ c (by rw [hword]; exact hc)⟩

theorem DigitFrame.setCount (h : DigitFrame f last saved b done text mem₁ mem) (v : UInt32) :
    DigitFrame f last saved b done text mem₁ (mem.setWord f v) := by
  refine ⟨h.toTextFrame.setWord (.inl (ofs_self f)) v, ?_, ?_, ?_, h.room⟩
  · rw [setWord_of_le (by simp), h.char]
  · rw [word_setWord_of_ofs (by simp), h.saved]
  · refine h.digits.setWord_of_le fun x hx ↦ ?_
    have hroom := h.room
    have hcases := ofs_eq f (f + 16) x
    simp at hcases
    omega

theorem DigitFrame.setText (h : DigitFrame f last saved b done text mem₁ mem) (hi : i.toNat < 1024)
    (d : CChar) : DigitFrame f last saved b done (text.set i.toNat d) mem₁
      (mem.setByte (f + 32 + i) d.toUInt8) := by
  have hofs := ofs_text f hi
  refine ⟨h.toTextFrame.setText hi d, ?_, ?_, h.digits.setByte_of_le ?_, h.room⟩
  · rw [setByte_of_ne fun heq ↦ ?_, h.char]
    rw [← heq, ofs_add_self] at hofs
    simp at hofs
    omega
  · rw [word_setByte_of_le (I386.le_ofs (f := f) (by simp [hofs]; omega)), h.saved]
  · have hroom := h.room
    exact I386.le_ofs (f := f) (by simp [hofs]; omega)

/-! ## Two loops -/

variable {τ : Type} {ext : Callees Unit τ} {site : ℕ → UInt32} {w : τ}
  {Q : UInt32 → Machine → τ → Prop} {m : Machine} {e d next : UInt32} {k j : ℕ}

section Loops

variable {R : Routine Call τ} {lines lines' : List (Line Call)}

/-- A loop that writes a digit and divides by ten as long as there are more of them does what
`itoa_inverse` does. -/
theorem ends_itoaInverse {P : UInt32 → List CChar → Machine → Prop}
    {D : ℕ → List CChar → Machine → Prop}
    (hround : ∀ {val done m}, P val done m → done.length < 16 →
      (9 < val → ∀ m', P (val / 10) (done ++ [asChar (48 + val % 10)]) m' → R.Ends lines m' w Q) →
      (val ≤ 9 → ∀ m', D done.length (done ++ [asChar (48 + val % 10)]) m' → R.Ends lines' m' w Q) →
      R.Ends lines m w Q)
    {room : ℕ} (h : P val done m) (hval : 0 < val) (hroom : done.length + room = 16)
    (hds : itoaInverse room val = .ok ds)
    (hnext : ∀ k m', k + 1 = (done ++ ds).length → D k (done ++ ds) m' → R.Ends lines' m' w Q) :
    R.Ends lines m w Q := by
  induction room generalizing val done ds m with
  | zero =>
    obtain ⟨_, _, hzero, -⟩ := of_itoaInverse hval hds
    cases hzero
  | succ room ih =>
    obtain ⟨_, ds', hsucc, rfl, hrest⟩ := of_itoaInverse hval hds
    obtain rfl := Nat.succ.inj hsucc
    rw [List.append_cons] at hnext
    refine hround h (by omega) (fun hlt m' h' ↦ ih h' ?_ ?_ hrest hnext) fun hle m' h' ↦ ?_
    · rw [UInt32.lt_iff_toNat_lt] at hlt ⊢
      rw [UInt32.toNat_div]
      exact Nat.div_pos hlt (by decide)
    · rw [List.length_append, List.length_singleton]
      omega
    · -- the program stops at 9, one step ahead of the source, which stops at 0
      have hzero : val / 10 = 0 := by
        rw [← UInt32.toNat_inj, UInt32.toNat_div]
        exact Nat.div_eq_of_lt (Nat.lt_succ_of_le (UInt32.le_iff_toNat_le.mp hle))
      rw [hzero] at hrest
      obtain rfl := of_itoaInverse_zero hrest
      rw [List.append_nil] at hnext
      exact hnext _ m' (by simp) h'

/-- A loop that copies characters from the last one down to the first one does what `push_int` does
with the digits. -/
theorem ends_pushChars {P : UInt32 → ℕ → List CChar → Machine → Prop}
    {D : List CChar → Machine → Prop}
    (hround : ∀ {p j text c m}, P p j text m → ds[j]? = some c → p.toNat < text.length →
      (j ≠ 0 → ∀ m', P (p + 1) (j - 1) (text.set p.toNat c) m' → R.Ends lines m' w Q) →
      (j = 0 → ∀ m', D (text.set p.toNat c) m' → R.Ends lines' m' w Q) → R.Ends lines m w Q)
    {p p' : UInt32} (h : P p j text m) (hj : j < ds.length)
    (hpush : pushChars Arrays.inPlace p (ds.take (j + 1)).reverse text = .ok (p', text'))
    (hnext : ∀ m', D text' m' → R.Ends lines' m' w Q) : R.Ends lines m w Q := by
  have hc := List.getElem?_eq_getElem hj
  obtain ⟨hp, hrest⟩ := of_pushChars_reverse hc hpush
  induction j generalizing p text m with
  | zero =>
    obtain ⟨-, rfl⟩ := of_pure_ok hrest
    exact hround h hc hp (fun hne ↦ absurd rfl hne) fun _ ↦ hnext
  | succ j ih =>
    have hj' : j < ds.length := Nat.lt_of_succ_lt hj
    have hc' := List.getElem?_eq_getElem hj'
    obtain ⟨hp', hrest'⟩ := of_pushChars_reverse hc' hrest
    exact hround h hc hp (fun _ m' h' ↦ ih h' hj' hrest hc' hp' hrest') fun hzero ↦
      absurd hzero (Nat.succ_ne_zero j)

end Loops

/-! ## The digits of a count, in the loop -/

/-- The machine before a digit is written, in the loop. -/
structure Dividing (f last e d next : UInt32) (b : UInt8) (text : List CChar) (mem₁ : Mem)
    (val : UInt32) (done : List CChar) (m : Machine) : Prop where
  esp : m.esp = f
  ebx : m.ebx = UInt32.ofNat done.length
  ecx : m.ecx = val
  ebp : m.ebp = e
  edi : m.edi = d
  frame : DigitFrame f last next b done text mem₁ m.mem

/-- The machine before a digit is copied, in the loop. -/
structure Reversing (f last e d next : UInt32) (k : ℕ) (b : UInt8) (ds : List CChar) (mem₁ : Mem)
    (p : UInt32) (j : ℕ) (text : List CChar) (m : Machine) : Prop where
  esp : m.esp = f
  eax : m.eax = f + 16 + UInt32.ofNat j
  edx : m.edx = f + 32 + p
  esi : m.esi = b.toUInt32
  ebp : m.ebp = e
  edi : m.edi = d
  count : m.mem.word f = UInt32.ofNat k
  frame : DigitFrame f last next b ds text mem₁ m.mem

theorem ends_l44 (h : Dividing f last e d next b text mem₁ val done m) (hroom : done.length < 16)
    (hmore : 9 < val → ∀ m', Dividing f last e d next b text mem₁ (val / 10)
      (done ++ [asChar (48 + val % 10)]) m' → (routine ext site).Ends (behind 44 code) m' w Q)
    (hdone : val ≤ 9 → ∀ m', Reversing f last e d next done.length b
      (done ++ [asChar (48 + val % 10)]) mem₁ next done.length text m' →
      (routine ext site).Ends (behind 46 code) m' w Q) :
    (routine ext site).Ends (behind 44 code) m w Q := by
  have hframe := h.frame.push hroom (asChar (48 + val % 10))
  have hframe' := hframe.setCount (UInt32.ofNat done.length)
  have hsign : ¬2 ^ 31 ≤ UInt32.ofNat done.length := by
    rw [UInt32.le_iff_toNat_le, toNat_ofNat (by omega)]
    exact Nat.not_le.mpr (hroom.trans (by decide))
  change (routine ext site).Ends (l44 ++ .label 57 :: behind 57 code) _ _ _
  simp [l44, h.esp, h.ebx, h.ecx, mulHigh_comm (-858993459),
    mulHigh_shr_10, toUInt8_digit, hframe.char, hframe'.saved,
    hsign]
  split
  · rename_i hlt
    change (routine ext site).Ends (l55 ++ .label 44 :: behind 44 code) _ _ _
    simp [l55]
    refine hmore hlt _ ⟨rfl, ?_, rfl, h.ebp, h.edi, hframe⟩
    rw [List.length_append, List.length_singleton, ← ofNat_add_one]
  · rename_i hle
    exact hdone (UInt32.not_lt.mp hle) _
      ⟨rfl, rfl, rfl, rfl, h.ebp, h.edi, word_setWord_self, hframe'⟩

/-- The machine when the digits are copied, in the loop. -/
structure Reversed (f last e d : UInt32) (k : ℕ) (b : UInt8) (mem₁ : Mem) (text : List CChar)
    (m : Machine) : Prop where
  esp : m.esp = f
  esi : m.esi = b.toUInt32
  ebp : m.ebp = e
  edi : m.edi = d + 2 + UInt32.ofNat k
  frame : TextFrame f last text mem₁ m.mem

theorem ends_l46 {p : UInt32} (h : Reversing f last e d next k b ds mem₁ p j text m)
    (hc : ds[j]? = some c) (hp : p.toNat < text.length)
    (hmore : j ≠ 0 → ∀ m',
      Reversing f last e d next k b ds mem₁ (p + 1) (j - 1) (text.set p.toNat c)
      m' → (routine ext site).Ends (behind 46 code) m' w Q)
    (hdone : j = 0 → ∀ m', Reversed f last e d k b mem₁ (text.set p.toNat c) m' →
      (routine ext site).Ends (behind 53 code) m' w Q) :
    (routine ext site).Ends (behind 46 code) m w Q := by
  rw [h.frame.length] at hp
  obtain ⟨hj, hbyte⟩ := h.frame.digit hc
  have hcount : (m.mem.setByte (f + 32 + p) c.toUInt8).word f = UInt32.ofNat k := by
    rw [word_setByte_of_le (by rw [ofs_text f hp]; omega), h.count]
  have hframe := h.frame.setText hp c
  change (routine ext site).Ends (l46 ++ .label 53 :: behind 53 code) _ _ _
  simp [l46, h.esp, h.eax, h.edx, h.esi, h.edi, hbyte, hcount]
  split
  · rename_i hzero
    have hj₀ : j = 0 := (ofNat_eq_zero_iff (hj.trans (by decide))).mp hzero
    exact hdone hj₀ _ ⟨rfl, rfl, h.ebp, rfl, hframe.toTextFrame⟩
  · rename_i hne
    have hj₀ : j ≠ 0 := mt (ofNat_eq_zero_iff (hj.trans (by decide))).mpr hne
    change (routine ext site).Ends (l57 ++ .label 46 :: behind 46 code) _ _ _
    simp [l57]
    refine hmore hj₀ _ ⟨rfl, ?_, UInt32.add_assoc _ _ _, rfl, h.ebp, rfl, hcount, hframe⟩
    exact add_ofNat_pred (f + 16) hj₀

theorem ends_digits {p' : UInt32} (h : Dividing f last e d next b text mem₁ count [] m)
    (hcount : count ≠ 0) (hds : itoaInverse 16 count = .ok ds)
    (hpush : pushChars Arrays.inPlace next ds.reverse text = .ok (p', text'))
    (hnext : ∀ m', Reversed f last e d (ds.length - 1) b mem₁ text' m' →
      (routine ext site).Ends (behind 53 code) m' w Q) :
    (routine ext site).Ends (behind 44 code) m w Q := by
  refine ends_itoaInverse (P := Dividing f last e d next b text mem₁)
    (D := fun k ds ↦ Reversing f last e d next k b ds mem₁ next k text) ends_l44 h
    (pos_of_ne_zero hcount) (Nat.zero_add 16) hds fun k m₁ hk h₁ ↦ ?_
  rw [List.nil_append] at hk h₁
  obtain rfl : k = ds.length - 1 := by omega
  exact ends_pushChars (P := Reversing f last e d next (ds.length - 1) b ds mem₁)
    (D := Reversed f last e d (ds.length - 1) b mem₁) ends_l46 h₁ (by omega)
    (by rwa [hk, List.take_length]) hnext

/-! ## The loop -/

/-- The machine before a character is read, and before it goes on to the next one. -/
structure Encoding (f last i count pos : UInt32) (lastChar : CChar) (text : List CChar) (mem₁ : Mem)
    (m : Machine) : Prop where
  esp : m.esp = f
  ebp : m.ebp = f + 32 + i
  ecx : m.ecx = count
  edi : m.edi = pos
  eax : m.eax.toUInt8 = lastChar.toUInt8
  frame : TextFrame f last text mem₁ m.mem

theorem ends_l53 (hesp : m.esp = f) (hesi : m.esi = c.toUInt8.toUInt32) (hebp : m.ebp = f + 32 + i)
    (hedi : m.edi = pos) (hframe : TextFrame f last text mem₁ m.mem)
    (hnext : ∀ m', Encoding f last i 1 pos c text mem₁ m' →
      (routine ext site).Ends (behind 43 code) m' w Q) :
    (routine ext site).Ends (behind 53 code) m w Q := by
  change (routine ext site).Ends (l53 ++ .label 43 :: behind 43 code) _ _ _
  simp [l53, hesi]
  exact hnext _ ⟨hesp, hebp, rfl, hedi, by simp, hframe⟩

theorem TextFrame.digitFrame (h : TextFrame f last text mem₁ mem) (hchar : mem (f + 15) = b)
    (hsaved : mem.word (f + 8) = saved) : DigitFrame f last saved b [] text mem₁ mem := by
  refine ⟨h, hchar, hsaved, fun i c hc ↦ ?_, Nat.zero_le 16⟩
  cases hc

theorem ends_l47 {n : ℕ} (h : Encoding f last i count pos lastChar text mem₁ m)
    (hloop : compressFrom Arrays.inPlace (n + 1) i lastChar count pos text = .ok (size, text'))
    (hnext : ∀ count' pos' lastChar' text₁ m',
      Encoding f last i count' pos' lastChar' text₁ mem₁ m' →
      compressFrom Arrays.inPlace n (i + 1) lastChar' count' pos' text₁ = .ok (size, text') →
      (routine ext site).Ends (behind 43 code) m' w Q) :
    (routine ext site).Ends (behind 47 code) m w Q := by
  obtain ⟨c, hc, hsame, hother⟩ := of_compressFrom_succ hloop
  have hbyte : m.mem (f + 32 + i) = c.toUInt8 := h.frame.chars i c hc
  change (routine ext site).Ends (l47 ++ .label 55 :: behind 55 code) _ _ _
  simp [l47, h.esp, h.ebp, h.ecx, h.edi, h.eax, hbyte]
  -- the run goes on
  by_cases heq : c = lastChar
  · rw [if_pos (congrArg Int8.toUInt8 heq)]
    change (routine ext site).Ends (l70 ++ .label 54 :: behind 54 code) _ _ _
    simp [l70]
    exact hnext _ _ _ _ _ ⟨rfl, rfl, rfl, rfl, h.eax, h.frame⟩ (hsame heq)
  rw [if_neg (mt toUInt8_inj.mp heq)]
  obtain ⟨pos₁, text₁, hpush, hrest⟩ := hother heq
  -- it ends: nothing, one character, or a character and its count are written
  rcases of_pushCharCount hpush with ⟨rfl, rfl, rfl⟩ | ⟨hzero, hpos, hcount⟩
  · rw [if_pos rfl]
    exact ends_l53 rfl rfl rfl rfl h.frame fun m' h' ↦ hnext _ _ _ _ m' h' hrest
  rw [if_neg hzero]
  have hset := h.frame.setText (h.frame.length ▸ hpos) lastChar
  rcases hcount with ⟨rfl, rfl, rfl⟩ | ⟨hone, ds, hds, hpushes⟩
  · have hsaved := hset.setWord (x := f + 8) (.inr (by simp)) (pos + 1)
    rw [if_pos rfl]
    change (routine ext site).Ends (l54 ++ .label 56 :: behind 56 code) _ _ _
    simp [l54]
    exact hnext _ _ _ _ _ ⟨rfl, rfl, rfl, rfl, by simp, hsaved⟩ hrest
  · rw [if_neg hone]
    have hsaved := hset.setWord (x := f + 8) (.inr (by simp)) (pos + 1)
    have hdigits := (hsaved.setByte (x := f + 15) (by simp) (by simp) c.toUInt8).digitFrame
      setByte_self (by rw [word_setByte_of_le (by simp), word_setWord_self])
    refine ends_digits ⟨rfl, rfl, rfl, rfl, rfl, hdigits⟩ hzero hds hpushes fun m₁ h₁ ↦ ?_
    obtain ⟨hesp, hesi, hebp, hedi, hframe⟩ := h₁
    refine ends_l53 hesp hesi hebp ?_ hframe fun m' h' ↦ hnext _ _ _ _ m' h' hrest
    rw [hedi, of_pushChars hpushes, List.length_reverse,
      add_two_add_pred pos (length_ne_zero_of_itoaInverse (pos_of_ne_zero hzero) hds)]

/-! ## The last run -/

/-- The machine before a digit is written, behind the loop. -/
structure LastDividing (f last pos : UInt32) (b : UInt8) (text : List CChar) (mem₁ : Mem)
    (val : UInt32) (done : List CChar) (m : Machine) : Prop where
  esp : m.esp = f
  ebx : m.ebx = UInt32.ofNat done.length
  ecx : m.ecx = val
  esi : m.esi = f + 16
  ebp : m.ebp = -858993459
  frame : DigitFrame f last pos b done text mem₁ m.mem

/-- The machine before a digit is copied, behind the loop. -/
structure LastReversing (f last pos : UInt32) (k : ℕ) (b : UInt8) (ds : List CChar) (mem₁ : Mem)
    (p : UInt32) (j : ℕ) (text : List CChar) (m : Machine) : Prop where
  esp : m.esp = f
  eax : m.eax = f + 16 + UInt32.ofNat j
  ebp : m.ebp = f + 32 + p
  esi : m.esi = f + 16
  edi : m.edi = pos
  ebx : m.ebx = UInt32.ofNat k
  frame : DigitFrame f last pos b ds text mem₁ m.mem

theorem ends_l48 (h : LastDividing f last pos b text mem₁ val done m) (hroom : done.length < 16)
    (hmore : 9 < val → ∀ m', LastDividing f last pos b text mem₁ (val / 10)
      (done ++ [asChar (48 + val % 10)]) m' → (routine ext site).Ends (behind 48 code) m' w Q)
    (hdone : val ≤ 9 → ∀ m', LastReversing f last pos done.length b
      (done ++ [asChar (48 + val % 10)]) mem₁ last done.length text m' →
      (routine ext site).Ends (behind 50 code) m' w Q) :
    (routine ext site).Ends (behind 48 code) m w Q := by
  have hframe := h.frame.push hroom (asChar (48 + val % 10))
  have hsign : ¬2 ^ 31 ≤ UInt32.ofNat done.length := by
    rw [UInt32.le_iff_toNat_le, toNat_ofNat (by omega)]
    exact Nat.not_le.mpr (hroom.trans (by decide))
  change (routine ext site).Ends (l48 ++ .label 61 :: behind 61 code) _ _ _
  simp [l48, h.esp, h.ebx, h.ecx, h.esi, h.ebp, mulHigh_shr_10, toUInt8_digit, hframe.saved,
    hframe.last, hsign]
  split
  · rename_i hlt
    change (routine ext site).Ends (l59 ++ .label 48 :: behind 48 code) _ _ _
    simp [l59]
    refine hmore hlt _ ⟨rfl, ?_, rfl, rfl, rfl, hframe⟩
    rw [List.length_append, List.length_singleton, ← ofNat_add_one]
  · rename_i hle
    exact hdone (UInt32.not_lt.mp hle) _ ⟨rfl, rfl, rfl, rfl, rfl, rfl, hframe⟩

/-- The machine when the text is encoded. -/
structure Encoded (f size : UInt32) (mem₁ : Mem) (text : List CChar) (m : Machine) : Prop where
  esp : m.esp = f
  edi : m.edi = size
  frame : ∃ last, TextFrame f last text mem₁ m.mem

theorem ends_l50 {p : UInt32} (h : LastReversing f last pos k b ds mem₁ p j text m)
    (hc : ds[j]? = some c) (hp : p.toNat < text.length)
    (hmore : j ≠ 0 → ∀ m', LastReversing f last pos k b ds mem₁ (p + 1) (j - 1)
      (text.set p.toNat c) m' → (routine ext site).Ends (behind 50 code) m' w Q)
    (hdone : j = 0 → ∀ m', Encoded f (pos + 2 + UInt32.ofNat k) mem₁ (text.set p.toNat c) m' →
      (routine ext site).Ends (behind 40 code) m' w Q) :
    (routine ext site).Ends (behind 50 code) m w Q := by
  rw [h.frame.length] at hp
  obtain ⟨hj, hbyte⟩ := h.frame.digit hc
  have hframe := h.frame.setText hp c
  change (routine ext site).Ends (l50 ++ .label 40 :: behind 40 code) _ _ _
  simp [l50, h.esp, h.eax, h.ebp, h.esi, h.edi, h.ebx, hbyte]
  split
  · rename_i hzero
    have hj₀ : j = 0 := (ofNat_eq_zero_iff (hj.trans (by decide))).mp hzero
    exact hdone hj₀ _ ⟨rfl, rfl, last, hframe.toTextFrame⟩
  · rename_i hne
    have hj₀ : j ≠ 0 := mt (ofNat_eq_zero_iff (hj.trans (by decide))).mpr hne
    change (routine ext site).Ends (l61 ++ .label 50 :: behind 50 code) _ _ _
    simp [l61]
    refine hmore hj₀ _ ⟨rfl, ?_, UInt32.add_assoc _ _ _, rfl, rfl, rfl, hframe⟩
    exact add_ofNat_pred (f + 16) hj₀

theorem ends_lastDigits {p' : UInt32} (h : LastDividing f last pos b text mem₁ count [] m)
    (hcount : count ≠ 0) (hds : itoaInverse 16 count = .ok ds)
    (hpush : pushChars Arrays.inPlace last ds.reverse text = .ok (p', text'))
    (hnext : ∀ m', Encoded f (pos + 2 + UInt32.ofNat (ds.length - 1)) mem₁ text' m' →
      (routine ext site).Ends (behind 40 code) m' w Q) :
    (routine ext site).Ends (behind 48 code) m w Q := by
  refine ends_itoaInverse (P := LastDividing f last pos b text mem₁)
    (D := fun k ds ↦ LastReversing f last pos k b ds mem₁ last k text) ends_l48 h
    (pos_of_ne_zero hcount) (Nat.zero_add 16) hds fun k m₁ hk h₁ ↦ ?_
  rw [List.nil_append] at hk h₁
  obtain rfl : k = ds.length - 1 := by omega
  exact ends_pushChars (P := LastReversing f last pos (ds.length - 1) b ds mem₁)
    (D := Encoded f (pos + 2 + UInt32.ofNat (ds.length - 1)) mem₁) ends_l50 h₁ (by omega)
    (by rwa [hk, List.take_length]) hnext

/-- Behind the loop, what is left is the last run. -/
theorem ends_l43_of_last (h : Encoding f (f + 32 + (i + 1)) i count pos lastChar text mem₁ m)
    (hpush : pushCharCount Arrays.inPlace pos lastChar count text = .ok (size, text'))
    (hnext : ∀ m', Encoded f size mem₁ text' m' → (routine ext site).Ends (behind 40 code) m' w Q) :
    (routine ext site).Ends (behind 43 code) m w Q := by
  change (routine ext site).Ends (l43 ++ .label 59 :: behind 59 code) _ _ _
  simp [l43, h.esp, h.ebp, h.ecx, h.edi, h.eax, h.frame.last, UInt32.add_assoc (f + 32) i 1]
  rcases of_pushCharCount hpush with ⟨rfl, rfl, rfl⟩ | ⟨hzero, hpos, hcount⟩
  · rw [if_pos rfl]
    exact hnext _ ⟨rfl, rfl, _, h.frame⟩
  rw [if_neg hzero]
  have hset := (h.frame.setText (h.frame.length ▸ hpos) lastChar).setLast (pos + 1)
  rcases hcount with ⟨rfl, rfl, rfl⟩ | ⟨hone, ds, hds, hpushes⟩
  · rw [if_pos rfl]
    change (routine ext site).Ends (l58 ++ .label 51 :: behind 51 code) _ _ _
    simp [l58]
    exact hnext _ ⟨rfl, rfl, _, hset⟩
  · rw [if_neg hone]
    have hsaved := (hset.setWord (x := f + 8) (.inr (by simp)) pos).digitFrame rfl word_setWord_self
    refine ends_lastDigits ⟨rfl, rfl, rfl, rfl, rfl, hsaved⟩ hzero hds hpushes fun m' h' ↦
      hnext m' ?_
    rwa [add_two_add_pred pos (length_ne_zero_of_itoaInverse (pos_of_ne_zero hzero) hds),
      ← List.length_reverse, ← of_pushChars hpushes] at h'

/-- The text is encoded as it is by the loop of `compress`. -/
theorem ends_encode {n : ℕ} (hn : i.toNat + n < 1024)
    (h : Encoding f (f + 32 + (i + UInt32.ofNat (n + 1))) i count pos lastChar text mem₁ m)
    (hloop : compressFrom Arrays.inPlace (n + 1) i lastChar count pos text = .ok (size, text'))
    (hnext : ∀ m', Encoded f size mem₁ text' m' → (routine ext site).Ends (behind 40 code) m' w Q) :
    (routine ext site).Ends (behind 47 code) m w Q := by
  induction n generalizing i count pos lastChar text m with
  | zero =>
    exact ends_l47 h hloop fun count' pos' lastChar' text₁ m' h' hrest ↦
      ends_l43_of_last h' hrest hnext
  | succ n ih =>
    have hi := toNat_add_one (i := i) (n := 1024) (by omega) (by decide)
    -- more is left, so the pointer is not at the end of the text
    have hne := ofNat_succ_ne_zero (n := n) (by omega)
    rw [add_ofNat_succ] at h
    refine ends_l47 h hloop fun count' pos' lastChar' text₁ m' h' hrest ↦ ?_
    change (routine ext site).Ends (l43 ++ .label 59 :: behind 59 code) _ _ _
    simp [l43, h'.esp, h'.ebp, h'.frame.last, UInt32.add_assoc (f + 32) i 1]
    rw [if_neg fun heq ↦ hne ((ofNat_add_one n).symm.trans heq)]
    exact ih (by omega) ⟨rfl, rfl, h'.ecx, h'.edi, h'.eax, h'.frame⟩ hrest

end CopySafely

end Asm

end MinixClipboard
