import MinixClipboard.Asm.PasteDecode

/-!
# The assembler's `paste_safely`

The external `paste_from_clipboard` is any code that keeps the conventions of C and does what a
given function does; it may use `depth` bytes of the stack.
-/

namespace MinixClipboard

namespace Asm

namespace PasteSafely

open I386 Mem Routine Codec Fallible

/-- The code `ext` is a `paste_from_clipboard` that does what the function does: called with an id
and the addresses of an array and of its length, it leaves bytes in the array, and changes nothing
apart from the stack, the array and the length. -/
def IsPasteFromClipboard {τ : Type} (ext : Callees Unit τ) (depth : ℕ)
    (pasteFromClipboard : UInt32 → List CChar → UInt32 → τ → (UInt32 × Local × UInt32) × τ) :
    Prop :=
  ∀ m w bytes, m.mem.Chars (m.mem.word (m.esp + 8)) bytes → bytes.length = maxSize →
    (∀ x, ofs (m.mem.word (m.esp + 8)) x < maxSize → Apart m.esp 16 depth x) →
    (∀ x, ofs (m.mem.word (m.esp + 12)) x < 4 → Apart m.esp 16 depth x ∧
      maxSize ≤ ofs (m.mem.word (m.esp + 8)) x) →
    ext.Calls () m w fun addr m' w' ↦ Returned m addr m' ∧ ∃ left n,
      pasteFromClipboard (m.mem.word (m.esp + 4)) bytes (m.mem.word (m.mem.word (m.esp + 12))) w
        = ((m'.eax, left, n), w') ∧
      m'.mem.Chars (m.mem.word (m.esp + 8)) left.val ∧
      ∀ x, Apart m.esp 16 depth x → maxSize ≤ ofs (m.mem.word (m.esp + 8)) x →
        4 ≤ ofs (m.mem.word (m.esp + 12)) x → m'.mem x = m.mem x

/-! ## Looking for the end -/

variable {f b last bufferLen : UInt32} {size i n len bound : ℕ} {buffer tmp text l : List CChar}
  {c : CChar} {mem₁ mem : Mem} {τ : Type} {ext : Callees Unit τ} {site : ℕ → UInt32} {w : τ}
  {Q : UInt32 → Machine → τ → Prop} {m : Machine}

/-- A loop that goes on while the next character is not zero does what `slen` does, behind the
character at `i`. -/
theorem ends_slen {R : Routine Call τ} {lines lines' : List (Line Call)} {P D : ℕ → Machine → Prop}
    (hround : ∀ {i m}, P i m → i < bound → (i + 1 < bound → ∃ c, l[i + 1]? = some c) →
      (i + 1 < bound → l[i + 1]? ≠ some 0 → ∀ m', P (i + 1) m' → R.Ends lines m' w Q) →
      (i + 1 = bound ∨ l[i + 1]? = some 0 → ∀ m', D (i + 1) m' → R.Ends lines' m' w Q) →
      R.Ends lines m w Q)
    (hi : i + n + 1 = bound) (h : P i m) (hlen : slen (l.drop (i + 1)) n = .ok len)
    (hnext : ∀ m', D (i + 1 + len) m' → R.Ends lines' m' w Q) : R.Ends lines m w Q := by
  induction n generalizing i len m with
  | zero =>
    rw [slen] at hlen
    obtain rfl : 0 = len := Except.ok.inj hlen
    exact hround h (by omega) (fun hlt ↦ by omega) (fun hlt ↦ by omega) fun _ ↦ hnext
  | succ n ih =>
    obtain ⟨c, cs, hdrop, hcases⟩ := of_slen_succ hlen
    have hc : l[i + 1]? = some c := by
      rw [← List.head?_drop, hdrop, List.head?_cons]
    have hcs : l.drop (i + 1 + 1) = cs := by rw [← List.tail_drop, hdrop, List.tail_cons]
    refine hround h (by omega) (fun _ ↦ ⟨c, hc⟩) (fun _ hne m' h' ↦ ?_) fun hor m' h' ↦ ?_
    · -- the test of the next character is the one the recursion makes
      rcases hcases with ⟨rfl, -⟩ | ⟨-, len', hrest, rfl⟩
      · exact absurd hc hne
      · exact ih (by omega) h' (hcs ▸ hrest) fun m'' h'' ↦
          hnext m'' (by rwa [Nat.add_right_comm] at h'')
    · rcases hcases with ⟨-, rfl⟩ | ⟨hne, -⟩
      · exact hnext m' h'
      · rcases hor with hlast | hzero
        · omega
        · exact absurd (Option.some.inj (hc.symm.trans hzero)) hne

/-- The machine while the end of the text is looked for, when the character at `i` is not zero. -/
structure ScanningText (f bufferLen : UInt32) (c : CChar) (mem₁ : Mem) (i : ℕ) (m : Machine) :
    Prop where
  esp : m.esp = f
  eax : m.eax = c.toInt32.toUInt32
  ebx : m.ebx = bufferLen
  edx : m.edx = UInt32.ofNat i
  esi : m.esi = f + 32
  mem : m.mem = mem₁

theorem toUInt8_eq_zero_iff : c.toUInt8 = 0 ↔ c = 0 := toUInt8_inj (d := 0)

theorem ends_l77 (htmp : mem₁.Chars (f + 32) tmp) (h : ScanningText f bufferLen c mem₁ i m)
    (hi : i < bufferLen.toNat) (hsome : i + 1 < bufferLen.toNat → ∃ c, tmp[i + 1]? = some c)
    (hmore : i + 1 < bufferLen.toNat → tmp[i + 1]? ≠ some 0 → ∀ m',
      ScanningText f bufferLen c mem₁ (i + 1) m' → (routine ext site).Ends (behind 77 code) m' w Q)
    (hdone : i + 1 = bufferLen.toNat ∨ tmp[i + 1]? = some 0 → ∀ m',
      ScanningText f bufferLen c mem₁ (i + 1) m' →
        (routine ext site).Ends (behind 74 code) m' w Q) :
    (routine ext site).Ends (behind 77 code) m w Q := by
  have hlt := UInt32.toNat_lt bufferLen
  have hword : (UInt32.ofNat i + 1).toNat = i + 1 := by rw [ofNat_add_one, toNat_ofNat (by omega)]
  change (routine ext site).Ends (l77 ++ .label 74 :: behind 74 code) _ _ _
  simp [l77, h.ebx, h.edx]
  split
  · rename_i heq
    have hlast : i + 1 = bufferLen.toNat := by rw [heq, hword]
    exact hdone (.inl hlast) _ ⟨h.esp, h.eax, rfl, heq.trans (ofNat_add_one i), h.esi, h.mem⟩
  · rename_i hne
    have hlast : i + 1 < bufferLen.toNat := Nat.lt_of_le_of_ne hi fun heq ↦
      hne (UInt32.toNat_inj.mp (heq.symm.trans hword.symm))
    obtain ⟨d, hd⟩ := hsome hlast
    have hbyte : m.mem (f + 32 + (UInt32.ofNat i + 1)) = d.toUInt8 :=
      h.mem ▸ htmp _ d (by rwa [hword])
    change (routine ext site).Ends (l75 ++ .label 77 :: behind 77 code) _ _ _
    simp [l75, h.esi, hbyte, toUInt8_eq_zero_iff]
    split
    · rename_i hzero
      exact hdone (.inr (hzero ▸ hd)) _ ⟨h.esp, h.eax, rfl, ofNat_add_one i, rfl, h.mem⟩
    · rename_i hzero
      exact hmore hlast (fun heq ↦ hzero (Option.some.inj (hd.symm.trans heq))) _
        ⟨h.esp, h.eax, rfl, ofNat_add_one i, rfl, h.mem⟩

/-- The machine while the end of the buffer is looked for, when the character at `i` is not zero. -/
structure ScanningBuffer (f b bufferLen : UInt32) (size : ℕ) (text : List CChar) (mem₁ : Mem)
    (i : ℕ)
    (m : Machine) : Prop where
  esp : m.esp = f
  eax : m.eax = UInt32.ofNat i
  ebx : m.ebx = bufferLen
  edx : m.edx = b
  frame : ∃ last, TextFrame f b last size text mem₁ m.mem

theorem ends_l88 (h : ScanningBuffer f b bufferLen size text mem₁ i m)
    (hi : i < bufferLen.toNat) (hsome : i + 1 < bufferLen.toNat → ∃ c, text[i + 1]? = some c)
    (hmore : i + 1 < bufferLen.toNat → text[i + 1]? ≠ some 0 → ∀ m',
      ScanningBuffer f b bufferLen size text mem₁ (i + 1) m' →
      (routine ext site).Ends (behind 88 code) m' w Q)
    (hdone : i + 1 = bufferLen.toNat ∨ text[i + 1]? = some 0 → ∀ m',
      Decoded f b (UInt32.ofNat (i + 1)) size mem₁ text m' →
      (routine ext site).Ends (behind 73 code) m' w Q) :
    (routine ext site).Ends (behind 88 code) m w Q := by
  obtain ⟨last, hframe⟩ := h.frame
  have hlt := UInt32.toNat_lt bufferLen
  have hword : (UInt32.ofNat i + 1).toNat = i + 1 := by rw [ofNat_add_one, toNat_ofNat (by omega)]
  change (routine ext site).Ends (l88 ++ .label 73 :: behind 73 code) _ _ _
  simp [l88, h.eax, h.ebx]
  split
  · rename_i heq
    have hlast : i + 1 = bufferLen.toNat := by rw [heq, hword]
    exact hdone (.inl hlast) _ ⟨h.esp, heq.trans (ofNat_add_one i), last, hframe⟩
  · rename_i hne
    have hlast : i + 1 < bufferLen.toNat := Nat.lt_of_le_of_ne hi fun heq ↦
      hne (UInt32.toNat_inj.mp (heq.symm.trans hword.symm))
    obtain ⟨d, hd⟩ := hsome hlast
    have hbyte : m.mem (b + (UInt32.ofNat i + 1)) = d.toUInt8 := hframe.chars _ d (by rwa [hword])
    change (routine ext site).Ends (l114 ++ .label 88 :: behind 88 code) _ _ _
    simp [l114, h.edx, hbyte, toUInt8_eq_zero_iff]
    split
    · rename_i hzero
      change (routine ext site).Ends (l113 ++ .label 115 :: behind 115 code) _ _ _
      simp [l113]
      exact hdone (.inr (hzero ▸ hd)) _ ⟨h.esp, ofNat_add_one i, last, hframe⟩
    · rename_i hzero
      exact hmore hlast (fun heq ↦ hzero (Option.some.inj (hd.symm.trans heq))) _
        ⟨h.esp, ofNat_add_one i, rfl, rfl, last, hframe⟩

section Apart

variable (hapart : ∀ x, ofs b x < size → 1108 ≤ ofs f x)
include hapart

theorem ends_l78 (hargs : mem₁.word (f + 1092) = b) (hne : bufferLen ≠ 0)
    (h : Decoded f b bufferLen size mem₁ text m) (hlen : slen text bufferLen.toNat = .ok len)
    (hnext : ∀ m', Decoded f b (UInt32.ofNat len) size mem₁ text m' →
      (routine ext site).Ends (behind 73 code) m' w Q) :
    (routine ext site).Ends (behind 78 code) m w Q := by
  obtain ⟨last, hframe⟩ := h.frame
  have hb := (hframe.kept.word hapart (d := 1092) (by decide) (by decide)).trans hargs
  obtain ⟨n, hn⟩ := exists_toNat_eq_succ hne
  rw [hn] at hlen
  obtain ⟨c, cs, rfl, hcases⟩ := of_slen_succ hlen
  have hbyte : m.mem b = c.toUInt8 := by simpa using hframe.chars 0 c rfl
  change (routine ext site).Ends (l78 ++ .label 114 :: behind 114 code) _ _ _
  simp [l78, h.esp, hb, hbyte, toUInt8_eq_zero_iff]
  rcases hcases with ⟨rfl, rfl⟩ | ⟨hc, len', hrest, rfl⟩
  · rw [if_pos rfl]
    change (routine ext site).Ends l112 _ _ _
    simp [l112]
    exact hnext _ ⟨rfl, rfl, last, hframe⟩
  · rw [if_neg hc]
    refine ends_slen (P := ScanningBuffer f b bufferLen size (c :: cs) mem₁)
      (D := fun i ↦ Decoded f b (UInt32.ofNat i) size mem₁ (c :: cs)) ends_l88
      (i := 0) (n := n) (by omega) ⟨rfl, rfl, h.ebx, rfl, last, hframe⟩ hrest fun m' h' ↦
        hnext m' ?_
    rwa [Nat.zero_add, Nat.add_comm] at h'

/-! ## Clearing the buffer -/

/-- The machine while the buffer is cleared, up to the byte at `i`. -/
structure Clearing (f b bufferLen : UInt32) (size len : ℕ) (c : CChar) (buffer : List CChar)
    (mem₁ : Mem) (i : ℕ) (m : Machine) : Prop where
  esp : m.esp = f
  eax : m.eax = c.toInt32.toUInt32
  ebx : m.ebx = bufferLen
  ecx : m.ecx = b + UInt32.ofNat i
  edx : m.edx = UInt32.ofNat len
  esi : m.esi = f + 32
  edi : m.edi = b + bufferLen
  frame : ∃ last, TextFrame f b last size
    ((List.replicate bufferLen.toNat 0).take i ++ buffer.drop i) mem₁ m.mem

theorem ends_l76 (hlen : mem₁.word (f + 1096) = bufferLen) (hsize : bufferLen.toNat ≤ size)
    (hlt : len < 2 ^ 32) (hbuffer : buffer.length = size) (hi : i < bufferLen.toNat)
    (h : Clearing f b bufferLen size len c buffer mem₁ i m)
    (hmore : i + 1 ≠ bufferLen.toNat → ∀ m',
      Clearing f b bufferLen size len c buffer mem₁ (i + 1) m' →
      (routine ext site).Ends (behind 76 code) m' w Q)
    (hzero : i + 1 = bufferLen.toNat → len = 0 → ∀ m', Decoded f b bufferLen size mem₁
      (List.replicate bufferLen.toNat 0 ++ buffer.drop bufferLen.toNat) m' →
      (routine ext site).Ends (behind 78 code) m' w Q)
    (hdone : i + 1 = bufferLen.toNat → len ≠ 0 → ∀ m',
      Decoding f b (f + 32 + UInt32.ofNat len) 1 0 0
      size 0 false (List.replicate bufferLen.toNat 0 ++ buffer.drop bufferLen.toNat) mem₁ m' →
      m'.eax = c.toInt32.toUInt32 → (routine ext site).Ends (behind 86 code) m' w Q) :
    (routine ext site).Ends (behind 76 code) m w Q := by
  obtain ⟨last, hframe⟩ := h.frame
  have hbound := UInt32.toNat_lt bufferLen
  have hword : (UInt32.ofNat i).toNat = i := toNat_ofNat (by omega)
  have hword' : (UInt32.ofNat i + 1).toNat = i + 1 := by rw [ofNat_add_one, toNat_ofNat (by omega)]
  have hset := hframe.setText hapart (i := UInt32.ofNat i) (by omega) 0
  have hframe' : TextFrame f b last size
      ((List.replicate bufferLen.toNat 0).take (i + 1) ++ buffer.drop (i + 1)) mem₁
      (m.mem.setByte (b + UInt32.ofNat i) 0) :=
    ⟨hset.last, hframe.chars.copy (c := 0) (by simp [hi]) (by omega) (by omega),
      by simp; omega, hset.kept⟩
  change (routine ext site).Ends (l76 ++ .label 110 :: behind 110 code) _ _ _
  simp [l76, h.eax, h.ebx, h.ecx, h.edx, h.esi, h.edi, h.esp, UInt32.add_assoc b (UInt32.ofNat i) 1]
  split
  · rename_i heq
    -- it was the last byte; the length is stored over itself, and decides what comes next
    have hlast : i + 1 = bufferLen.toNat := by rw [heq, hword']
    have htake : (List.replicate bufferLen.toNat (0 : CChar)).take (i + 1)
        = List.replicate bufferLen.toNat 0 := by rw [hlast, List.take_of_length_le (by simp)]
    rw [htake, hlast] at hframe'
    have hframe₄ := hframe'.setLast hapart (f + 32 + UInt32.ofNat len)
    have hlen' := (hframe₄.kept.word hapart (d := 1096) (by decide) (by decide)).trans hlen
    rw [setWord_eq_self hlen']
    split
    · rename_i hlen₀
      exact hzero hlast ((ofNat_eq_zero_iff hlt).mp hlen₀) _ ⟨rfl, rfl, last, hframe'⟩
    · rename_i hlen₀
      exact hdone hlast (mt (ofNat_eq_zero_iff hlt).mpr hlen₀) _
        ⟨rfl, by simp [UInt32.add_assoc], rfl, rfl, rfl, rfl, hframe₄⟩ rfl
  · rename_i hne
    have hlast : i + 1 ≠ bufferLen.toNat := fun heq ↦
      hne (UInt32.toNat_inj.mp (heq.symm.trans hword'.symm))
    exact hmore hlast _ ⟨rfl, rfl, rfl, by rw [← ofNat_add_one], rfl, rfl, rfl, last, hframe'⟩

theorem ends_clear (hlen : mem₁.word (f + 1096) = bufferLen) (hsize : bufferLen.toNat ≤ size)
    (hlt : len < 2 ^ 32) (hbuffer : buffer.length = size) (hi : i + n + 1 = bufferLen.toNat)
    (h : Clearing f b bufferLen size len c buffer mem₁ i m)
    (hzero : len = 0 → ∀ m', Decoded f b bufferLen size mem₁
      (List.replicate bufferLen.toNat 0 ++ buffer.drop bufferLen.toNat) m' →
      (routine ext site).Ends (behind 78 code) m' w Q)
    (hdone : len ≠ 0 → ∀ m', Decoding f b (f + 32 + UInt32.ofNat len) 1 0 0
      size 0 false (List.replicate bufferLen.toNat 0 ++ buffer.drop bufferLen.toNat) mem₁ m' →
      m'.eax = c.toInt32.toUInt32 → (routine ext site).Ends (behind 86 code) m' w Q) :
    (routine ext site).Ends (behind 76 code) m w Q := by
  induction n generalizing i m with
  | zero =>
    exact ends_l76 hapart hlen hsize hlt hbuffer (by omega) h (fun hne ↦ absurd hi hne)
      (fun _ ↦ hzero) fun _ ↦ hdone
  | succ n ih =>
    exact ends_l76 hapart hlen hsize hlt hbuffer (by omega) h (fun _ m' h' ↦ ih (by omega) h')
      (fun hlast ↦ by omega) fun hlast ↦ by omega

theorem ends_l74 {text₁ left' text₂ : List CChar} (htmp : mem₁.Chars (f + 32) tmp)
    (hlength : tmp.length = 1024) (hargs : mem₁.word (f + 1092) = b)
    (hlen : mem₁.word (f + 1096) = bufferLen) (htext : mem₁.Chars b buffer)
    (hbuffer : buffer.length = size) (hne : bufferLen ≠ 0) (hlt : len ≤ tmp.length)
    (hc : 0 < len → tmp[0]? = some c) (h : ScanningText f bufferLen c mem₁ len m)
    (hclear : fmemset buffer 0 bufferLen = .ok text₁)
    (hdecode : decompress Arrays.apart (UInt32.ofNat len) (tmp, text₁) = .ok ((), (left', text₂)))
    (hnext : ∀ m', Decoded f b bufferLen size mem₁ text₂ m' →
      (routine ext site).Ends (behind 78 code) m' w Q) :
    (routine ext site).Ends (behind 74 code) m w Q := by
  obtain ⟨hsize, rfl⟩ := of_fmemset hclear
  obtain ⟨n, hn⟩ := exists_toNat_eq_succ hne
  rw [decompress, toNat_ofNat (by omega)] at hdecode
  have hframe : TextFrame f b (mem₁.word (f + 4)) size buffer mem₁ mem₁ :=
    ⟨rfl, htext, hbuffer, fun _ _ _ _ ↦ rfl⟩
  change (routine ext site).Ends (l74 ++ .label 76 :: behind 76 code) _ _ _
  simp [l74, h.esp, h.ebx, h.mem, hargs]
  refine ends_clear hapart hlen (hbuffer ▸ hsize) (by omega) hbuffer (i := 0) (n := n) (by omega)
    ⟨rfl, h.eax, rfl, (UInt32.add_zero b).symm, h.edx, h.esi, rfl, _, hframe⟩
    (fun hzero m' h' ↦ ?_) fun hmore m' h' heax ↦ ?_
  · -- no text: the decoder leaves the cleared buffer as it is
    subst hzero
    obtain ⟨p', hpush⟩ := of_decompressFrom_zero hdecode
    obtain ⟨-, hend⟩ := of_pushDecompressed_of_le (Nat.zero_le 1) hpush
    obtain ⟨-, rfl⟩ := Prod.mk.inj hend
    exact hnext m' h'
  · obtain ⟨k, rfl⟩ := Nat.exists_eq_succ_of_ne_zero hmore
    refine ends_decode hapart htmp hlength (i := 0) (n := k) ?_ hargs ?_ heax (hc (Nat.succ_pos k))
      hdecode fun last i' count' pos' p' lastChar' parsing' text₁ m'' h'' hpush ↦
        ends_l85 hapart hargs hlen h'' hpush hnext
    · rw [UInt32.toNat_zero]
      omega
    · rwa [UInt32.zero_add, UInt32.zero_add]

end Apart

/-! ## The call of `cipher` -/

variable {k keyLen res r : UInt32} {below depth : ℕ} {key buffer' : List CChar} {m₀ : Machine}

/-- What `paste_safely` has been given, and what `paste_from_clipboard` has returned. -/
structure Given (m₀ : Machine) (f b bufferLen k keyLen res : UInt32) (size below : ℕ)
    (key : List CChar) (mem : Mem) : Prop where
  room : 1108 + below ≤ 2 ^ 32
  saved : Saved m₀ (f + 1068) mem
  res : mem.word (f + 8) = res
  bufferArg : mem.word (f + 1092) = b
  bufferLenArg : mem.word (f + 1096) = bufferLen
  keyArg : mem.word (f + 1100) = k
  keyLenArg : mem.word (f + 1104) = keyLen
  bufferApart : ∀ x, ofs b x < size → Apart f 1108 below x
  keyText : mem.Chars k key
  keyApart : ∀ x, ofs k x < key.length → Apart f 1108 below x ∧ size ≤ ofs b x
  keyLen : key.length = keyLen.toNat

theorem ends_l71 (hesp : m.esp = f) (hsaved : Saved m₀ (f + 1068) m.mem)
    (hres : m.mem.word (f + 8) = res)
    (hQ : ∀ addr m', Returned m₀ addr m' → m'.eax = res → m'.mem = m.mem → Q addr m' w) :
    (routine ext site).Ends (behind 71 code) m w Q := by
  change (routine ext site).Ends
    (.instr (.movl (loc 8 .esp) Reg.eax) :: (leave 1068 ++ .label 109 ::
    behind 109 code)) _ _ _
  rw [ends_instr]
  refine ⟨{m with eax := res}, by simp [hesp, hres], ?_⟩
  exact Saved.ends_leave (m := {m with eax := res}) hsaved (by rw [hesp]) hQ

section Given

variable (hgiven : Given m₀ f b bufferLen k keyLen res size below key mem₁)
include hgiven

theorem Given.apart : ∀ x, ofs b x < size → 1108 ≤ ofs f x := fun x hx ↦ (hgiven.bufferApart x hx).1

theorem Given.saved_and_res (mem : Mem) (hkept : ∀ x, 8 ≤ ofs f x → ofs f x < 1088 → ofs f x ≠ 15 →
    mem x = mem₁ x) : Saved m₀ (f + 1068) mem ∧ mem.word (f + 8) = res := by
  refine ⟨hgiven.saved.congr fun x hx ↦ ?_, (word_congr fun x hx ↦ ?_).trans hgiven.res⟩
  · have hcases := ofs_eq f (f + 1068) x
    simp at hcases
    exact hkept x (by omega) (by omega) (by omega)
  · have hcases := ofs_eq f (f + 8) x
    simp at hcases
    exact hkept x (by omega) (by omega) (by omega)

theorem called_cipher {g s v : UInt32} (hbelow : 1084 ≤ below) (hg : ofs g f = 36)
    (hframe : TextFrame f b last size text mem₁ mem) (hv : v.toNat ≤ size) (hesp : m.esp = g)
    (hmem : m.mem = pushed mem g [s, b, v, k, keyLen, 1]) :
    Cipher.Called m b v k keyLen modeDecipher text key := by
  have hapart : ∀ x, Apart f 1108 below x → Apart g 24 1048 x := fun x hx ↦
    apart_of_ofs (f := f) (by omega) (by have hlow := hx.2; omega)
  refine Cipher.called_of_pushed hesp hmem hframe.chars (hframe.length ▸ hv) (fun x hx ↦ ?_)
    (hgiven.keyText.congr fun x hx ↦ ?_) hgiven.keyLen fun x hx ↦ hapart x (hgiven.keyApart x hx).1
  · exact hapart x (hgiven.bufferApart x (hframe.length ▸ hx))
  · obtain ⟨⟨habove, -⟩, hb⟩ := hgiven.keyApart x hx
    exact hframe.kept x (by omega) (by omega) hb

omit hgiven in
theorem kept_cipher {g s v addr : UInt32} {m' : Machine} (hbelow : 1084 ≤ below) (hg : ofs g f = 36)
    (hframe : TextFrame f b last size text mem₁ mem) (hv : v.toNat ≤ size) (hesp : m.esp = g)
    (hmem : m.mem = pushed mem g [s, b, v, k, keyLen, 1])
    (hleft : Cipher.Left m b v r buffer' addr m') {x : UInt32} (hx : 8 ≤ ofs f x)
    (hlow : ofs f x + below < 2 ^ 32) (hchar : ofs f x ≠ 15) (hb : size ≤ ofs b x) :
    m'.mem x = mem₁ x := by
  have hapart : Apart g 24 1048 x := apart_of_ofs (f := f) (by omega) (by omega)
  have hpushed : pushed mem g [s, b, v, k, keyLen, 1] x = mem x := pushed_of_le hapart.1
  rw [hleft.kept x (hesp ▸ hapart) (hv.trans hb), hmem, hpushed, hframe.kept x hx hchar hb]

theorem ends_l73 {v : UInt32} (hbelow : 1084 ≤ below) (hv : v.toNat ≤ size) (hne : keyLen ≠ 0)
    (h : Decoded f b v size mem₁ text m)
    (hC : ∀ junk, Codec.cipher junk v key keyLen modeDecipher text = .ok (r, buffer'))
    (hQ : ∀ addr m', Returned m₀ addr m' → m'.eax = res → m'.mem.Chars b buffer' →
      (∀ x, Apart f 1108 below x → size ≤ ofs b x → m'.mem x = mem₁ x) → Q addr m' w) :
    (routine ext site).Ends (behind 73 code) m w Q := by
  obtain ⟨last, hframe⟩ := h.frame
  have hapart := hgiven.apart
  have hb := (hframe.kept.word hapart (d := 1092) (by decide) (by decide)).trans hgiven.bufferArg
  have hk := (hframe.kept.word hapart (d := 1100) (by decide) (by decide)).trans hgiven.keyArg
  have hkeyLen := (hframe.kept.word hapart (d := 1104) (by decide) (by decide)).trans
    hgiven.keyLenArg
  obtain ⟨g, hg⟩ : ∃ g, f = g + 36 := ⟨f - 36, by grind⟩
  have hofs : ofs g f = 36 := by rw [hg, ofs_add_self]; rfl
  have hcalled := fun s m' ↦ called_cipher (m := m') (s := s) hgiven hbelow hofs hframe hv
  -- behind the call the saved registers and the result are still there
  have hback : ∀ s m' addr m₂, m'.esp = g → m'.mem = pushed m.mem g [s, b, v, k, keyLen, 1] →
      Cipher.Left m' b v r buffer' addr m₂ →
      (routine ext site).Ends (l73Back ++ .label 71 :: behind 71 code) m₂ w Q :=
    fun s m' addr m₂ hesp hmem hleft ↦ by
      have hkept := fun x ↦ kept_cipher (x := x) hbelow hofs hframe hv hesp hmem hleft
      have hesp₂ : m₂.esp + 32 = f := by rw [hleft.esp, hesp, hg, UInt32.add_assoc]; rfl
      obtain ⟨hsaved, hres⟩ := hgiven.saved_and_res m₂.mem fun x hx hx' hx'' ↦
        hkept x hx (by have hroom := hgiven.room; omega) hx'' (Nat.not_lt.mp fun hlt ↦ by
          have habove := hapart x hlt
          omega)
      simp [l73Back, hesp₂]
      refine ends_l71 rfl hsaved hres fun addr' m₃ hreturned heax hmem₃ ↦
        hQ addr' m₃ hreturned heax ?_
        fun x hx hb ↦ ?_
      · rw [hmem₃]
        exact hleft.text
      · have habove := hx.1
        rw [hmem₃]
        exact hkept x (by omega) hx.2 (by omega) hb
  rw [hg] at hb hk hkeyLen
  simp [UInt32.add_assoc] at hb hk hkeyLen
  change (routine ext site).Ends (l73Call ++ (l73Back ++ .label 71 :: behind 71 code)) _ _ _
  simp [l73Call, h.esp, h.ebx, hg, add_sub_eq, UInt32.add_assoc, word_setWord_of_ofs, hb, hk,
    hkeyLen]
  refine Cipher.ends_call_cipher (fun _ _ ↦ rfl) (fun s ↦ hcalled s _ ?_ ?_) hne hC
    fun s addr m₂ hleft ↦ hback s _ addr m₂ ?_ ?_ hleft
  · simp
  · simp [pushed, UInt32.add_assoc]
  · simp
  · simp [pushed, UInt32.add_assoc]

end Given

/-! ## What has been received -/

variable {len' : ℕ} {left left' text₁ text₂ : List CChar}

theorem ends_entryBack (hesp : m.esp + 16 = f) (heax : m.eax = res) (hebx : m.ebx = bufferLen)
    (hesi : m.esi = f + 32) (hmem : m.mem.setWord (f + 8) res = mem₁)
    (hc : mem₁ (f + 32) = c.toUInt8)
    (hfail : res ≠ 0 → ∀ m', m'.esp = f → m'.mem = mem₁ →
      (routine ext site).Ends (behind 71 code) m' w Q)
    (hempty : res = 0 → bufferLen = 0 → ∀ m', m'.esp = f → m'.ebx = 0 → m'.mem = mem₁ →
      (routine ext site).Ends (behind 73 code) m' w Q)
    (hmore : res = 0 → bufferLen ≠ 0 → ∀ m', ScanningText f bufferLen c mem₁ 0 m' →
      (routine ext site).Ends (if c = 0 then behind 74 code else behind 77 code) m' w Q) :
    (routine ext site).Ends (entryBack ++ .label 75 :: behind 75 code) m w Q := by
  have hesp' : m.esp + 24 = f + 8 := by rw [← hesp, UInt32.add_assoc]; rfl
  simp [entryBack, hesp, hesp', heax, hebx, hmem, hc, toUInt8_eq_zero_iff]
  by_cases hres : res = 0
  · rw [if_pos hres]
    by_cases hlen : bufferLen = 0
    · rw [if_pos hlen]
      exact hempty hres hlen _ rfl (hlen ▸ rfl) rfl
    · rw [if_neg hlen, ite_ends]
      exact hmore hres hlen _ ⟨rfl, rfl, rfl, rfl, hesi, rfl⟩
  · rw [if_neg hres]
    exact hfail hres _ rfl rfl

section Received

variable (hgiven : Given m₀ f b bufferLen k keyLen res buffer.length below key mem₁)
  (htmp : mem₁.Chars (f + 32) left) (hlength : left.length = 1024) (htext : mem₁.Chars b buffer)
include hgiven htmp hlength htext

theorem ends_scanned (hne : bufferLen ≠ 0) (hc : left[0]? = some c)
    (h : ScanningText f bufferLen c mem₁ 0 m) (hslen : slen left bufferLen.toNat = .ok len)
    (hclear : fmemset buffer 0 bufferLen = .ok text₁)
    (hdecode : decompress Arrays.apart (UInt32.ofNat len) (left, text₁) = .ok ((), (left', text₂)))
    (hnext : ∀ m', Decoded f b bufferLen buffer.length mem₁ text₂ m' →
      (routine ext site).Ends (behind 78 code) m' w Q) :
    (routine ext site).Ends (if c = 0 then behind 74 code else behind 77 code) m w Q := by
  have hdecoded : ∀ m', ScanningText f bufferLen c mem₁ len m' →
      (routine ext site).Ends (behind 74 code) m' w Q := fun m' h' ↦
    ends_l74 hgiven.apart htmp hlength hgiven.bufferArg hgiven.bufferLenArg htext rfl hne
      (le_of_slen hslen) (fun _ ↦ hc) h' hclear hdecode hnext
  obtain ⟨n, hn⟩ := exists_toNat_eq_succ hne
  rw [hn] at hslen
  obtain ⟨d, cs, rfl, hcases⟩ := of_slen_succ hslen
  obtain rfl : d = c := Option.some.inj hc
  rcases hcases with ⟨rfl, rfl⟩ | ⟨hd, len', hrest, rfl⟩
  · rw [if_pos rfl]
    exact hdecoded m h
  · rw [if_neg hd]
    refine ends_slen (P := ScanningText f bufferLen d mem₁) (D := ScanningText f bufferLen d mem₁)
      (ends_l77 htmp) (i := 0) (n := n) (by omega) h hrest fun m' h' ↦ hdecoded m' ?_
    rwa [Nat.zero_add, Nat.add_comm] at h'

theorem ends_received (hbelow : 1084 ≤ below) (hne : keyLen ≠ 0) (hesp : m.esp + 16 = f)
    (heax : m.eax = res) (hebx : m.ebx = bufferLen) (hesi : m.esi = f + 32)
    (hmem : m.mem.setWord (f + 8) res = mem₁) (hres : res = 0)
    (hslen : slen left bufferLen.toNat = .ok len) (hclear : fmemset buffer 0 bufferLen = .ok text₁)
    (hdecode : decompress Arrays.apart (UInt32.ofNat len) (left, text₁) = .ok ((), (left', text₂)))
    (hslen' : slen text₂ bufferLen.toNat = .ok len')
    (hC : ∀ junk, Codec.cipher junk (UInt32.ofNat len') key keyLen modeDecipher text₂
      = .ok (r, buffer'))
    (hQ : ∀ addr m', Returned m₀ addr m' → m'.eax = res → m'.mem.Chars b buffer' →
      (∀ x, Apart f 1108 below x → buffer.length ≤ ofs b x → m'.mem x = mem₁ x) → Q addr m' w) :
    (routine ext site).Ends (entryBack ++ .label 75 :: behind 75 code) m w Q := by
  have hframe : TextFrame f b (mem₁.word (f + 4)) buffer.length buffer mem₁ mem₁ :=
    ⟨rfl, htext, rfl, fun _ _ _ _ ↦ rfl⟩
  have hc := List.getElem?_eq_getElem (hlength ▸ Nat.zero_lt_succ 1023 : 0 < left.length)
  have hbyte : mem₁ (f + 32) = left[0].toUInt8 := by simpa using htmp 0 _ hc
  refine ends_entryBack hesp heax hebx hesi hmem hbyte (absurd hres)
    (fun _ hzero m' hesp' hebx' hmem' ↦ ?_)
    fun _ hlen m' h' ↦ ?_
  · -- a buffer of length zero: nothing is scanned, cleared or decoded
    subst hzero
    rw [UInt32.toNat_zero, slen] at hslen hslen'
    obtain rfl : 0 = len := Except.ok.inj hslen
    obtain rfl : 0 = len' := Except.ok.inj hslen'
    obtain ⟨-, rfl⟩ := of_fmemset hclear
    obtain ⟨p', hpush⟩ := of_decompressFrom_zero hdecode
    obtain ⟨-, hend⟩ := of_pushDecompressed_of_le (Nat.zero_le 1) hpush
    obtain ⟨-, rfl⟩ := Prod.mk.inj hend
    exact ends_l73 hgiven hbelow (Nat.zero_le _) hne ⟨hesp', hebx', mem₁.word (f + 4),
      by rw [hmem']; exact hframe⟩ hC hQ
  · refine ends_scanned hgiven htmp hlength htext hlen hc h' hslen hclear hdecode fun m₁ h₁ ↦
      ends_l78 hgiven.apart hgiven.bufferArg hlen h₁ hslen' fun m₂ h₂ ↦
        ends_l73 hgiven hbelow ?_ hne h₂ hC hQ
    obtain ⟨last, hframe₂⟩ := h₂.frame
    rw [UInt32.toNat_ofNat']
    exact (Nat.mod_le _ _).trans ((le_of_slen hslen').trans_eq hframe₂.length)

end Received

/-! ## The call of `paste_from_clipboard` -/

variable {id a : UInt32} {junk : Local}
  {pasteFromClipboard : UInt32 → List CChar → UInt32 → τ → (UInt32 × Local × UInt32) × τ}

theorem calls_pasteFromClipboard (site : ℕ → UInt32) (id s : UInt32) (m : Machine) {g : UInt32}
    (hext : IsPasteFromClipboard ext depth pasteFromClipboard) (hdepth : depth + 20 ≤ below)
    (hroom : 1108 + below ≤ 2 ^ 32) (htmp : mem.Chars (f + 32) junk.val)
    (hlen : mem.word (f + 28) = bufferLen) (hg : ofs g f = 20) (hesp : m.esp = g)
    (hmem : m.mem = pushed mem g [s, id, f + 32, f + 28]) :
    (routine ext site).Calls .pasteFromClipboard m w fun addr m' w' ↦ Returned m addr m' ∧
      ∃ left n, pasteFromClipboard id junk.val bufferLen w = ((m'.eax, left, n), w') ∧
        m'.mem.Chars (f + 32) left.val ∧ ∀ x, Apart f 1056 below x → m'.mem x = mem x := by
  have hword : ∀ {i v}, [s, id, f + 32, f + 28][i]? = some v →
      m.mem.word (m.esp + UInt32.ofNat (4 * i)) = v := fun {i v} hv ↦ by
    rw [hmem, hesp]
    exact word_pushed (by simp) hv
  have hidArg : m.mem.word (m.esp + 4) = id := hword (i := 1) rfl
  have htmpArg : m.mem.word (m.esp + 8) = f + 32 := hword (i := 2) rfl
  have hlenArg : m.mem.word (m.esp + 12) = f + 28 := hword (i := 3) rfl
  have hpushed : ∀ x, Apart g 16 depth x → m.mem x = mem x := fun x hx ↦ by
    rw [hmem]
    exact pushed_of_le hx.1
  have hapart : ∀ x, ofs (f + 32) x < 1024 → Apart g 16 depth x := fun x hx ↦ by
    have hcases := ofs_eq f (f + 32) x
    simp at hcases
    exact apart_of_ofs (f := f) (by omega) (by omega)
  -- the length lies below the text, so that storing it does not touch the text
  have hapart' : ∀ x, ofs (f + 28) x < 4 → Apart g 16 depth x ∧ 1024 ≤ ofs (f + 32) x :=
    fun x hx ↦ by
    have hcases := ofs_eq f (f + 28) x
    have hcases' := ofs_eq f (f + 32) x
    simp at hcases hcases'
    exact ⟨apart_of_ofs (f := f) (by omega) (by omega), by omega⟩
  have htmp' : m.mem.Chars (f + 32) junk.val := htmp.congr fun x hx ↦
    hpushed x (hapart x (hx.trans_eq junk.property))
  have hlen' : m.mem.word (f + 28) = bufferLen :=
    (word_congr fun x hx ↦ hpushed x (hapart' x hx).1).trans hlen
  obtain ⟨n, addr, m', w', hcall, hreturned, left, len, hpaste, hleft, hkept⟩ := hext m w junk.val
    (by rwa [htmpArg]) junk.property (by rwa [htmpArg, hesp]) (by rwa [htmpArg, hlenArg, hesp])
  rw [hidArg, hlenArg, hlen'] at hpaste
  rw [htmpArg] at hleft
  refine ⟨n, addr, m', w', hcall, hreturned, left, len, hpaste, hleft, fun x hx ↦ ?_⟩
  obtain ⟨habove, hlow⟩ := hx
  have hx' : Apart g 16 depth x := apart_of_ofs (f := f) (by omega) (by omega)
  have hcases := ofs_eq f (f + 32) x
  have hcases' := ofs_eq f (f + 28) x
  simp at hcases hcases'
  rw [hkept x (hesp ▸ hx') (by rw [htmpArg]; change 1024 ≤ _; omega) (by rw [hlenArg]; omega),
    hpushed x hx']

/-! ## Calls -/

/-- A call of `paste_safely`: the arguments are on the stack, what they point to is apart from it,
and where the array of the function is there are these bytes. -/
structure Called (m : Machine) (id b bufferLen k keyLen : UInt32) (below : ℕ)
    (buffer key : List CChar) (tmp : Local) : Prop where
  room : 1108 + below ≤ 2 ^ 32
  idArg : m.mem.word (m.esp + 4) = id
  bufferArg : m.mem.word (m.esp + 8) = b
  bufferLenArg : m.mem.word (m.esp + 12) = bufferLen
  keyArg : m.mem.word (m.esp + 16) = k
  keyLenArg : m.mem.word (m.esp + 20) = keyLen
  text : m.mem.Chars b buffer
  textApart : ∀ x, ofs b x < buffer.length → Apart m.esp 24 (1084 + below) x
  keyText : m.mem.Chars k key
  keyLen : key.length = keyLen.toNat
  keyApart : ∀ x, ofs k x < key.length → Apart m.esp 24 (1084 + below) x ∧ buffer.length ≤ ofs b x
  array : m.mem.Chars (m.esp - 1052) tmp.val

/-- What a call of `paste_safely` leaves: its result, the buffer, and all that is apart from it and
from the stack. -/
structure Left (m₀ : Machine) (b res : UInt32) (size below : ℕ) (buffer : List CChar)
    (addr : UInt32)
    (m : Machine) : Prop extends Returned m₀ addr m where
  eax : m.eax = res
  text : m.mem.Chars b buffer
  kept : ∀ x, Apart m₀.esp 24 (1084 + below) x → size ≤ ofs b x → m.mem x = m₀.mem x

section Called

variable (h : Called m id b bufferLen k keyLen below buffer key junk) (hesp : m.esp = f + 1084)

theorem apart_of_apart {x : UInt32} (hesp : m.esp = f + 1084)
    (hx : Apart m.esp 24 (1084 + below) x) :
    Apart f 1108 below x := by
  have hofs : ofs f m.esp = 1084 := by rw [hesp, ofs_add_self]; rfl
  have hcases := ofs_eq f m.esp x
  obtain ⟨habove, hlow⟩ := hx
  exact ⟨by omega, by omega⟩

theorem saving_of_apart {x : UInt32} (hx : Apart f 1108 below x) :
    saving m (f + 1068) x = m.mem x := by
  have hcases := ofs_eq f (f + 1068) x
  have habove := hx.1
  simp at hcases
  exact saving_of_le (by omega)

theorem setWord_of_apart {x : UInt32}
    (hkept : ∀ x, Apart f 1056 below x → mem x = saving m (f + 1068) x)
    (hx : Apart f 1108 below x) : mem.setWord (f + 8) res x = m.mem x := by
  have hcases := ofs_eq f (f + 8) x
  have habove := hx.1
  simp at hcases
  rw [setWord_of_le (by omega), hkept x (hx.mono (by omega) le_rfl), saving_of_apart hx]

include h hesp in
theorem Called.given (hkept : ∀ x, Apart f 1056 below x → mem x = saving m (f + 1068) x)
    (res : UInt32) :
    Given m f b bufferLen k keyLen res buffer.length below key (mem.setWord (f + 8) res) := by
  have hroom := h.room
  have hesp' : m.esp = f + 1068 + 16 := by rw [hesp, UInt32.add_assoc]; rfl
  have hsame : ∀ x, Apart f 1056 below x → mem.setWord (f + 8) res x = saving m (f + 1068) x :=
    fun x hx ↦ by
      have hcases := ofs_eq f (f + 8) x
      have habove := hx.1
      simp at hcases
      rw [setWord_of_le (by omega), hkept x hx]
  have hword : ∀ d : UInt32, d.toNat ≤ 20 →
      (mem.setWord (f + 8) res).word (f + (1084 + d)) = m.mem.word (m.esp + d) := fun d hd ↦ by
    have hword := word_saving hesp' (d := d) (by omega)
    rw [UInt32.add_assoc, UInt32.add_assoc, ← UInt32.add_assoc 1068] at hword
    refine (word_congr fun x hx ↦ hsame x ?_).trans hword
    have hofs : ofs f (f + (1084 + d)) = 1084 + d.toNat := by
      rw [ofs_add_self, UInt32.toNat_add, Nat.mod_eq_of_lt]
      · rfl
      · change 1084 + d.toNat < 2 ^ 32
        omega
    have hcases := ofs_eq f (f + (1084 + d)) x
    exact ⟨by omega, by omega⟩
  have hsaved : Saved m (f + 1068) (mem.setWord (f + 8) res) :=
    (saved_saving hesp').congr fun x hx ↦ hsame x (by
      have hcases := ofs_eq f (f + 1068) x
      simp at hcases
      exact ⟨by omega, by omega⟩)
  have hkey := fun x hx ↦ apart_of_apart hesp (h.keyApart x hx).1
  exact ⟨hroom, hsaved, word_setWord_self, (hword 8 (by decide)).trans h.bufferArg,
    (hword 12 (by decide)).trans h.bufferLenArg, (hword 16 (by decide)).trans h.keyArg,
    (hword 20 (by decide)).trans h.keyLenArg, fun x hx ↦ apart_of_apart hesp (h.textApart x hx),
    h.keyText.congr fun x hx ↦ setWord_of_apart hkept (hkey x hx),
    fun x hx ↦ ⟨hkey x hx, (h.keyApart x hx).2⟩,
    h.keyLen⟩

end Called

theorem Called.textFrame (h : Called m id b bufferLen k keyLen below buffer key junk)
    (hesp : m.esp = f + 1084) :
    ((saving m (f + 1068)).setWord (f + 28) bufferLen).Chars (f + 32) junk.val := by
  have harray := h.array
  have haddr : m.esp - 1052 = f + 32 := by rw [hesp, add_sub_eq]; rfl
  have hofs : ∀ x, ofs (f + 32) x < junk.val.length → 32 ≤ ofs f x ∧ ofs f x < 1056 := fun x hx ↦ by
    have hcases := ofs_eq f (f + 32) x
    have hx : ofs (f + 32) x < 1024 := hx.trans_eq junk.property
    have hlt := ofs_lt f x
    simp at hcases
    omega
  rw [haddr] at harray
  refine (chars_saving harray fun x hx ↦ ?_).setWord_of_le fun x hx ↦ ?_
  · have hcases := hofs x hx
    exact I386.le_ofs (f := f) (by simp; omega)
  · have hcases := hofs x hx
    exact I386.le_ofs (f := f) (by simp; omega)

theorem ends_entry (hext : IsPasteFromClipboard ext depth pasteFromClipboard)
    (hdepth : depth + 20 ≤ below) (h : Called m id b bufferLen k keyLen below buffer key junk)
    (hesp : m.esp = f + 1084)
    (hnext : ∀ (left : Local) n w' m', m'.esp + 16 = f → m'.ebx = bufferLen → m'.esi = f + 32 →
      pasteFromClipboard id junk.val bufferLen w = ((m'.eax, left, n), w') →
      m'.mem.Chars (f + 32) left.val →
      (∀ x, Apart f 1056 below x → m'.mem x = saving m (f + 1068) x) →
      (routine ext site).Ends (entryBack ++ .label 75 :: behind 75 code) m' w' Q) :
    (routine ext site).Ends code m w Q := by
  obtain ⟨g, hg⟩ : ∃ g, f = g + 20 := ⟨f - 20, by grind⟩
  have hofs : ofs g f = 20 := by rw [hg, ofs_add_self]; rfl
  have hsaving : saving m (g + 1088) = (((m.mem.setWord (g + 1100) m.ebp).setWord (g + 1096)
      m.edi).setWord (g + 1092) m.esi).setWord (g + 1088) m.ebx := by
    simp [saving, UInt32.add_assoc]
  have hesp' : m.esp = g + 1104 := by rw [hesp, hg, UInt32.add_assoc]; rfl
  have hword : ∀ d : UInt32, d.toNat < 1024 →
      (saving m (g + 1088)).word (g + (1104 + d)) = m.mem.word (m.esp + d) := fun d hd ↦ by
    have hword := word_saving (m := m) (s := g + 1088) (by rw [hesp', UInt32.add_assoc]; rfl) hd
    rw [UInt32.add_assoc, UInt32.add_assoc, ← UInt32.add_assoc 1088] at hword
    exact hword
  have hid := (hword 4 (by decide)).trans h.idArg
  have hlen := (hword 12 (by decide)).trans h.bufferLenArg
  simp at hid hlen
  have hcalls := fun s m' ↦ calls_pasteFromClipboard (w := w) site id s m' hext hdepth h.room
    (h.textFrame hesp) word_setWord_self hofs
  rw [hg] at hcalls hnext
  simp only [UInt32.add_assoc, UInt32.reduceAdd] at hcalls hnext
  change (routine ext site).Ends (entryCall ++ (entryBack ++ .label 75 :: behind 75 code)) _ _ _
  simp [entryCall, hesp', add_sub_eq, UInt32.add_assoc, ← hsaving, hlen, hid, word_setWord_of_ofs]
  refine Routine.ends_call_of_returned_at fun s ↦ (hcalls s _ ?_ ?_).imp fun addr m' w' hback ↦
    ⟨hback.1, ?_⟩
  · simp
  · simp [pushed, UInt32.add_assoc]
  · obtain ⟨hreturned, left, n, hpaste, hleft, hkept⟩ := hback
    refine hnext left n w' m' ?_ hreturned.ebx hreturned.esi hpaste hleft fun x hx ↦ ?_
    · rw [hreturned.esp]
      simp [UInt32.add_assoc]
    · have hcases := ofs_eq (g + 20) (g + 48) x
      have habove := hx.1
      simp at hcases
      rw [hkept x hx, setWord_of_le (by omega)]

/-- A `paste_from_clipboard` that always returns. -/
def returning (pasteFromClipboard : UInt32 → List CChar → UInt32 → τ →
    (UInt32 × Local × UInt32) × τ) :
    UInt32 → List CChar → UInt32 → StateT τ (Except Fault) (UInt32 × List CChar × UInt32) :=
  fun id bytes n w ↦
    let ((res, left, n), w) := pasteFromClipboard id bytes n w
    .ok ((res, left.val, n), w)

/-- **The assembler's `paste_safely` is the one in C**: where that returns, it returns the same
value and leaves the same bytes in the buffer. -/
theorem pasteSafely_refines (hext : IsPasteFromClipboard ext depth pasteFromClipboard)
    (hbelow : 1084 + depth ≤ below) (h : Called m id b bufferLen k keyLen below buffer key junk)
    (hne : keyLen ≠ 0) {norm : Local} {w' : τ}
    (hC : pasteSafely (returning pasteFromClipboard) junk norm id buffer bufferLen key keyLen w
      = .ok ((res, buffer'), w')) :
    (routine ext site).Ends code m w fun addr m' w'' ↦
      Left m b res buffer.length below buffer' addr m' ∧ w'' = w' := by
  obtain ⟨f, hesp⟩ : ∃ f, m.esp = f + 1084 := ⟨m.esp - 1084, by grind⟩
  obtain ⟨bytes, len, hpaste, hcases⟩ := of_pasteSafely hC
  refine ends_entry hext (by omega) h hesp fun left n w₁ m₁ hesp₁ hebx hesi hpaste₁ hleft hkept ↦ ?_
  rw [returning, hpaste₁] at hpaste
  obtain ⟨hpair, rfl⟩ := Prod.mk.inj (Except.ok.inj hpaste)
  obtain ⟨heax, hpair⟩ := Prod.mk.inj hpair
  obtain ⟨rfl, rfl⟩ := Prod.mk.inj hpair
  have hgiven := h.given hesp hkept res
  have hroom := h.room
  -- beside the text, and in the buffer, the memory is what it was before the call
  have hleft' : (m₁.mem.setWord (f + 8) res).Chars (f + 32) left.val :=
    hleft.setWord_of_le fun x hx ↦ by
      have hx : ofs (f + 32) x < 1024 := hx.trans_eq left.property
      have hcases := ofs_eq f (f + 32) x
      simp at hcases
      exact I386.le_ofs (f := f) (by simp; omega)
  have htext : (m₁.mem.setWord (f + 8) res).Chars b buffer :=
    h.text.congr fun x hx ↦ setWord_of_apart hkept (apart_of_apart hesp (h.textApart x hx))
  have hend : ∀ addr m', Returned m addr m' → m'.eax = res → m'.mem.Chars b buffer' →
      (∀ x, Apart f 1108 below x → buffer.length ≤ ofs b x →
        m'.mem x = m₁.mem.setWord (f + 8) res x) →
      Left m b res buffer.length below buffer' addr m' ∧ w₁ = w₁ :=
    fun addr m' hreturned heax' htext' hkept' ↦ ⟨⟨hreturned, heax', htext', fun x hx hb ↦ by
      have hx' := apart_of_apart hesp hx
      rw [hkept' x hx' hb, setWord_of_apart hkept hx']⟩, rfl⟩
  rcases hcases with ⟨hres, rfl⟩ | ⟨hres, len, text₁, left', text₂, len', r, hslen, hclear, hdecode,
    hslen', hcipher⟩
  · -- a failed paste leaves the buffer alone
    have hlength : 0 < left.val.length := (Nat.zero_lt_succ 1023).trans_eq left.property.symm
    have hc := List.getElem?_eq_getElem hlength
    have hbyte : m₁.mem.setWord (f + 8) res (f + 32) = left.val[0].toUInt8 := by
      simpa using hleft' 0 _ hc
    refine ends_entryBack hesp₁ heax hebx hesi rfl hbyte (fun _ m' hesp' hmem' ↦ ?_)
      (fun hzero ↦ absurd hzero hres) fun hzero ↦ absurd hzero hres
    refine ends_l71 hesp' (hmem' ▸ hgiven.saved) (hmem' ▸ hgiven.res)
      fun addr m₂ hreturned heax' hmem₂ ↦ hend addr m₂ hreturned heax' ?_ fun x _ _ ↦ ?_
    · rwa [hmem₂, hmem']
    · rw [hmem₂, hmem']
  · have hword : (UInt32.ofNat len').toNat ≤ text₂.length :=
      UInt32.toNat_ofNat' ▸ (Nat.mod_le _ _).trans (le_of_slen hslen')
    -- the array of `cipher` in C holds other bytes at first, to no effect
    obtain ⟨r', buffer₁, -, hC'⟩ := exists_cipher hne h.keyLen hword modeDecipher
    obtain ⟨rfl, rfl⟩ := Prod.mk.inj (Except.ok.inj ((hC' norm).symm.trans hcipher))
    exact ends_received hgiven hleft' left.property htext (by omega)
      hne hesp₁ heax hebx hesi rfl hres
      hslen hclear hdecode hslen' hC' hend

end PasteSafely

end Asm

end MinixClipboard
