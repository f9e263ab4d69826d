import MinixClipboard.Asm.CopyEncode
import MinixClipboard.Codec.Encoder

/-!
# The assembler's `copy_safely`

The external `copy_to_clipboard` is any code that keeps the conventions of C and does what a given
function does; it may use `depth` bytes of the stack. What `copy_safely` needs of the stack below
its frame is what `cipher` needs, or this.
-/

namespace MinixClipboard

namespace Asm

namespace CopySafely

open I386 Mem Routine Codec Fallible

/-- The code `ext` is a `copy_to_clipboard` that does what the function does: called with the
address of bytes and their number, it hands them over, and changes nothing apart from the stack. -/
def IsCopyToClipboard {τ : Type} (ext : Callees Unit τ) (depth : ℕ)
    (copyToClipboard : List CChar → UInt32 → τ → Int32 × τ) : Prop :=
  ∀ m w bytes, m.mem.Chars (m.mem.word (m.esp + 4)) bytes → bytes.length = maxSize →
    (∀ x, ofs (m.mem.word (m.esp + 4)) x < maxSize → Apart m.esp 12 depth x) →
    ext.Calls () m w fun addr m' w' ↦ Returned m addr m' ∧
      copyToClipboard bytes (m.mem.word (m.esp + 8)) w = (m'.eax.toInt32, w') ∧
      ∀ x, Apart m.esp 12 depth x → m'.mem x = m.mem x

/-! ## What is kept -/

/-- Nothing is stored above the text, nor below the `below` bytes under the frame. -/
def Kept (f : UInt32) (below : ℕ) (mem₁ mem : Mem) : Prop :=
  ∀ x, Apart f 1056 below x → mem x = mem₁ x

variable {f a b k len keyLen last size : UInt32} {below depth : ℕ} {mem mem' mem₁ : Mem}
  {m m₀ : Machine}
  {text text₁ text' buffer key tmp l : List CChar}

theorem TextFrame.keptBelow (h : TextFrame f last text mem₁ mem) (below : ℕ) :
    Kept f below mem₁ mem :=
  fun x hx ↦ h.kept x hx.1

theorem Kept.trans (h : Kept f below mem₁ mem) (h' : Kept f below mem mem') :
    Kept f below mem₁ mem' :=
  fun x hx ↦ (h' x hx).trans (h x hx)

theorem Kept.saved (h : Kept f below mem₁ mem) (hroom : 1104 + below ≤ 2 ^ 32)
    (hsaved : Saved m₀ (f + 1068) mem₁) : Saved m₀ (f + 1068) mem :=
  hsaved.congr fun x hx ↦ h x (by
    have hcases := ofs_eq f (f + 1068) x
    simp at hcases
    exact ⟨by omega, by omega⟩)

/-- What `copy_safely` has been given, as long as it is kept: the saved registers, the arguments and
what they point to. -/
structure Given (m₀ : Machine) (f b a k len keyLen : UInt32) (below : ℕ) (buffer key : List CChar)
    (mem : Mem) : Prop where
  room : 1104 + below ≤ 2 ^ 32
  saved : Saved m₀ (f + 1068) mem
  bufferArg : mem.word (f + 1088) = b
  bufferLenArg : mem.word (f + 1092) = a
  keyArg : mem.word (f + 1096) = k
  keyLenArg : mem.word (f + 1100) = keyLen
  bufferLen : mem.word a = len
  bufferLenApart : ∀ x, ofs a x < 4 → Apart f 1104 below x
  text : mem.Chars b buffer
  textApart : ∀ x, ofs b x < buffer.length → Apart f 1104 below x
  keyText : mem.Chars k key
  keyApart : ∀ x, ofs k x < key.length → Apart f 1104 below x
  keyLen : key.length = keyLen.toNat

theorem Given.kept (h : Given m₀ f b a k len keyLen below buffer key mem₁)
    (hkept : Kept f below mem₁ mem) : Given m₀ f b a k len keyLen below buffer key mem := by
  have hroom := h.room
  have hapart : ∀ x, Apart f 1104 below x → mem x = mem₁ x := fun x hx ↦
    hkept x (hx.mono (by omega) le_rfl)
  have hword : ∀ d : UInt32, 1088 ≤ d.toNat → d.toNat < 1101 →
      mem.word (f + d) = mem₁.word (f + d) :=
    fun d hd hd' ↦ word_congr fun x hx ↦ by
      have hcases := ofs_eq f (f + d) x
      rw [ofs_add_self] at hcases
      exact hkept x ⟨by omega, by omega⟩
  exact ⟨hroom, hkept.saved hroom h.saved, (hword 1088 (by decide) (by decide)).trans h.bufferArg,
    (hword 1092 (by decide) (by decide)).trans h.bufferLenArg,
    (hword 1096 (by decide) (by decide)).trans h.keyArg,
    (hword 1100 (by decide) (by decide)).trans h.keyLenArg,
    (word_congr fun x hx ↦ hapart x (h.bufferLenApart x hx)).trans h.bufferLen, h.bufferLenApart,
    h.text.congr fun x hx ↦ hapart x (h.textApart x hx), h.textApart,
    h.keyText.congr fun x hx ↦ hapart x (h.keyApart x hx), h.keyApart, h.keyLen⟩

/-! ## Copying the buffer -/

variable {τ : Type} {ext : Callees Unit τ} {site : ℕ → UInt32} {w : τ}
  {Q : UInt32 → Machine → τ → Prop}

/-- The machine before a character of the buffer is copied. -/
structure Copying (f b last : UInt32) (i : ℕ) (len : UInt32) (buffer tmp : List CChar) (mem₁ : Mem)
    (m : Machine) : Prop where
  esp : m.esp = f
  eax : m.eax = UInt32.ofNat i
  ebx : m.ebx = b
  ecx : m.ecx = len
  frame : TextFrame f last (buffer.take i ++ tmp.drop i) mem₁ m.mem

/-- The machine when the buffer is copied. -/
structure Copied (f last len : UInt32) (text : List CChar) (mem₁ : Mem) (m : Machine) : Prop where
  esp : m.esp = f
  ecx : m.ecx = len
  frame : TextFrame f last text mem₁ m.mem

section Copy

variable (hgiven : Given m₀ f b a k len keyLen below buffer key mem₁)
  (hlen : len.toNat ≤ buffer.length) (hsize : len.toNat ≤ 1024) (htmp : tmp.length = 1024)
include hgiven hlen hsize htmp

theorem ends_l38 {i : ℕ} (h : Copying f b last i len buffer tmp mem₁ m) (hi : i < len.toNat)
    (hmore : i + 1 ≠ len.toNat → ∀ m', Copying f b last (i + 1) len buffer tmp mem₁ m' →
      (routine ext site).Ends (behind 38 code) m' w Q)
    (hdone : i + 1 = len.toNat → ∀ m', Copied f last len
      (buffer.take len.toNat ++ tmp.drop len.toNat) mem₁ m' →
      (routine ext site).Ends (behind 41 code) m' w Q) :
    (routine ext site).Ends (behind 38 code) m w Q := by
  have hword : (UInt32.ofNat i).toNat = i := toNat_ofNat (by omega)
  have hc := List.getElem?_eq_getElem (hi.trans_le hlen)
  have hbyte : m.mem (b + UInt32.ofNat i) = buffer[i].toUInt8 :=
    (hgiven.kept (h.frame.keptBelow below)).text _ _ (by rw [hword]; exact hc)
  have hset := h.frame.setText (i := UInt32.ofNat i) (by omega) buffer[i]
  have hframe : TextFrame f last (buffer.take (i + 1) ++ tmp.drop (i + 1)) mem₁
      (m.mem.setByte (f + 32 + UInt32.ofNat i) buffer[i].toUInt8) :=
    ⟨hset.last, h.frame.chars.copy hc (by omega) (by omega), by simp; omega, hset.kept⟩
  change (routine ext site).Ends (l38 ++ .label 41 :: behind 41 code) _ _ _
  simp [l38, h.esp, h.eax, h.ebx, h.ecx, hbyte]
  rw [ofNat_add_one]
  by_cases hlast : i + 1 = len.toNat
  · rw [if_pos (by rw [hlast, UInt32.ofNat_toNat])]
    rw [hlast] at hframe
    exact hdone hlast _ ⟨rfl, rfl, hframe⟩
  · rw [if_neg fun heq ↦ hlast ?_]
    · exact hmore hlast _ ⟨rfl, rfl, rfl, rfl, hframe⟩
    · rw [heq, toNat_ofNat (by omega)]

theorem ends_copy {n i : ℕ} (h : Copying f b last i len buffer tmp mem₁ m)
    (hi : i + n + 1 = len.toNat)
    (hnext : ∀ m', Copied f last len (buffer.take len.toNat ++ tmp.drop len.toNat) mem₁ m' →
      (routine ext site).Ends (behind 41 code) m' w Q) :
    (routine ext site).Ends (behind 38 code) m w Q := by
  induction n generalizing i m with
  | zero =>
    exact ends_l38 hgiven hlen hsize htmp h (by omega) (fun hne ↦ absurd hi hne) fun _ ↦ hnext
  | succ n ih =>
    exact ends_l38 hgiven hlen hsize htmp h (by omega) (fun _ m' h' ↦ ih h' (by omega)) fun heq ↦ by
      omega

end Copy

/-! ## The call of `cipher` -/

variable {r : UInt32}

theorem ends_l41Back (hgiven : Given m₀ f b a k len keyLen below buffer key m.mem)
    (hesp : m.esp + 20 = f) (htext : m.mem.Chars (f + 32) text) (hlength : text.length = 1024)
    (hzero : len = 0 → ∀ m', Encoded f 0 m.mem text m' →
      (routine ext site).Ends (behind 40 code) m' w Q)
    (hmore : len ≠ 0 → ∀ m', Encoding f (f + 32 + len) 0 0 0 0 text m.mem m' →
      (routine ext site).Ends (behind 47 code) m' w Q) :
    (routine ext site).Ends (l41Back ++ .label 47 :: behind 47 code) m w Q := by
  have hframe : TextFrame f (m.mem.word (f + 4)) text m.mem m.mem :=
    ⟨rfl, htext, hlength, fun _ _ ↦ rfl⟩
  have hesp' : m.esp + 1112 = f + 1092 := by rw [← hesp, UInt32.add_assoc]; rfl
  simp [l41Back, hesp, hesp', hgiven.bufferLenArg, hgiven.bufferLen]
  split
  · rename_i hlen₀
    exact hzero hlen₀ _ ⟨rfl, hlen₀, _, hframe⟩
  · rename_i hlen₀
    exact hmore hlen₀ _ ⟨rfl, (UInt32.add_zero _).symm, rfl, rfl, rfl, hframe.setLast _⟩

section Cipher

variable (hgiven : Given m₀ f b a k len keyLen below buffer key mem₁)
  (hframe : TextFrame f last text mem₁ mem) (hsize : len.toNat ≤ 1024) (hbelow : 1072 ≤ below)
include hgiven hframe hsize hbelow

theorem called_cipher {g s : UInt32} (hg : ofs g f = 24) (hesp : m.esp = g)
    (hmem : m.mem = pushed mem g [s, f + 32, len, k, keyLen, 0]) :
    Cipher.Called m (f + 32) len k keyLen 0 text key := by
  have hgiven' := hgiven.kept (hframe.keptBelow below)
  have hroom := hgiven.room
  refine Cipher.called_of_pushed hesp hmem hframe.chars (hframe.length ▸ hsize) (fun x hx ↦ ?_)
    hgiven'.keyText hgiven.keyLen fun x hx ↦ apart_of_ofs hg.ge ?_
  · refine apart_of_ofs hg.ge ?_
    have hcases := ofs_eq f (f + 32) x
    rw [hframe.length] at hx
    simp at hcases
    omega
  · have hfree := (hgiven.keyApart x hx).2
    omega

omit hgiven in
/-- What `cipher` leaves is what it was, above the text and below the stack it needs. -/
theorem kept_cipher {g s addr : UInt32} {m' : Machine} (hg : ofs g f = 24) (hesp : m.esp = g)
    (hmem : m.mem = pushed mem g [s, f + 32, len, k, keyLen, 0])
    (hleft : Cipher.Left m (f + 32) len r text' addr m') : Kept f below mem₁ m'.mem := fun x hx ↦ by
  obtain ⟨habove, hlow⟩ := hx
  have hapart : Apart g 24 1048 x := apart_of_ofs hg.ge (by omega)
  have hpushed : pushed mem g [s, f + 32, len, k, keyLen, 0] x = mem x := pushed_of_le hapart.1
  have hcases := ofs_eq f (f + 32) x
  simp at hcases
  rw [hleft.kept x (hesp ▸ hapart) (by omega), hmem, hpushed, hframe.kept x habove]

end Cipher

theorem ends_l41 (hgiven : Given m₀ f b a k len keyLen below buffer key mem₁)
    (h : Copied f last len text mem₁ m) (hne : keyLen ≠ 0) (hsize : len.toNat ≤ 1024)
    (hbelow : 1072 ≤ below)
    (hC : ∀ junk, Codec.cipher junk len key keyLen modeCipher text = .ok (r, text'))
    (hlength : text'.length = 1024)
    (hzero : len = 0 → ∀ mem₂ m', Kept f below mem₁ mem₂ → Encoded f 0 mem₂ text' m' →
      (routine ext site).Ends (behind 40 code) m' w Q)
    (hmore : len ≠ 0 → ∀ mem₂ m', Kept f below mem₁ mem₂ →
      Encoding f (f + 32 + len) 0 0 0 0 text' mem₂ m' →
      (routine ext site).Ends (behind 47 code) m' w Q) :
    (routine ext site).Ends (behind 41 code) m w Q := by
  have hgiven' := hgiven.kept (h.frame.keptBelow below)
  have hk := hgiven'.keyArg
  have hkeyLen := hgiven'.keyLenArg
  obtain ⟨g, hg⟩ : ∃ g, f = g + 24 := ⟨f - 24, by grind⟩
  have hofs : ofs g f = 24 := by rw [hg, ofs_add_self]; rfl
  have hcalled := fun s (m' : Machine) ↦
    called_cipher (m := m') (s := s) hgiven h.frame hsize hbelow hofs
  -- behind the call the text is enciphered, and the rest of the frame is as it was
  have hback : ∀ s m' addr m₂, m'.esp = g → m'.mem = pushed m.mem g [s, f + 32, len, k, keyLen, 0] →
      Cipher.Left m' (f + 32) len r text' addr m₂ → (routine ext site).Ends
        (l41Back ++ .label 47 :: behind 47 code) m₂ w Q := fun s m' addr m₂ hesp hmem hleft ↦ by
    have hkept := kept_cipher h.frame hsize hbelow hofs hesp hmem hleft
    refine ends_l41Back (hgiven.kept hkept) ?_ hleft.text hlength
      (fun hlen₀ m₃ ↦ hzero hlen₀ m₂.mem m₃ hkept) fun hlen₀ m₃ ↦ hmore hlen₀ m₂.mem m₃ hkept
    rw [hleft.esp, hesp, hg, UInt32.add_assoc]
    rfl
  rw [hg] at hk hkeyLen hcalled hback
  simp [UInt32.add_assoc] at hk hkeyLen hcalled hback
  change (routine ext site).Ends (l41Call ++ (l41Back ++ .label 47 :: behind 47 code)) _ _ _
  simp [l41Call, h.esp, h.ecx, hg, add_sub_eq, UInt32.add_assoc, word_setWord_of_ofs, hk, hkeyLen]
  refine Cipher.ends_call_cipher (fun _ _ ↦ rfl) (fun s ↦ hcalled s _ ?_ ?_) hne hC
    fun s addr m₂ hleft ↦ hback s _ addr m₂ ?_ ?_ hleft
  · simp
  · simp [pushed, UInt32.add_assoc]
  · simp
  · simp [pushed, UInt32.add_assoc]

/-! ## The call of `copy_to_clipboard` -/

variable {res : Int32} {w' : τ} {mem₂ : Mem}

/-- What a call of `copy_safely` leaves: the result, the length at `a`, and all else that is apart
from the stack. -/
structure Left (m₀ : Machine) (a size : UInt32) (below : ℕ) (res : Int32) (addr : UInt32)
    (m : Machine) : Prop extends Returned m₀ addr m where
  eax : m.eax = res.toUInt32
  bufferLen : m.mem.word a = size
  kept : ∀ x, Apart m₀.esp 20 (1084 + below) x → 4 ≤ ofs a x → m.mem x = m₀.mem x

theorem ends_l36 (hesp : m.esp = f) (hsaved : Saved m₀ (f + 1068) m.mem)
    (hQ : ∀ addr m', Returned m₀ addr m' → m'.eax = m.eax → m'.mem = m.mem → Q addr m' w) :
    (routine ext site).Ends (behind 36 code) m w Q := by
  change (routine ext site).Ends (leave 1068 ++ .label 70 :: behind 70 code) _ _ _
  exact hsaved.ends_leave (by rw [hesp]) hQ

theorem ends_l40Back (hgiven : Given m₀ f b a k len keyLen below buffer key m.mem)
    (hesp : m.esp + 16 = f) (hedi : m.edi = size)
    (hQ : ∀ addr m', Returned m₀ addr m' → m'.eax = m.eax → m'.mem = m.mem.setWord a size →
      Q addr m' w) :
    (routine ext site).Ends (l40Back ++ .label 36 :: behind 36 code) m w Q := by
  have hesp' : m.esp + 1108 = f + 1092 := by rw [← hesp, UInt32.add_assoc]; rfl
  have hroom := hgiven.room
  have hsaved : Saved m₀ (f + 1068) (m.mem.setWord a size) := hgiven.saved.congr fun x hx ↦
    setWord_of_le (Nat.not_lt.mp fun hax ↦ by
      have habove := (hgiven.bufferLenApart x hax).1
      have hcases := ofs_eq f (f + 1068) x
      simp at hcases
      omega)
  simp [l40Back, hesp, hesp', hgiven.bufferLenArg, hedi]
  exact ends_l36 rfl hsaved hQ

theorem calls_copyToClipboard (site : ℕ → UInt32) (size s : UInt32) (m : Machine) {g : UInt32}
    {copyToClipboard : List CChar → UInt32 → τ → Int32 × τ}
    (hext : IsCopyToClipboard ext depth copyToClipboard) (hdepth : depth + 20 ≤ below)
    (hroom : 1104 + below ≤ 2 ^ 32) (hframe : TextFrame f last text mem₁ mem) (hg : ofs g f = 20)
    (hesp : m.esp = g) (hmem : m.mem = pushed mem g [s, f + 32, size]) :
    (routine ext site).Calls .copyToClipboard m w fun addr m' w' ↦ Returned m addr m' ∧
      copyToClipboard text size w = (m'.eax.toInt32, w') ∧ Kept f below mem₁ m'.mem := by
  have hword : ∀ {i v}, [s, f + 32, size][i]? = some v →
      m.mem.word (m.esp + UInt32.ofNat (4 * i)) = v := fun {i v} hv ↦ by
    rw [hmem, hesp]
    exact word_pushed (by simp) hv
  have htextArg : m.mem.word (m.esp + 4) = f + 32 := hword (i := 1) rfl
  have hsizeArg : m.mem.word (m.esp + 8) = size := hword (i := 2) rfl
  have hapart : ∀ x, ofs (f + 32) x < 1024 → Apart g 12 depth x := fun x hx ↦ by
    have hcases := ofs_eq f (f + 32) x
    simp at hcases
    exact apart_of_ofs (f := f) (by omega) (by omega)
  have hpushed : ∀ x, Apart g 12 depth x → m.mem x = mem x := fun x hx ↦ by
    rw [hmem]
    exact pushed_of_le hx.1
  have htext : m.mem.Chars (f + 32) text := hframe.chars.congr fun x hx ↦
    hpushed x (hapart x (hframe.length ▸ hx))
  obtain ⟨n, addr, m', w', hcall, hreturned, hcopy, hkept⟩ := hext m w text
    (by rwa [htextArg]) hframe.length (by rwa [htextArg, hesp])
  rw [hsizeArg] at hcopy
  refine ⟨n, addr, m', w', hcall, hreturned, hcopy, fun x hx ↦ ?_⟩
  have hx' : Apart g 12 depth x := apart_of_ofs (f := f) (by omega) (by have hbelow := hx.2; omega)
  rw [hkept x (hesp ▸ hx'), hpushed x hx', hframe.kept x hx.1]

theorem ends_l40 {copyToClipboard : List CChar → UInt32 → τ → Int32 × τ}
    (hext : IsCopyToClipboard ext depth copyToClipboard) (hdepth : depth + 20 ≤ below)
    (hgiven : Given m₀ f b a k len keyLen below buffer key mem₂) (h : Encoded f size mem₂ text m)
    (hQ : ∀ addr m' mem' w', Returned m₀ addr m' → m'.mem = mem'.setWord a size →
      Kept f below mem₂ mem' → copyToClipboard text size w = (m'.eax.toInt32, w') → Q addr m' w') :
    (routine ext site).Ends (behind 40 code) m w Q := by
  obtain ⟨last, hframe⟩ := h.frame
  obtain ⟨g, hg⟩ : ∃ g, f = g + 20 := ⟨f - 20, by grind⟩
  have hofs : ofs g f = 20 := by rw [hg, ofs_add_self]; rfl
  have hcalls := fun s m' ↦ calls_copyToClipboard (w := w) site size s m' hext hdepth hgiven.room
    hframe hofs
  rw [hg] at hcalls
  change (routine ext site).Ends (l40Call ++ (l40Back ++ .label 36 :: behind 36 code)) _ _ _
  simp [l40Call, h.esp, h.edi, hg, add_sub_eq, UInt32.add_assoc]
  refine Routine.ends_call_of_returned_at fun s ↦ (hcalls s _ ?_ ?_).imp
    fun addr m' w' ⟨hreturned, hcopy, hkept⟩ ↦ ⟨hreturned, ?_⟩
  · simp
  · simp [pushed, UInt32.add_assoc]
  · refine ends_l40Back (hgiven.kept (hg ▸ hkept)) ?_ ?_ fun addr' m'' hreturned' heax hmem ↦
      hQ addr' m'' m'.mem w' hreturned' hmem (hg ▸ hkept) (heax ▸ hcopy)
    · rw [hreturned.esp, hg]
      simp [UInt32.add_assoc]
    · exact hreturned.edi

/-! ## Calls -/

/-- A call of `copy_safely`: the arguments are on the stack, what they point to is apart from it,
and where the array of the function is there are these bytes. -/
structure Called (m : Machine) (b a k len keyLen : UInt32) (below : ℕ) (buffer key : List CChar)
    (tmp : Local) : Prop where
  room : 1104 + below ≤ 2 ^ 32
  bufferArg : m.mem.word (m.esp + 4) = b
  bufferLenArg : m.mem.word (m.esp + 8) = a
  keyArg : m.mem.word (m.esp + 12) = k
  keyLenArg : m.mem.word (m.esp + 16) = keyLen
  bufferLen : m.mem.word a = len
  bufferLenApart : ∀ x, ofs a x < 4 → Apart m.esp 20 (1084 + below) x
  text : m.mem.Chars b buffer
  textApart : ∀ x, ofs b x < buffer.length → Apart m.esp 20 (1084 + below) x
  keyText : m.mem.Chars k key
  keyLen : key.length = keyLen.toNat
  keyApart : ∀ x, ofs k x < key.length → Apart m.esp 20 (1084 + below) x
  array : m.mem.Chars (m.esp - 1052) tmp.val

variable {junk : Local}

theorem Called.given (h : Called m b a k len keyLen below buffer key junk)
    (hesp : m.esp = f + 1084) :
    Given m f b a k len keyLen below buffer key (saving m (f + 1068)) := by
  have hroom := h.room
  have hesp' : m.esp = f + 1068 + 16 := by rw [hesp, UInt32.add_assoc]; rfl
  have hword : ∀ d : UInt32, d.toNat < 1024 →
      (saving m (f + 1068)).word (f + (1084 + d)) = m.mem.word (m.esp + d) := fun d hd ↦ by
    have hword := word_saving hesp' hd
    rw [UInt32.add_assoc, UInt32.add_assoc, ← UInt32.add_assoc 1068] at hword
    exact hword
  have hframe : ∀ x, Apart m.esp 20 (1084 + below) x → Apart f 1104 below x := fun x hx ↦ by
    have hofs : ofs f m.esp = 1084 := by rw [hesp, ofs_add_self]; rfl
    have hcases := ofs_eq f m.esp x
    obtain ⟨habove, hbelow⟩ := hx
    exact ⟨by omega, by omega⟩
  have hsaving : ∀ x, Apart f 1104 below x → 16 ≤ ofs (f + 1068) x := fun x hx ↦
    I386.le_ofs (f := f) (.inl (by rw [ofs_add_self]; have habove := hx.1; simp; omega))
  have hlen := fun x hx ↦ hframe x (h.bufferLenApart x hx)
  have htext := fun x hx ↦ hframe x (h.textApart x hx)
  have hkey := fun x hx ↦ hframe x (h.keyApart x hx)
  exact ⟨hroom, saved_saving hesp', (hword 4 (by decide)).trans h.bufferArg,
    (hword 8 (by decide)).trans h.bufferLenArg, (hword 12 (by decide)).trans h.keyArg,
    (hword 16 (by decide)).trans h.keyLenArg,
    (word_congr fun x hx ↦ saving_of_le (hsaving x (hlen x hx))).trans h.bufferLen, hlen,
    chars_saving h.text fun x hx ↦ hsaving x (htext x hx), htext,
    chars_saving h.keyText fun x hx ↦ hsaving x (hkey x hx), hkey, h.keyLen⟩

theorem ends_entry (hesp : m.esp = f + 1084)
    (hgiven : Given m f b a k len keyLen below buffer key (saving m (f + 1068)))
    (hlong : 1024 < len → ∀ m', m'.esp = f → m'.eax = -1 → m'.mem = saving m (f + 1068) →
      (routine ext site).Ends (behind 36 code) m' w Q)
    (hzero : len = 0 → ∀ m', m'.esp = f → m'.ecx = len → m'.mem = saving m (f + 1068) →
      (routine ext site).Ends (behind 41 code) m' w Q)
    (hmore : len ≤ 1024 → len ≠ 0 → ∀ m', m'.esp = f → m'.eax = 0 → m'.ebx = b → m'.ecx = len →
      m'.mem = saving m (f + 1068) → (routine ext site).Ends (behind 38 code) m' w Q) :
    (routine ext site).Ends code m w Q := by
  have hsaving : saving m (f + 1068) = (((m.mem.setWord (f + 1080) m.ebp).setWord (f + 1076)
      m.edi).setWord (f + 1072) m.esi).setWord (f + 1068) m.ebx := by
    simp [saving, UInt32.add_assoc]
  change (routine ext site).Ends (entry ++ .label 38 :: behind 38 code) _ _ _
  simp [entry, hesp, add_sub_eq, ← hsaving, hgiven.bufferLenArg, hgiven.bufferArg, hgiven.bufferLen]
  split
  · rename_i hlt
    change (routine ext site).Ends l51 _ _ _
    simp [l51]
    exact hlong hlt _ rfl rfl rfl
  rename_i hle
  split
  · rename_i hlen₀
    exact hzero hlen₀ _ rfl rfl rfl
  · rename_i hlen₀
    exact hmore (UInt32.not_lt.mp hle) hlen₀ _ rfl rfl rfl rfl rfl

section Handed

variable {copyToClipboard : List CChar → UInt32 → τ → Int32 × τ}
  (hext : IsCopyToClipboard ext depth copyToClipboard)
include hext

theorem ends_copied (hbelow : 1072 + depth ≤ below)
    (hgiven : Given m₀ f b a k len keyLen below buffer key mem₁) (h : Copied f last len text mem₁ m)
    (hne : keyLen ≠ 0) (hsize : len.toNat ≤ 1024)
    (hC : ∀ junk, Codec.cipher junk len key keyLen modeCipher text = .ok (r, text₁))
    (hlength : text₁.length = 1024)
    (hcompress : compress Arrays.inPlace len text₁ = .ok (size, text'))
    (hQ : ∀ addr m' mem' w', Returned m₀ addr m' → m'.mem = mem'.setWord a size →
      Kept f below mem₁ mem' → copyToClipboard text' size w = (m'.eax.toInt32, w') → Q addr m' w') :
    (routine ext site).Ends (behind 41 code) m w Q := by
  have hend : ∀ mem₂ m₂, Kept f below mem₁ mem₂ → Encoded f size mem₂ text' m₂ →
      (routine ext site).Ends (behind 40 code) m₂ w Q := fun mem₂ m₂ hkept h₂ ↦
    ends_l40 hext (by omega) (hgiven.kept hkept) h₂ fun addr m' mem' w' hreturned hmem hkept' ↦
      hQ addr m' mem' w' hreturned hmem (hkept.trans hkept')
  refine ends_l41 hgiven h hne hsize (by omega) hC hlength (fun hzero mem₂ m₂ hkept h₂ ↦ ?_)
    fun hmore mem₂ m₂ hkept h₂ ↦ ?_
  · rw [hzero] at hcompress
    obtain ⟨rfl, rfl⟩ := of_pure_ok hcompress
    exact hend mem₂ m₂ hkept h₂
  · -- an empty text skips the loop, any other has a first character
    obtain ⟨n, hn⟩ := exists_toNat_eq_succ hmore
    rw [compress, hn] at hcompress
    refine ends_encode (i := 0) (n := n) ?_ ?_ hcompress fun m' ↦ hend mem₂ m' hkept
    · rw [UInt32.toNat_zero]
      omega
    · rwa [UInt32.zero_add, ← hn, UInt32.ofNat_toNat]

end Handed

/-- In C, `copy_safely` comes to its call: what it enciphers and what it encodes do not depend on
what the array of `cipher` holds at first. -/
theorem exists_copySafely (hsize : len.toNat ≤ maxSize) (hlen : len.toNat ≤ buffer.length)
    (hkey : keyLen ≠ 0) (hkeyLen : key.length = keyLen.toNat) (junk : Local) :
    ∃ r text₁ size text₂, text₁.length = maxSize ∧
      (∀ normKey, Codec.cipher normKey len key keyLen modeCipher
        (buffer.take len.toNat ++ junk.val.drop len.toNat) = .ok (r, text₁)) ∧
      compress Arrays.inPlace len text₁ = .ok (size, text₂) ∧
      ∀ (copyToClipboard : List CChar → UInt32 → StateT τ (Except Fault) Int32) normKey w,
        copySafely copyToClipboard junk normKey buffer len key keyLen w
          = (do
            let res ← copyToClipboard text₂ size
            return (res, size)) w := by
  have hjunk := junk.property
  have hlength : (buffer.take len.toNat ++ junk.val.drop len.toNat).length = maxSize := by
    rw [List.length_append, List.length_take_of_le hlen, List.length_drop]
    omega
  obtain ⟨r, text₁, hlength₁, hcipher⟩ := exists_cipher hkey hkeyLen (hsize.trans_eq hlength.symm)
    modeCipher
  have hle : len.toNat ≤ text₁.length := hsize.trans_eq (hlength₁.trans hlength).symm
  obtain ⟨size, text₂, hcompress⟩ := exists_compress hle
  refine ⟨r, text₁, size, text₂, hlength₁.trans hlength, hcipher, hcompress,
    fun copyToClipboard normKey w ↦ ?_⟩
  have hcopy : fmemcpy junk.val buffer len =
      .ok (buffer.take len.toNat ++ junk.val.drop len.toNat) :=
    if_pos ⟨hlen, hsize.trans_eq hjunk.symm⟩
  rw [copySafely, if_neg (Nat.not_lt.mpr hsize), bind_apply, lift_apply, hcopy]
  dsimp only
  rw [bind_apply, lift_apply, hcipher]
  dsimp only
  rw [bind_apply, lift_apply, hcompress]

theorem Kept.of_apart {x : UInt32} (h : Kept f below (saving m (f + 1068)) mem)
    (hesp : m.esp = f + 1084) (hx : Apart m.esp 20 (1084 + below) x) : mem x = m.mem x := by
  have hofs : ofs f m.esp = 1084 := by rw [hesp, ofs_add_self]; rfl
  have hcases := ofs_eq f m.esp x
  have hcases' := ofs_eq f (f + 1068) x
  obtain ⟨habove, hbelow⟩ := hx
  simp at hcases'
  rw [h x ⟨by omega, by omega⟩, saving_of_le (by omega)]

theorem Called.textFrame (h : Called m b a k len keyLen below buffer key junk)
    (hesp : m.esp = f + 1084) (hmem : mem = saving m (f + 1068)) :
    TextFrame f (mem.word (f + 4)) junk.val (saving m (f + 1068)) mem := by
  subst hmem
  have harray := h.array
  have haddr : m.esp - 1052 = f + 32 := by rw [hesp, add_sub_eq]; rfl
  rw [haddr] at harray
  refine ⟨rfl, chars_saving harray fun x hx ↦ I386.le_ofs (f := f) ?_, junk.property, fun _ _ ↦ rfl⟩
  have hcases := ofs_eq f (f + 32) x
  have hx : ofs (f + 32) x < 1024 := hx.trans_eq junk.property
  simp at hcases ⊢
  omega

/-- A `copy_to_clipboard` that always returns. -/
def returning (copyToClipboard : List CChar → UInt32 → τ → Int32 × τ) :
    List CChar → UInt32 → StateT τ (Except Fault) Int32 :=
  fun bytes n w ↦ .ok (copyToClipboard bytes n w)

/-- **The assembler's `copy_safely` is the one in C**: it hands over the same bytes, stores the same
length and returns the same value. -/
theorem copySafely_refines {copyToClipboard : List CChar → UInt32 → τ → Int32 × τ}
    (hext : IsCopyToClipboard ext depth copyToClipboard) (hbelow : 1072 + depth ≤ below)
    (h : Called m b a k len keyLen below buffer key junk)
    (hlen : len.toNat ≤ maxSize → len.toNat ≤ buffer.length) (hne : keyLen ≠ 0) :
    ∃ res size w', (∀ normKey,
      copySafely (returning copyToClipboard) junk normKey buffer len key keyLen w
        = .ok ((res, size), w')) ∧
      (routine ext site).Ends code m w fun addr m' w'' ↦
        Left m a size below res addr m' ∧ w'' = w' := by
  obtain ⟨f, hesp⟩ : ∃ f, m.esp = f + 1084 := ⟨m.esp - 1084, by grind⟩
  have hgiven := h.given hesp
  rcases Nat.lt_or_ge maxSize len.toNat with hlong | hsize
  · -- too long: it returns at once, with the length as it was
    refine ⟨-1, len, w, fun normKey ↦ by rw [copySafely, if_pos hlong]; rfl, ?_⟩
    refine ends_entry hesp hgiven (fun _ m₁ hesp₁ heax hmem ↦ ?_) (fun hzero ↦ ?_) fun hle ↦ ?_
    · refine ends_l36 hesp₁ (hmem ▸ hgiven.saved) fun addr m' hreturned heax' hmem' ↦
        ⟨⟨hreturned, heax'.trans heax, ?_, fun x hx _ ↦ ?_⟩, rfl⟩
      · rw [hmem', hmem, hgiven.bufferLen]
      · rw [hmem', hmem]
        exact Kept.of_apart (fun _ _ ↦ rfl) hesp hx
    · rw [hzero] at hlong
      exact absurd hlong (by decide)
    · exact absurd (UInt32.le_iff_toNat_le.mp hle) (Nat.not_le.mpr hlong)
  obtain ⟨r, text₁, size, text₂, hlength, hC, hcompress, hrun⟩ :=
    exists_copySafely (τ := τ) hsize (hlen hsize) hne h.keyLen junk
  refine ⟨_, size, _, fun normKey ↦ hrun _ normKey w, ?_⟩
  -- what becomes of the copied text is one and the same, however short it is
  have hend : ∀ last m₁, Copied f last len (buffer.take len.toNat ++ junk.val.drop len.toNat)
      (saving m (f + 1068)) m₁ → (routine ext site).Ends (behind 41 code) m₁ w fun addr m' w'' ↦
        Left m a size below (copyToClipboard text₂ size w).1 addr m' ∧
          w'' = (copyToClipboard text₂ size w).2 := fun last m₁ h₁ ↦ by
    refine ends_copied hext hbelow hgiven h₁ hne hsize hC hlength hcompress
      fun addr m' mem' w' hreturned hmem hkept hcopy ↦ ?_
    rw [hcopy]
    refine ⟨⟨hreturned, (UInt32.toUInt32_toInt32 _).symm, ?_, fun x hx hxa ↦ ?_⟩, rfl⟩
    · rw [hmem, word_setWord_self]
    · rw [hmem, setWord_of_le hxa, hkept.of_apart hesp hx]
  refine ends_entry hesp hgiven (fun hlong ↦ ?_) (fun hzero m₁ hesp₁ hecx hmem ↦ ?_)
    fun _ hmore m₁ hesp₁ heax hebx hecx hmem ↦ ?_
  · exact absurd (UInt32.lt_iff_toNat_lt.mp hlong) (Nat.not_lt.mpr hsize)
  · subst hzero
    exact hend _ m₁ ⟨hesp₁, hecx, h.textFrame hesp hmem⟩
  · obtain ⟨n, hn⟩ := exists_toNat_eq_succ hmore
    exact ends_copy (i := 0) (n := n) hgiven (hlen hsize) hsize junk.property
      ⟨hesp₁, heax, hebx, hecx, h.textFrame hesp hmem⟩ (by omega) (hend _)

end CopySafely

end Asm

end MinixClipboard
