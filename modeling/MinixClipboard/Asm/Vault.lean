import MinixClipboard.Asm.Refines
import MinixClipboard.Simulated.Vault

/-!
# The assembler's functions as a vault

The routines `copy_safely` and `paste_safely` are linked with the simulated clipboard. A program
calls them in any order, with any texts of letters and any keys; what else it does to its registers
and its memory between two calls is its own affair.

What the linked program does is what the functions in C do (`Library.run_safely`), and so it is the
vault (`Library.vault_of_linked`). The caller sees to the memory: there is some for a text that is
copied, a buffer takes what comes out of it, and the stack is zero where the array of `paste_safely`
is going to be.
-/

namespace MinixClipboard

namespace Asm

open I386 Mem Codec Fallible Simulated

/-- The code that the routines are linked with: a `copy_to_clipboard` and a `paste_from_clipboard`
that do, where those return, what the functions of the simulated clipboard do. -/
structure Library where
  copyExt : Callees Unit Process
  pasteExt : Callees Unit Process
  /-- What they need of the stack. -/
  depth : ℕ
  /-- What `malloc` chooses. -/
  alloc : Process → Option Addr
  copy : List CChar → UInt32 → Process → Int32 × Process
  paste : UInt32 → List CChar → UInt32 → Process → (UInt32 × Local × UInt32) × Process
  isCopy : CopySafely.IsCopyToClipboard copyExt depth copy
  isPaste : PasteSafely.IsPasteFromClipboard pasteExt depth paste
  copy_eq : ∀ {bytes n s r}, Simulated.copyToClipboard (alloc s) bytes n s = .ok r →
    copy bytes n s = r
  paste_eq : ∀ {id bytes n s res n' s'} (left : Local),
    Simulated.pasteFromClipboard id bytes n s = .ok ((res, left.val, n'), s') →
    paste id bytes n s = ((res, left, n'), s')

/-- The machine is about to make this call. -/
def Called (m : Machine) (below : ℕ) : SafeCall → Prop
  | .copy text key => ∃ b a k tmp, CopySafely.Called m b a k (UInt32.ofNat text.letters.length)
      (UInt32.ofNat key.chars.length) below text.letters key.chars tmp
  | .paste id buffer key => ∃ b k, PasteSafely.Called m (UInt32.ofNat id) b
      (UInt32.ofNat buffer.val.length) k (UInt32.ofNat key.chars.length) below buffer.val key.chars
      zeroLocal

/-- What the caller finds behind the call: the result, and what its second argument points to. -/
def found (m m' : Machine) : SafeCall → SafeResult
  | .copy _ _ => .copied m'.eax.toInt32 (m'.mem.word (m.mem.word (m.esp + 8)))
  | .paste _ buffer _ => .pasted m'.eax (m'.mem.chars (m.mem.word (m.esp + 8)) buffer.val.length)

namespace Library

variable (L : Library)

/-- There is memory for what the call stores or writes. -/
def Provided (s : Process) : SafeCall → Prop
  | .copy _ _ => s.heap.Succeeds (L.alloc s)
  | .paste id buffer _ => ∀ bytes, texts s id = some bytes → bytes.length ≤ buffer.val.length →
      (decoded bytes).length ≤ buffer.val.length

/-- The routine of the call, on a machine. -/
def run (site : ℕ → UInt32) (n : ℕ) (c : SafeCall) (m : Machine) (s : Process) :
    Option ((UInt32 × Machine) × Process) :=
  match c with
  | .copy _ _ => (CopySafely.routine L.copyExt site).run n CopySafely.code m s
  | .paste _ _ _ => (PasteSafely.routine L.pasteExt site).run n PasteSafely.code m s

/-- The routine of the call comes to its return, and `Q` is true there. -/
def Ends (site : ℕ → UInt32) (c : SafeCall) (m : Machine) (s : Process)
    (Q : UInt32 → Machine → Process → Prop) : Prop :=
  ∃ n a m' s', L.run site n c m s = some ((a, m'), s') ∧ Q a m' s'

/-- The program makes a safe call, and it returns. -/
def Safely (below : ℕ) (s : Process) (l : SafeCall × SafeResult) (s' : Process) : Prop :=
  ∃ site n m a m', Called m below l.1 ∧ L.Provided s l.1 ∧
    L.run site n l.1 m s = some ((a, m'), s') ∧ l.2 = found m m' l.1

variable {L} {site : ℕ → UInt32} {m : Machine} {s s' : Process} {v : Vault} {below : ℕ}
  {c : SafeCall} {l : SafeCall × SafeResult}

theorem Ends.of_run {n : ℕ} {a : UInt32} {m' : Machine} {Q : UInt32 → Machine → Process → Prop}
    (h : L.Ends site c m s Q) (hrun : L.run site n c m s = some ((a, m'), s')) : Q a m' s' := by
  cases c with
  | copy text key => exact Routine.Ends.of_run h hrun
  | paste id buffer key => exact Routine.Ends.of_run h hrun

theorem keyLen_ne_zero (key : Key) : UInt32.ofNat key.chars.length ≠ 0 := by
  rw [Ne, ofNat_eq_zero_iff (key.length_le.trans_lt (by decide)), List.length_eq_zero_iff]
  exact key.ne_nil

/-! ## One call -/

theorem ends_copy (hkeeps : Keeps s v) (hbelow : 1084 + L.depth ≤ below) {text : Text} {key : Key}
    (hcalled : Called m below (.copy text key)) (hmem : s.heap.Succeeds (L.alloc s)) :
    L.Ends site (.copy text key) m s fun a m' s' ↦ Returned m a m' ∧
      Simulated.Safely s (.copy text key, found m m' (.copy text key)) s' := by
  obtain ⟨b, a, k, tmp, hcalled⟩ := hcalled
  have hlen : (UInt32.ofNat text.letters.length).toNat = text.letters.length :=
    toNat_ofNat (text.length_le.trans_lt (by decide))
  obtain ⟨res, size, s₂, hC, n, addr, m', w, hrun, hleft, rfl⟩ : ∃ res size s₂,
      (∀ junk, copySafely (CopySafely.returning L.copy) tmp junk text.letters
        (UInt32.ofNat text.letters.length) key.chars (UInt32.ofNat key.chars.length) s
          = .ok ((res, size), s₂)) ∧
      (CopySafely.routine L.copyExt site).Ends CopySafely.code m s fun addr m' w ↦
        CopySafely.Left m a size below res addr m' ∧ w = s₂ :=
    CopySafely.copySafely_refines L.isCopy (by omega) hcalled (fun _ ↦ hlen.le)
      (keyLen_ne_zero key)
  obtain ⟨ids, hI, -, -⟩ := hkeeps.ids
  obtain ⟨r, s₁, hcopy⟩ := hI.exists_copy_sealedText text key hmem tmp
  have hcopy' : CopySafely.returning L.copy (sealedArray text key tmp)
      (UInt32.ofNat (sealedText text key).length) s = .ok (r, s₁) :=
    congrArg Except.ok (L.copy_eq hcopy)
  -- the two functions in C are one up to the clipboard they are given
  have hsame := hC zeroLocal
  rw [copySafely_text, bind_ok hcopy'] at hsame
  obtain ⟨hpair, rfl⟩ := of_pure_ok hsame
  obtain ⟨rfl, rfl⟩ := Prod.mk.inj hpair
  refine ⟨n, addr, m', _, hrun, hleft.toReturned, L.alloc s, tmp, zeroLocal, ?_⟩
  rw [runSafely_copy_eq, bind_ok hcopy, found, hleft.eax, Int32.toInt32_toUInt32,
    hcalled.bufferLenArg, hleft.bufferLen]
  rfl

theorem pasteSafely_congr {τ : Type} {w : τ} {tmp junk : Local} {id n keyLen : UInt32}
    {f g : UInt32 → List CChar → UInt32 → StateT τ (Except Fault) (UInt32 × List CChar × UInt32)}
    (h : f id tmp.val n w = g id tmp.val n w) (buffer key : List CChar) :
    pasteSafely f tmp junk id buffer n key keyLen w
      = pasteSafely g tmp junk id buffer n key keyLen w := by
  rw [pasteSafely, pasteSafely, bind_apply, bind_apply, h]

theorem not_overruns (hkeeps : Keeps s v) {i : Fin bufMaxCount} {buffer : Room} {key' : Key}
    (hroom : L.Provided s (.paste i buffer key')) : ¬Overruns v (.paste i buffer key') := by
  rintro ⟨text, key, hcell, hle, hlt⟩
  have hdecoded := hroom _ (hkeeps.texts_of_stored hcell) hle
  rw [sealedText, decoded_encoded_runs fun c hc ↦
    isDigit_of_isLetter (isLetter_of_mem_enciphered hc)] at hdecoded
  rw [openedText, length_deciphered] at hlt
  exact absurd hlt (Nat.not_lt.mpr hdecoded)

theorem ends_paste (hkeeps : Keeps s v) (hbelow : 1084 + L.depth ≤ below) {i : Fin bufMaxCount}
    {buffer : Room} {key : Key} (hcalled : Called m below (.paste i buffer key))
    (hroom : L.Provided s (.paste i buffer key)) :
    L.Ends site (.paste i buffer key) m s fun a m' s' ↦ Returned m a m' ∧
      Simulated.Safely s (.paste i buffer key, found m m' (.paste i buffer key)) s' := by
  obtain ⟨b, k, hcalled⟩ := hcalled
  obtain ⟨res, left, s₁, hlength, hrunC⟩ :=
    hkeeps.exists_runSafely_paste (not_overruns hkeeps hroom) none zeroLocal zeroLocal
  rw [runSafely] at hrunC
  obtain ⟨⟨res', left'⟩, hC, hresult⟩ := bind_pure_ok_iff.mp hrunC
  obtain ⟨rfl, rfl⟩ := SafeResult.pasted.inj hresult
  -- the array that comes back is as long as it was, and so the library leaves the same one
  obtain ⟨ids, hI, -, -⟩ := hkeeps.ids
  obtain ⟨r, array, n, s₂, hpaste, harray⟩ := hI.exists_paste_array i buffer fun bytes hbytes ↦ by
    obtain ⟨text, key, -, rfl⟩ := Cell.exists_of_bytes ((hkeeps.texts i).symm.trans hbytes)
    exact ⟨text, key, rfl⟩
  have hsame : PasteSafely.returning L.paste (UInt32.ofNat i) zeroLocal.val
      (UInt32.ofNat buffer.val.length) s = Simulated.pasteFromClipboard (UInt32.ofNat i)
        zeroLocal.val (UInt32.ofNat buffer.val.length) s := by
    rw [PasteSafely.returning, L.paste_eq ⟨array, harray⟩ hpaste, hpaste]
  obtain ⟨n, addr, m', w, hrun, hleft, rfl⟩ :
      (PasteSafely.routine L.pasteExt site).Ends PasteSafely.code m s fun addr m' w ↦
        PasteSafely.Left m b res' buffer.val.length below left' addr m' ∧ w = s₁ :=
    PasteSafely.pasteSafely_refines L.isPaste hbelow hcalled (keyLen_ne_zero key)
      ((pasteSafely_congr hsame _ _).trans hC)
  refine ⟨n, addr, m', _, hrun, hleft.toReturned, none, zeroLocal, zeroLocal, ?_⟩
  have hchars := hleft.text.chars_eq hlength (buffer.property.trans_lt (by decide))
  rw [found, hleft.eax, hcalled.bufferArg, hchars, runSafely, bind_ok hC]
  rfl

/-- **One call**: with memory for it, the routine comes to its return, and has done what the
function in C does. -/
theorem ends_safely (hkeeps : Keeps s v) (hbelow : 1084 + L.depth ≤ below)
    (hcalled : Called m below c) (hprovided : L.Provided s c) (site : ℕ → UInt32) :
    L.Ends site c m s fun a m' s' ↦ Returned m a m' ∧
      Simulated.Safely s (c, found m m' c) s' := by
  cases c with
  | copy text key => exact ends_copy hkeeps hbelow hcalled hprovided
  | paste i buffer key => exact ends_paste hkeeps hbelow hcalled hprovided

theorem exists_safely (hkeeps : Keeps s v) (hbelow : 1084 + L.depth ≤ below)
    (hcalled : Called m below c) (hprovided : L.Provided s c) :
    ∃ r s', L.Safely below s (c, r) s' ∧ Simulated.Safely s (c, r) s' := by
  obtain ⟨n, a, m', s', hrun, -, hsafely⟩ :=
    ends_safely hkeeps hbelow hcalled hprovided fun _ ↦ 0
  exact ⟨_, s', ⟨_, n, m, a, m', hcalled, hprovided, hrun, rfl⟩, hsafely⟩

theorem Safely.simulated (hkeeps : Keeps s v) (hbelow : 1084 + L.depth ≤ below)
    (h : L.Safely below s l s') : Simulated.Safely s l s' := by
  obtain ⟨site, n, m, a, m', hcalled, hprovided, hrun, hfound⟩ := h
  have hsafely := ((ends_safely hkeeps hbelow hcalled hprovided site).of_run hrun).2
  rwa [← hfound] at hsafely

/-! ## Runs -/

variable {addr : Addr} {h : List (Event Process (SafeCall × SafeResult))}

/-- A run of the linked program is one of the functions in C. -/
theorem run_safely (hbelow : 1084 + L.depth ≤ below) (ha : Stack.Fits addr)
    (hrun : Run (L.Safely below) (initial addr) h s) :
    Run Simulated.Safely (initial addr) h s := by
  induction hrun with
  | nil => exact .nil
  | snoc _ hs ih =>
    obtain ⟨-, v, -, -, hkeeps⟩ := exists_vault ha ih
    exact ih.snoc (hs.simulated hkeeps hbelow)

/-- **The assembler's functions are the vault.** What a program has done with them is what a vault
does, with the same results, and in the end the table has what the vault has. And whatever call it
makes next on whatever machine, with memory for it the routine comes to its return. -/
theorem vault_of_linked (hbelow : 1084 + L.depth ≤ below) (ha : Stack.Fits addr)
    (hrun : Run (L.Safely below) (initial addr) h s) :
    (∃ h' v, Run VaultStep (fun _ ↦ .unused) h' v ∧ h'.map Event.label = h.map Event.label ∧
      ∀ i, texts s i = (v i).bytes) ∧
    ∀ site c m, Called m below c → L.Provided s c →
      L.Ends site c m s fun a m' _ ↦ Returned m a m' := by
  obtain ⟨h', v, hrun', hlabels, hkeeps⟩ := exists_vault ha (run_safely hbelow ha hrun)
  refine ⟨⟨h', v, hrun', hlabels, hkeeps.texts⟩, fun site c m hcalled hprovided ↦ ?_⟩
  obtain ⟨n, a, m', s', hrun, hreturned, -⟩ :=
    ends_safely hkeeps hbelow hcalled hprovided site
  exact ⟨n, a, m', s', hrun, hreturned⟩

end Library

/-! ## A library -/

/-- Code that does what a `copy_to_clipboard` does. -/
def copyCode (copy : List CChar → UInt32 → Process → Int32 × Process) : Callees Unit Process where
  call _ _ m s :=
    let (res, s) := copy (m.mem.chars (m.mem.word (m.esp + 4)) maxSize) (m.mem.word (m.esp + 8)) s
    some ((m.mem.word m.esp, {m with eax := res.toUInt32, esp := m.esp + 4}), s)
  call_mono _ h := h

theorem isCopyToClipboard_copyCode (copy : List CChar → UInt32 → Process → Int32 × Process) :
    CopySafely.IsCopyToClipboard (copyCode copy) 0 copy := by
  intro m s bytes hbytes hlength _
  obtain rfl := hbytes.chars_eq hlength (by decide)
  exact ⟨0, _, _, _, rfl, ⟨rfl, rfl, rfl, rfl, rfl, rfl⟩, rfl, fun _ _ ↦ rfl⟩

/-- Code that does what a `paste_from_clipboard` does. -/
def pasteCode (paste : UInt32 → List CChar → UInt32 → Process →
    (UInt32 × Local × UInt32) × Process) : Callees Unit Process where
  call _ _ m s :=
    let ((res, left, _), s) := paste (m.mem.word (m.esp + 4))
      (m.mem.chars (m.mem.word (m.esp + 8)) maxSize) (m.mem.word (m.mem.word (m.esp + 12))) s
    some ((m.mem.word m.esp, {m with
      eax := res
      esp := m.esp + 4
      mem := m.mem.setChars (m.mem.word (m.esp + 8)) left.val}), s)
  call_mono _ h := h

theorem isPasteFromClipboard_pasteCode (paste : UInt32 → List CChar → UInt32 → Process →
    (UInt32 × Local × UInt32) × Process) :
    PasteSafely.IsPasteFromClipboard (pasteCode paste) 0 paste := by
  intro m s bytes hbytes hlength _ _
  obtain rfl := hbytes.chars_eq hlength (by decide)
  refine ⟨0, _, _, _, rfl, ⟨rfl, rfl, rfl, rfl, rfl, rfl⟩, _, _, rfl, chars_setChars _ _ _, ?_⟩
  intro x _ hx _
  exact setChars_of_le (Eq.trans_le (paste _ _ _ _).1.2.1.property hx)

/-- The simulated clipboard as a library. A call that faults is refused; none is made. -/
def sampleLibrary : Library where
  copyExt := copyCode _
  pasteExt := pasteCode _
  depth := 0
  alloc _ := some 8
  copy bytes n s := (Simulated.copyToClipboard (some 8) bytes n s).toOption.getD (-1, s)
  paste id bytes n s :=
    match Simulated.pasteFromClipboard id bytes n s with
    | .ok ((res, left, n'), s') =>
      if h : left.length = maxSize then ((res, ⟨left, h⟩, n'), s') else ((-1, zeroLocal, n), s)
    | .error _ => ((-1, zeroLocal, n), s)
  isCopy := isCopyToClipboard_copyCode _
  isPaste := isPasteFromClipboard_pasteCode _
  copy_eq hcopy := by rw [hcopy]; rfl
  paste_eq left hpaste := by simp only [hpaste, left.property, dif_pos]

def textA : Text := ⟨[97], by decide +kernel, by decide⟩

def keyB : Key := ⟨[98], by decide, by decide +kernel, by decide⟩

def roomOne : Room := ⟨[0], by decide⟩

theorem sealedText_a : sealedText textA keyB = [98] := by decide +kernel

theorem openedText_a : openedText keyB textA keyB = [97] := by decide +kernel

/-- The id 99 is pasted into a buffer of one byte. -/
def takeMachine : Machine :=
  machineAt [(768, 98), (8196, 99), (8201, 1), (8204, 1), (8209, 3), (8212, 1)]

theorem called_takeMachine : PasteSafely.Called takeMachine 99 256 1 768 1 1084 [0] [98]
    zeroLocal where
  room := by decide
  idArg := by decide
  bufferArg := by decide
  bufferLenArg := by decide
  keyArg := by decide
  keyLenArg := by decide
  text := chars_singleton rfl
  textApart x := apart_of_ofs_lt (by decide) (by decide)
  keyText := chars_singleton rfl
  keyLen := rfl
  keyApart x hx := ⟨apart_of_ofs_lt (by decide) (by decide) hx, by
    have hcases := ofs_eq 256 768 x
    have hofs : ofs 256 768 = 512 := rfl
    change ofs 768 x < 1 at hx
    change 1 ≤ ofs 256 x
    omega⟩
  array := chars_zeros fun x ↦ mem_machineAt rfl

theorem exists_run_linked : ∃ h s, Run (sampleLibrary.Safely 1084) (initial 4096) h s ∧
    h.map Event.label = [(.copy textA keyB, .copied 99 1), (.paste 99 roomOne keyB,
      .pasted 0 [97])] := by
  have hkeeps := keeps_initial (show Stack.Fits 4096 by decide)
  have hI := simInv_initial_concat (show Stack.Fits 4096 by decide)
  have hcopy : Called copyMachine 1084 (.copy textA keyB) :=
    ⟨256, 512, 768, zeroLocal, called_copyMachine⟩
  have hmem : sampleLibrary.Provided (initial 4096) (.copy textA keyB) := ⟨8, rfl, by decide, rfl⟩
  obtain ⟨r, s, hs, hsafely⟩ := Library.exists_safely hkeeps (Nat.le_refl 1084) hcopy hmem
  obtain ⟨v, -, hkeeps'⟩ := hkeeps.step hsafely
  obtain ⟨choice, tmp, junk, hrun⟩ := hsafely
  obtain ⟨rfl, hI', htexts⟩ := hI.of_runSafely_copy hrun
  have hstored : texts s 99 = some (sealedText textA keyB) := by
    rw [htexts]
    exact Function.update_self ..
  have hpaste : Called takeMachine 1084 (.paste 99 roomOne keyB) := ⟨256, 768, called_takeMachine⟩
  have hroom : sampleLibrary.Provided s (.paste 99 roomOne keyB) := by
    intro bytes hbytes _
    obtain rfl := Option.some_inj.mp (hstored.symm.trans hbytes)
    rw [sealedText_a]
    decide +kernel
  obtain ⟨r', s', hs', choice', tmp', junk', hrun'⟩ :=
    Library.exists_safely hkeeps' (Nat.le_refl 1084) hpaste hroom
  obtain ⟨t, hpasted, -⟩ := hI'.exists_runSafely_paste hstored
    (show (sealedText textA keyB).length ≤ roomOne.val.length by rw [sealedText_a]; decide)
    (show (openedText keyB textA keyB).length ≤ roomOne.val.length by rw [openedText_a]; decide)
    choice' tmp' junk'
  obtain ⟨rfl, -⟩ := of_pure_ok (hpasted.symm.trans hrun')
  rw [sealedText_a] at hs
  rw [openedText_a] at hs'
  exact ⟨_, s', (Run.nil.snoc hs).snoc hs', rfl⟩

theorem vault_of_linked_a : ∃ h s, Run (sampleLibrary.Safely 1084) (initial 4096) h s ∧
    h.map Event.label = [(.copy textA keyB, .copied 99 1), (.paste 99 roomOne keyB,
      .pasted 0 [97])] ∧
    ∃ h' v, Run VaultStep (fun _ ↦ .unused) h' v ∧ h'.map Event.label = h.map Event.label := by
  obtain ⟨h, s, hrun, hlabels⟩ := exists_run_linked
  obtain ⟨⟨h', v, hrun', hlabels', -⟩, -⟩ :=
    Library.vault_of_linked (Nat.le_refl 1084) (by decide) hrun
  exact ⟨h, s, hrun, hlabels, h', v, hrun', hlabels'⟩

end Asm

end MinixClipboard
