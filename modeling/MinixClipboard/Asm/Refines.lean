import MinixClipboard.Asm.CopySafely
import MinixClipboard.Asm.PasteSafely
import MinixClipboard.Codec.PasteSafely

/-!
# The codec in assembler and in C

`copy_safely` and `paste_safely` as they are called: in C they return, and the assembler's do what
they do. The decoder does not look at the length of the buffer; it is given memory enough behind it,
or it is only asked what it does where it stays in the memory it is given.
-/

namespace MinixClipboard

namespace Asm

open I386 Mem Codec

variable {τ : Type} {copyExt pasteExt : Callees Unit τ} {depth below : ℕ}
  {copyToClipboard : List CChar → UInt32 → τ → Int32 × τ}
  {pasteFromClipboard : UInt32 → List CChar → UInt32 → τ → (UInt32 × Local × UInt32) × τ}

/-- **The assembler's `copy_safely` and `paste_safely` are the ones in C.** -/
theorem safely_refine (hcopy : CopySafely.IsCopyToClipboard copyExt depth copyToClipboard)
    (hpaste : PasteSafely.IsPasteFromClipboard pasteExt depth pasteFromClipboard)
    (hbelow : 1084 + depth ≤ below) :
    (∀ site m w b a k len keyLen buffer key tmp,
      CopySafely.Called m b a k len keyLen below buffer key tmp →
      (len.toNat ≤ maxSize → len.toNat ≤ buffer.length) → 1 ≤ keyLen →
      ∃ res size w', (∀ normKey,
        copySafely (CopySafely.returning copyToClipboard) tmp normKey buffer
          len key keyLen w = .ok ((res, size), w')) ∧
        (CopySafely.routine copyExt site).Ends CopySafely.code m w fun addr m' w'' ↦
          CopySafely.Left m a size below res addr m' ∧ w'' = w') ∧
    (∀ site m w id b bufferLen k keyLen buffer key tmp,
      PasteSafely.Called m id b bufferLen k keyLen below buffer key tmp → 1 ≤ keyLen →
      (∀ normKey res buffer' w',
        pasteSafely (PasteSafely.returning pasteFromClipboard) tmp normKey id
          buffer bufferLen key keyLen w = .ok ((res, buffer'), w') →
        (PasteSafely.routine pasteExt site).Ends PasteSafely.code m w fun addr m' w'' ↦
          PasteSafely.Left m b res buffer.length below buffer' addr m' ∧ w'' = w') ∧
      (bufferLen.toNat ≤ maxSize → 25 * bufferLen.toNat ≤ buffer.length →
        ∃ res buffer' w', ∀ normKey,
          pasteSafely (PasteSafely.returning pasteFromClipboard) tmp normKey
          id buffer bufferLen key keyLen w = .ok ((res, buffer'), w'))) := by
  have hne : ∀ keyLen : UInt32, 1 ≤ keyLen → keyLen ≠ 0 := fun keyLen hle hzero ↦ by
    rw [hzero] at hle
    exact absurd hle (by decide)
  refine ⟨fun site m w b a k len keyLen buffer key tmp h hlen hkeyLen ↦ ?_,
    fun site m w id b bufferLen k keyLen buffer key tmp h hkeyLen ↦
      ⟨fun normKey res buffer' w' hC ↦ ?_, fun hsize hroom ↦ ?_⟩⟩
  · exact CopySafely.copySafely_refines hcopy (by omega) h hlen (hne keyLen hkeyLen)
  · exact PasteSafely.pasteSafely_refines hpaste hbelow h (hne keyLen hkeyLen) hC
  · rcases hreceived : pasteFromClipboard id tmp.val bufferLen w with ⟨⟨res, left, n⟩, w'⟩
    have hreturned : PasteSafely.returning pasteFromClipboard id tmp.val bufferLen w
        = .ok ((res, left.val, n), w') := by rw [PasteSafely.returning, hreceived]
    have hmax : maxSize = 1024 := rfl
    obtain ⟨buffer', hC⟩ := exists_pasteSafely hreturned (hsize.trans_eq left.property.symm) hroom
      (by omega) (hne keyLen hkeyLen) h.keyLen
    exact ⟨res, buffer', w', hC⟩

/-! ## A call of each -/

/-- A machine with these bytes in its memory. -/
def machineAt (bytes : List (UInt32 × UInt8)) : Machine where
  eax := 0
  ebx := 0
  ecx := 0
  edx := 0
  esi := 0
  edi := 0
  ebp := 0
  esp := 8192
  flags := none
  mem x := (bytes.lookup x).getD 0

theorem mem_machineAt {bytes : List (UInt32 × UInt8)} {a x : UInt32} {n : ℕ}
    (hfar : bytes.all fun e ↦ n ≤ ofs a e.1) (hx : ofs a x < n) : (machineAt bytes).mem x = 0 := by
  have hlookup : bytes.lookup x = none := by
    rw [List.lookup_eq_none_iff]
    intro e he
    refine bne_iff_ne.mpr fun heq ↦ ?_
    have hle : n ≤ ofs a e.1 := of_decide_eq_true (List.all_eq_true.mp hfar e he)
    rw [← heq] at hle
    omega
  change (bytes.lookup x).getD 0 = 0
  rw [hlookup]
  rfl

/-- The text `"a"` is copied with the key `"b"`. -/
def copyMachine : Machine :=
  machineAt [(256, 97), (512, 1), (768, 98), (8197, 1), (8201, 2), (8205, 3), (8208, 1)]

theorem called_copyMachine : CopySafely.Called copyMachine 256 512 768 1 1 1084 [97] [98]
    zeroLocal where
  room := by decide
  bufferArg := by decide
  bufferLenArg := by decide
  keyArg := by decide
  keyLenArg := by decide
  bufferLen := by decide
  bufferLenApart x := apart_of_ofs_lt (by decide) (by decide)
  text := chars_singleton rfl
  textApart x := apart_of_ofs_lt (by decide) (by decide)
  keyText := chars_singleton rfl
  keyLen := rfl
  keyApart x := apart_of_ofs_lt (by decide) (by decide)
  array := chars_zeros fun x ↦ mem_machineAt rfl

/-- A clipboard of one byte is pasted into a buffer of one byte, with more memory behind it. -/
def pasteMachine : Machine :=
  machineAt [(768, 98), (8201, 1), (8204, 1), (8209, 3), (8212, 1)]

theorem called_pasteMachine :
    PasteSafely.Called pasteMachine 0 256 1 768 1 1084 (List.replicate 25 0) [98] zeroLocal where
  room := by decide
  idArg := by decide
  bufferArg := by decide
  bufferLenArg := by decide
  keyArg := by decide
  keyLenArg := by decide
  text := chars_zeros fun x ↦ mem_machineAt rfl
  textApart x := apart_of_ofs_lt (by decide) (by decide)
  keyText := chars_singleton rfl
  keyLen := rfl
  keyApart x hx := ⟨apart_of_ofs_lt (by decide) (by decide) hx, by
    have hcases := ofs_eq 256 768 x
    have hofs : ofs 256 768 = 512 := rfl
    rw [List.length_replicate]
    change ofs 768 x < 1 at hx
    omega⟩
  array := chars_zeros fun x ↦ mem_machineAt rfl

/-- A clipboard that takes what it is given, under the id 0. -/
def sampleCopy : Callees Unit Unit where
  call _ _ m w := some ((m.mem.word m.esp, {m with eax := 0, esp := m.esp + 4}), w)
  call_mono _ h := h

theorem isCopyToClipboard_sampleCopy :
    CopySafely.IsCopyToClipboard sampleCopy 0 fun _ _ w ↦ (0, w) := fun _ _ _ _ _ _ ↦
  ⟨0, _, _, _, rfl, ⟨rfl, rfl, rfl, rfl, rfl, rfl⟩, rfl, fun _ _ ↦ rfl⟩

/-- A clipboard that holds `"a"`. -/
def samplePaste : Callees Unit Unit where
  call _ _ m w := some ((m.mem.word m.esp, {m with
    eax := 0
    esp := m.esp + 4
    mem := m.mem.setByte (m.mem.word (m.esp + 8)) 97}), w)
  call_mono _ h := h

/-- The array once the text is received. -/
def received (bytes : List CChar) : Local :=
  if h : (bytes.set 0 97).length = maxSize then ⟨bytes.set 0 97, h⟩ else zeroLocal

theorem isPasteFromClipboard_samplePaste :
    PasteSafely.IsPasteFromClipboard samplePaste 0
      fun _ bytes n w ↦ ((0, received bytes, n), w) := by
  intro m w bytes hbytes hlength _ _
  have hset : (bytes.set 0 97).length = maxSize := by rw [List.length_set, hlength]
  refine ⟨0, _, _, _, rfl, ⟨rfl, rfl, rfl, rfl, rfl, rfl⟩, _, _, rfl, ?_, fun x _ hx _ ↦ ?_⟩
  · rw [received, dif_pos hset]
    have hchars := hbytes.set 0 97
    rw [UInt32.add_zero] at hchars
    exact hchars
  · refine setByte_of_ne fun heq ↦ ?_
    rw [heq, ofs_self] at hx
    exact absurd hx (by decide)

theorem safely_refine_sample :
    (∃ res size w', (∀ normKey,
      copySafely (CopySafely.returning fun _ _ w ↦ (0, w)) zeroLocal normKey
        [97] 1 [98] 1 () = .ok ((res, size), w')) ∧
      (CopySafely.routine sampleCopy fun _ ↦ 0).Ends CopySafely.code copyMachine () fun addr m' _ ↦
        CopySafely.Left copyMachine 512 size 1084 res addr m') ∧
    ∃ res buffer', (PasteSafely.routine samplePaste fun _ ↦ 0).Ends PasteSafely.code pasteMachine ()
      fun addr m' _ ↦ PasteSafely.Left pasteMachine 256 res 25 1084 buffer' addr m' := by
  obtain ⟨hcopy, hpaste⟩ :=
    safely_refine isCopyToClipboard_sampleCopy isPasteFromClipboard_samplePaste
    (Nat.le_refl 1084)
  obtain ⟨res, size, w', hC, n, addr, m', w'', hrun, hleft, -⟩ :=
    hcopy (fun _ ↦ 0) copyMachine () _ _ _ _ _ _ _ _ called_copyMachine (fun _ ↦ Nat.le_refl 1)
      (by decide)
  obtain ⟨hruns, htotal⟩ := hpaste (fun _ ↦ 0) pasteMachine () _ _ _ _ _ _ _ _ called_pasteMachine
    (by decide)
  obtain ⟨res', buffer', w₁, hC'⟩ := htotal (by decide) (by decide)
  obtain ⟨n', addr', m₁, w₂, hrun', hleft', -⟩ := hruns zeroLocal res' buffer' w₁ (hC' zeroLocal)
  exact ⟨⟨res, size, w', hC, n, addr, m', w'', hrun, hleft⟩,
    res', buffer', n', addr', m₁, w₂, hrun',
    hleft'⟩

end Asm

end MinixClipboard
