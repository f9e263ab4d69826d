import MinixClipboard.Digits

/-!
# The codec

`compress.c`: the cipher, the run-length encoder and decoder, and the two functions that put them in
front of a clipboard. The functions work on arrays of bytes, given as lists; an access outside its
array is a fault. A local array holds anything when its function begins, and is an argument.

`compress` and `normalize_key` write to one array while they read another or, as they are mostly
called, the same. `Arrays` says which, so that each of them is one definition for both.
-/

namespace MinixClipboard

namespace Codec

abbrev maxSize : ℕ := 1024

/-- What a local array of `MAX_SIZE` bytes can hold. -/
abbrev Local := {bytes : List CChar // bytes.length = maxSize}

/-! ## Characters -/

def isLower (c : CChar) : Bool := 97 ≤ c && c ≤ 122

def isUpper (c : CChar) : Bool := 65 ≤ c && c ≤ 90

def charBase (c : CChar) : CChar :=
  if isDigit c then 48 else if isLower c then 97 else if isUpper c then 65 else 0

/-- The conversion from `uint32_t` to `char`. -/
def asChar (w : UInt32) : CChar := w.toUInt8.toInt8

/-! ## Arrays -/

/-- The array a function reads and the one it writes, in a state `σ`. Writing changes what is read
only where it changes what has been written. -/
structure Arrays (σ : Type) where
  src : σ → List CChar
  dst : σ → List CChar
  setDst : List CChar → σ → σ
  dst_setDst : ∀ d s, dst (setDst d s) = d
  setDst_setDst : ∀ d d' s, setDst d (setDst d' s) = setDst d s
  setDst_dst : ∀ s, setDst (dst s) s = s
  src_setDst : ∀ d s (i : ℕ), d[i]? = (dst s)[i]? → (src (setDst d s))[i]? = (src s)[i]?

/-- Two arrays. -/
def Arrays.apart : Arrays (List CChar × List CChar) where
  src := Prod.fst
  dst := Prod.snd
  setDst d s := (s.1, d)
  dst_setDst _ _ := rfl
  setDst_setDst _ _ _ := rfl
  setDst_dst _ := rfl
  src_setDst _ _ _ _ := rfl

/-- One array, which is written while it is read. -/
def Arrays.inPlace : Arrays (List CChar) where
  src := id
  dst := id
  setDst d _ := d
  dst_setDst _ _ := rfl
  setDst_setDst _ _ _ := rfl
  setDst_dst _ := rfl
  src_setDst _ _ _ h := h

/-- The functions of the codec. -/
abbrev CodecM (σ : Type) := StateT σ (Except Fault)

section Arrays

variable {σ : Type} (A : Arrays σ)

/-- `src[i]` -/
def peek (i : UInt32) : CodecM σ CChar := do
  match (A.src (← get))[i.toNat]? with
  | some c => return c
  | none => throw .pointer

/-- `push_char`, with the position it leaves. -/
def pushChar (pos : UInt32) (c : CChar) : CodecM σ UInt32 := do
  let s ← get
  if pos.toNat < (A.dst s).length then
    set (A.setDst ((A.dst s).set pos.toNat c) s)
    return pos + 1
  else throw .pointer

/-- `push_char` for one character after the other. -/
def pushChars (pos : UInt32) : List CChar → CodecM σ UInt32
  | [] => return pos
  | c :: cs => do pushChars (← pushChar A pos c) cs

/-! ## The encoder -/

/-- `itoa_inverse`: what it writes to an array with `room` left. The number of these characters is
its result. -/
def itoaInverse : ℕ → UInt32 → Except Fault (List CChar)
  | 0, val => if val > 0 then throw .pointer else return []
  | room + 1, val =>
    if val > 0 then return asChar (48 + val % 10) :: (← itoaInverse room (val / 10)) else return []

def pushInt (pos val : UInt32) : CodecM σ UInt32 := do
  let tmp ← itoaInverse 16 val
  pushChars A pos tmp.reverse

/-- `push_char_count`. What it adds at the end, it adds to its own copy of a pointer. -/
def pushCharCount (pos : UInt32) (c : CChar) (count : UInt32) : CodecM σ UInt32 := do
  if count == 0 then return pos
  let pos ← pushChar A pos c
  if count == 1 then return pos
  pushInt A pos count

/-- The loop of `compress`, with `n` bytes from `i` on still to read. -/
def compressFrom : ℕ → (i : UInt32) → (lastChar : CChar) → (count pos : UInt32) → CodecM σ UInt32
  | 0, _, lastChar, count, pos => pushCharCount A pos lastChar count
  | n + 1, i, lastChar, count, pos => do
    let c ← peek A i
    if c == lastChar then compressFrom n (i + 1) lastChar (count + 1) pos
    else
      let pos ← pushCharCount A pos lastChar count
      compressFrom n (i + 1) c 1 pos

def compress (srcLen : UInt32) : CodecM σ UInt32 := compressFrom A srcLen.toNat 0 0 0 0

/-! ## The decoder -/

/-- `push_decompressed`, with the position it leaves; afterwards the count is zero and no number is
being read. -/
def pushDecompressed (lastChar : CChar) : (count : ℕ) → UInt32 → CodecM σ UInt32
  | count + 2, pos => do pushDecompressed lastChar (count + 1) (← pushChar A pos lastChar)
  | _, pos => return pos

/-- The loop of `decompress`, with `n` bytes from `i` on still to read. Nothing is pushed for the
last character while there is none, but then a count is not taken back either. -/
def decompressFrom : ℕ → (i count pos : UInt32) → (lastChar : CChar) → (parsing : Bool) →
    CodecM σ Unit
  | 0, _, count, pos, lastChar, _ => do
    let _ ← pushDecompressed A lastChar count.toNat pos
  | n + 1, i, count, pos, lastChar, parsing => do
    let c ← peek A i
    if !isDigit c then
      if pos > 0 then
        let pos ← pushDecompressed A lastChar count.toNat pos
        decompressFrom n (i + 1) 0 (← pushChar A pos c) c false
      else decompressFrom n (i + 1) count (← pushChar A pos c) c parsing
    else
      let count := if parsing then 10 * count else 0
      decompressFrom n (i + 1) ((count + c.toInt32.toUInt32 - 48) % 26) pos lastChar true

def decompress (srcLen : UInt32) : CodecM σ Unit := decompressFrom A srcLen.toNat 0 0 0 0 false

/-! ## The cipher -/

/-- `finish_push_number`, with the position it leaves. -/
def finishPushNumber (pos : UInt32) (value : CChar) (parsing : Bool) : CodecM σ UInt32 :=
  if parsing then pushChar A pos value else return pos

/-- The loop of `normalize_key`, with `n` bytes from `i` on still to read, and its new length. -/
def normalizeFrom : ℕ → (i count j : UInt32) → (parsing : Bool) → CodecM σ UInt32
  | 0, _, count, j, parsing => finishPushNumber A j (asChar count) parsing
  | n + 1, i, count, j, parsing => do
    let c ← peek A i
    if isDigit c then
      let count := if parsing then 10 * count else 0
      normalizeFrom n (i + 1) ((count + c.toInt32.toUInt32 - 48) % 26) j true
    else
      let j ← finishPushNumber A j (asChar count) parsing
      let j ← pushChar A j (if isLower c then c - 97 else c - 65)
      normalizeFrom n (i + 1) count j false

end Arrays

/-- `normalize_key`, with the length it leaves. -/
def normalizeKey (keyLen : UInt32) : CodecM (List CChar) UInt32 :=
  normalizeFrom Arrays.inPlace keyLen.toNat 0 0 0 false

/-- `fmemcpy(dst, src, len)`, with what it makes of `dst`. -/
def fmemcpy (dst src : List CChar) (len : UInt32) : Except Fault (List CChar) :=
  if len.toNat ≤ src.length ∧ len.toNat ≤ dst.length then
    return src.take len.toNat ++ dst.drop len.toNat
  else throw .pointer

/-- `fmemset(name, value, len)`, with what it makes of the array. -/
def fmemset (name : List CChar) (value : CChar) (len : UInt32) : Except Fault (List CChar) :=
  if len.toNat ≤ name.length then
    return List.replicate len.toNat value ++ name.drop len.toNat
  else throw .pointer

def modeCipher : UInt32 := 0

def modeDecipher : UInt32 := 1

/-- What `cipher` makes of one character, with this byte of the key. -/
def cipherChar (mode : UInt32) (v c : CChar) : CChar :=
  (c - charBase c + (if mode == modeDecipher then 26 - v else v)) % 26 + charBase c

/-- The loop of `cipher`, with `n` bytes from `i` on still to do. -/
def cipherFrom (mode : UInt32) (normKey : List CChar) (normKeyLen : UInt32) :
    ℕ → (i k : UInt32) → CodecM (List CChar) Unit
  | 0, _, _ => return
  | n + 1, i, k => do
    let c ← peek Arrays.inPlace i
    match normKey[k.toNat]? with
    | none => throw .pointer
    | some v =>
      let _ ← pushChar Arrays.inPlace i (cipherChar mode v c)
      if normKeyLen == 0 then throw .division
      cipherFrom mode normKey normKeyLen n (i + 1) ((k + 1) % normKeyLen)

def cipher (normKey : Local) (bufferLen : UInt32) (key : List CChar) (keyLen : UInt32)
    (mode : UInt32) : CodecM (List CChar) UInt32 := do
  if keyLen.toNat > maxSize then return -1
  let normKey ← fmemcpy normKey.val key keyLen
  let (normKeyLen, normKey) ← normalizeKey keyLen normKey
  cipherFrom mode normKey normKeyLen bufferLen.toNat 0 0
  return 0

/-! ## In front of a clipboard -/

def slen : List CChar → (bound : ℕ) → Except Fault ℕ
  | _, 0 => return 0
  | [], _ + 1 => throw .pointer
  | c :: cs, bound + 1 => if c ≠ 0 then return (← slen cs bound) + 1 else return 0

section Safely

variable {τ : Type}

/-- `copy_safely`, with the `*buffer_len` it leaves, for any `copy_to_clipboard`. -/
def copySafely (copyToClipboard : List CChar → UInt32 → StateT τ (Except Fault) Int32)
    (tmp normKey : Local) (buffer : List CChar) (bufferLen : UInt32) (key : List CChar)
    (keyLen : UInt32) : StateT τ (Except Fault) (Int32 × UInt32) := do
  if bufferLen.toNat > maxSize then return (-1, bufferLen)
  let tmp ← fmemcpy tmp.val buffer bufferLen
  let (_, tmp) ← cipher normKey bufferLen key keyLen modeCipher tmp
  let (compressedSize, tmp) ← compress Arrays.inPlace bufferLen tmp
  let res ← copyToClipboard tmp compressedSize
  return (res, compressedSize)

/-- `paste_safely`, with the `buffer` it leaves, for any `paste_from_clipboard`. -/
def pasteSafely
    (pasteFromClipboard : UInt32 → List CChar → UInt32 →
      StateT τ (Except Fault) (UInt32 × List CChar × UInt32))
    (tmp normKey : Local) (id : UInt32) (buffer : List CChar) (bufferLen : UInt32)
    (key : List CChar) (keyLen : UInt32) : StateT τ (Except Fault) (UInt32 × List CChar) := do
  let (res, tmp, _) ← pasteFromClipboard id tmp.val bufferLen
  if res ≠ 0 then return (res, buffer)
  let compressedLen ← slen tmp bufferLen.toNat
  let buffer ← fmemset buffer 0 bufferLen
  let (_, _, buffer) ← decompress Arrays.apart (UInt32.ofNat compressedLen) (tmp, buffer)
  let decompressedLen ← slen buffer bufferLen.toNat
  let (_, buffer) ← cipher normKey (UInt32.ofNat decompressedLen) key keyLen modeDecipher buffer
  return (res, buffer)

end Safely

end Codec

end MinixClipboard
