import MinixClipboard.Asm.Bytes
import MinixClipboard.Codec.Returns
import MinixClipboard.Library.I386.Arithmetic
import MinixClipboard.Library.I386.Frame

/-!
# The key in the assembler's `cipher`

The first two loops of `cipher` copy the key to the frame and normalise it there. In the frame, at
`f`, there are the end of the key, and later the base of a character (at 0), the end of the buffer
(4), the key (8 to 1031), the saved registers (1032 to 1047), the address to return to (1048) and
the arguments (1052 to 1071). The length of the key, at 1064, makes room for the position at which
the normalised key is written.
-/

namespace MinixClipboard

namespace Asm

namespace Cipher

open I386 Mem Routine Codec

/-- `cipher`, which makes no calls. -/
def routine (τ : Type) : Routine Empty τ where
  call := nofun
  call_mono {f} := nomatch f
  code := code
  site _ := 0

/-! ## The frame -/

/-- Nothing is stored in the part of the frame that is not written, nor outside the frame and the
first `len` bytes of the buffer. -/
def Kept (f b : UInt32) (len : ℕ) (mem₁ mem : Mem) : Prop :=
  ∀ x, 1032 ≤ ofs f x → ofs f x < 1064 ∨ 1068 ≤ ofs f x → len ≤ ofs b x → mem x = mem₁ x

/-- The frame while the key is normalised. -/
structure KeyFrame (f b last j : UInt32) (key : List CChar) (mem₁ mem : Mem) : Prop where
  last : mem.word f = last
  pos : mem.word (f + 1064) = j
  chars : mem.Chars (f + 8) key
  length : key.length = 1024
  kept : Kept f b 0 mem₁ mem

variable {f b last j j' i count : UInt32} {key : List CChar} {mem₁ mem : Mem} {len : ℕ}

theorem ofs_key (f : UInt32) (hi : i.toNat < 1024) : ofs f (f + 8 + i) = 8 + i.toNat := by
  simp [ofs_add]
  omega

theorem Kept.setByte (h : Kept f b len mem₁ mem) {x : UInt32} (hx : ofs f x < 1032) (c : UInt8) :
    Kept f b len mem₁ (mem.setByte x c) := fun y hy hy' hlen ↦ by
  rw [setByte_of_ne fun heq ↦ by subst heq; omega, h y hy hy' hlen]

theorem Kept.setWord (h : Kept f b len mem₁ mem) {x : UInt32}
    (hx : ofs f x + 4 ≤ 1032 ∨ x = f + 1064)
    (w : UInt32) : Kept f b len mem₁ (mem.setWord x w) := fun y hy hy' hlen ↦ by
  have hlt := ofs_lt f x
  rw [setWord_of_le (le_ofs (f := f) ?_), h y hy hy' hlen]
  rcases hx with hx | rfl
  · omega
  · simp
    omega

theorem Kept.mono {len' : ℕ} (h : Kept f b len mem₁ mem) (hlen : len ≤ len') :
    Kept f b len' mem₁ mem := fun y hy hy' hlen' ↦ h y hy hy' (hlen.trans hlen')

theorem Kept.word (h : Kept f b 0 mem₁ mem) {d : UInt32}
    (hd : 1032 ≤ d.toNat ∧ d.toNat < 1061 ∨ 1068 ≤ d.toNat ∧ d.toNat < 1100) :
    mem.word (f + d) = mem₁.word (f + d) :=
  word_congr fun x hx ↦ by
    have hcases := ofs_eq f (f + d) x
    rw [ofs_add_self] at hcases
    exact h x (by omega) (by omega) (Nat.zero_le _)

theorem Kept.chars {a : UInt32} {l : List CChar} (h : Kept f b 0 mem₁ mem) (hl : mem₁.Chars a l)
    (hapart : ∀ x, ofs a x < l.length → 1072 ≤ ofs f x) : mem.Chars a l :=
  hl.congr fun x hx ↦ by
    have hx' := hapart x hx
    exact h x (by omega) (by omega) (Nat.zero_le _)

theorem Kept.saved {m₀ : Machine} (h : Kept f b len mem₁ mem) (hsaved : Saved m₀ (f + 1032) mem₁)
    (hapart : ∀ x, ofs b x < len → 1072 ≤ ofs f x) : Saved m₀ (f + 1032) mem :=
  hsaved.congr fun x hx ↦ by
    have hcases := ofs_eq f (f + 1032) x
    rw [ofs_add_self] at hcases
    have hofs : 1032 ≤ ofs f x ∧ ofs f x < 1052 := by simp at hcases; omega
    exact h x hofs.1 (by omega) (Nat.not_lt.mp fun hlt ↦ absurd (hapart x hlt) (by omega))

theorem KeyFrame.setByte (h : KeyFrame f b last j key mem₁ mem) (hi : i.toNat < 1024) (c : CChar) :
    KeyFrame f b last j (key.set i.toNat c) mem₁ (mem.setByte (f + 8 + i) c.toUInt8) := by
  have hofs := ofs_key f hi
  refine ⟨?_, ?_, h.chars.set i c, by rw [List.length_set, h.length], h.kept.setByte (by omega) _⟩
  · rw [word_setByte_of_le (le_ofs (f := f) (by simp [hofs]; omega)), h.last]
  · rw [word_setByte_of_le (le_ofs (f := f) (by simp [hofs]; omega)), h.pos]

theorem KeyFrame.setPos (h : KeyFrame f b last j key mem₁ mem) (j' : UInt32) :
    KeyFrame f b last j' key mem₁ (mem.setWord (f + 1064) j') := by
  refine ⟨?_, word_setWord_self, ?_, h.length, h.kept.setWord (.inr rfl) _⟩
  · rw [word_setWord_of_le fun y hy ↦ le_ofs (f := f) (by simp [ofs] at *; omega), h.last]
  · refine h.chars.setWord_of_le fun y hy ↦ le_ofs (f := f) ?_
    have hcases := ofs_eq f (f + 8) y
    rw [h.length] at hy
    simp at *
    omega

/-! ## Normalising -/

variable {τ : Type} {w : τ} {Q : UInt32 → Machine → τ → Prop} {m : Machine} {n : ℕ} {r : UInt32}
  {key' : List CChar} {parsing : Bool} {c : CChar}

/-- The machine before a character of the key is read. -/
structure Normalizing (f b last i count j : UInt32) (parsing : Bool) (key : List CChar) (mem₁ : Mem)
    (m : Machine) : Prop where
  esp : m.esp = f
  ecx : m.ecx = f + 8 + i
  edx : m.edx = count
  esi : m.esi = if parsing then 0 else 1
  frame : KeyFrame f b last j key mem₁ m.mem

/-- The machine before the value of a letter is written. -/
structure Pushing (f b last i count j : UInt32) (c : CChar) (key : List CChar) (mem₁ : Mem)
    (m : Machine) : Prop where
  esp : m.esp = f
  eax : m.eax = c.toInt32.toUInt32
  ecx : m.ecx = f + 8 + i
  edx : m.edx = count
  edi : m.edi = j + 1
  ebp : m.ebp = f + 8 + j
  frame : ∃ j', KeyFrame f b last j' key mem₁ m.mem

/-- Where the loop goes on behind the test for the end of the key. -/
def atEnd (last r : UInt32) : List (Line Empty) :=
  if last = r then behind 33 code else behind 10 code

theorem ends_l7 (h : Normalizing f b last i count j parsing key mem₁ m)
    (hnext : ∀ m', Normalizing f b last (i + 1) count j parsing key mem₁ m' →
      (routine τ).Ends (atEnd last (f + 8 + (i + 1))) m' w Q) :
    (routine τ).Ends (behind 7 code) m w Q := by
  change (routine τ).Ends (l7 ++ .label 10 :: behind 10 code) _ _ _
  simp [l7, h.esp, h.ecx, h.frame.last, ite_ends, UInt32.add_assoc (f + 8) i 1]
  exact hnext _ ⟨rfl, rfl, h.edx, h.esi, h.frame⟩

theorem ends_l8 (h : Pushing f b last i count j c key mem₁ m) (hj : j.toNat < 1024)
    (hnext : ∀ m', Normalizing f b last (i + 1) count (j + 1) false
      (key.set j.toNat (if isLower c then c - 97 else c - 65)) mem₁ m' →
      (routine τ).Ends (atEnd last (f + 8 + (i + 1))) m' w Q) :
    (routine τ).Ends (behind 8 code) m w Q := by
  obtain ⟨j', hframe⟩ := h.frame
  change (routine τ).Ends (l8 ++ .label 33 :: behind 33 code) _ _ _
  simp [l8, h.esp, h.eax, h.ecx, h.edi, h.ebp, ite_ends, UInt32.add_assoc (f + 8) i 1]
  rw [toUInt8_add_neg_97]
  by_cases hlower : isLower c = true
  · rw [if_neg (UInt8.not_lt.mpr ((sub_97_le_iff c).mpr hlower))]
    have hframe' := (hframe.setByte hj (c - 97)).setPos (j + 1)
    rw [hframe'.last]
    refine hnext _ ⟨rfl, rfl, h.edx, rfl, ?_⟩
    rw [if_pos hlower]
    exact hframe'
  · rw [if_pos (UInt8.not_le.mp (mt (sub_97_le_iff c).mp hlower))]
    change (routine τ).Ends (l9 ++ .label 16 :: behind 16 code) _ _ _
    simp only [l9, List.cons_append, List.nil_append]
    simp
    refine ends_l7 ⟨rfl, rfl, h.edx, rfl, ?_⟩ hnext
    rw [if_neg hlower]
    exact (hframe.setPos (j + 1)).setByte hj (c - 65)

theorem ends_l6 {e : UInt32} (hesp : m.esp = f) (heax : m.eax = c.toInt32.toUInt32)
    (hedi : m.edi = e)
    (hecx : m.ecx = f + 8 + i) (hframe : KeyFrame f b last j key mem₁ m.mem)
    (hnext : ∀ m', Normalizing f b last (i + 1) ((e + c.toInt32.toUInt32 - 48) % 26) j true key
      mem₁ m' → (routine τ).Ends (atEnd last (f + 8 + (i + 1))) m' w Q) :
    (routine τ).Ends (behind 6 code) m w Q := by
  have hsum : e + -48 + c.toInt32.toUInt32 = e + c.toInt32.toUInt32 - 48 := by grind
  change (routine τ).Ends (l6 ++ .label 7 :: behind 7 code) _ _ _
  simp [l6, heax, hedi, mulHigh_shr_26]
  refine ends_l7 ⟨hesp, hecx, ?_, rfl, hframe⟩ hnext
  rw [hsum, sub_div_mul]

theorem ends_l34 (h : Normalizing f b last i count j parsing key mem₁ m)
    (heax : m.eax = c.toInt32.toUInt32)
    (hnext : ∀ m', Normalizing f b last (i + 1)
      (((if parsing then 10 * count else 0) + c.toInt32.toUInt32 - 48) % 26) j true key mem₁ m' →
      (routine τ).Ends (atEnd last (f + 8 + (i + 1))) m' w Q) :
    (routine τ).Ends (behind 34 code) m w Q := by
  have hten : count + count * 4 + (count + count * 4) = 10 * count := by grind
  change (routine τ).Ends (l34 ++ .label 6 :: behind 6 code) _ _ _
  simp [l34, h.esi, h.edx]
  cases parsing with
  | true => exact ends_l6 h.esp heax hten h.ecx h.frame hnext
  | false => exact ends_l6 h.esp heax rfl h.ecx h.frame hnext

theorem ends_l10 (h : Normalizing f b last i count j parsing key mem₁ m)
    (hloop : normalizeFrom Arrays.inPlace (n + 1) i count j parsing key = .ok (r, key'))
    (hnext : ∀ count' j' parsing' key₁ m',
      Normalizing f b last (i + 1) count' j' parsing' key₁ mem₁ m' →
      normalizeFrom Arrays.inPlace n (i + 1) count' j' parsing' key₁ = .ok (r, key') →
      (routine τ).Ends (atEnd last (f + 8 + (i + 1))) m' w Q) :
    (routine τ).Ends (behind 10 code) m w Q := by
  obtain ⟨c, hc, hdigit, hother⟩ := of_normalizeFrom_succ hloop
  change (routine τ).Ends (l10 ++ .label 8 :: behind 8 code) _ _ _
  simp [l10, h.esp, h.ecx, h.edx, h.esi, h.frame.chars i c hc, h.frame.pos]
  rw [toUInt8_add_neg_48]
  by_cases hd : isDigit c = true
  · rw [if_pos ((sub_48_le_iff c).mpr hd)]
    exact ends_l34 ⟨rfl, rfl, rfl, rfl, h.frame⟩ rfl fun m' h' ↦ hnext _ _ _ _ m' h' (hdigit hd)
  · rw [if_neg (mt (sub_48_le_iff c).mp hd)]
    obtain ⟨j₁, key₁, hfinish, hj₁, hrest⟩ := hother (Bool.eq_false_iff.mpr hd)
    rcases of_finishPushNumber hfinish with ⟨rfl, hj, rfl, rfl⟩ | ⟨rfl, rfl, rfl⟩
    · -- the number before the letter is written first
      have hset := h.frame.setByte (h.frame.length ▸ hj) (asChar count)
      rw [if_pos rfl]
      refine ends_l8 ⟨rfl, rfl, rfl, rfl, ?_, rfl, j, hset⟩ (hset.length ▸ hj₁) fun m' h' ↦
        hnext _ _ _ _ m' h' hrest
      change j + 2 = j + 1 + 1
      grind
    · -- no number comes before it
      rw [if_neg Bool.false_ne_true]
      exact ends_l8 ⟨rfl, rfl, rfl, rfl, rfl, rfl, _, h.frame⟩ (h.frame.length ▸ hj₁) fun m' h' ↦
        hnext _ _ _ _ m' h' hrest

/-- The machine when the key is normalised. -/
structure Normalized (f b r : UInt32) (key' : List CChar) (mem₁ : Mem) (m : Machine) : Prop where
  esp : m.esp = f
  ebx : m.ebx = r
  chars : m.mem.Chars (f + 8) key'
  length : key'.length = 1024
  kept : Kept f b 0 mem₁ m.mem

theorem ends_l33 (h : Normalizing f b last i count j parsing key mem₁ m)
    (hfinish : finishPushNumber Arrays.inPlace j (asChar count) parsing key = .ok (r, key'))
    (hnext : ∀ m', Normalized f b r key' mem₁ m' → (routine τ).Ends (behind 3 code) m' w Q) :
    (routine τ).Ends (behind 33 code) m w Q := by
  change (routine τ).Ends (l33 ++ .label 3 :: behind 3 code) _ _ _
  simp [l33, h.esp, h.edx, h.esi, h.frame.pos]
  rcases of_finishPushNumber hfinish with ⟨rfl, hj, rfl, rfl⟩ | ⟨rfl, rfl, rfl⟩
  · have hset := h.frame.setByte (h.frame.length ▸ hj) (asChar count)
    rw [if_pos rfl]
    exact hnext _ ⟨rfl, rfl, hset.chars, hset.length, hset.kept⟩
  · rw [if_neg Bool.false_ne_true]
    exact hnext _ ⟨rfl, rfl, h.frame.chars, h.frame.length, h.frame.kept⟩

/-- The key is normalised as it is by the loop of `normalize_key`. -/
theorem ends_normalize (hi : i.toNat + n < 1024)
    (h : Normalizing f b (f + 8 + (i + UInt32.ofNat (n + 1))) i count j parsing key mem₁ m)
    (hloop : normalizeFrom Arrays.inPlace (n + 1) i count j parsing key = .ok (r, key'))
    (hnext : ∀ m', Normalized f b r key' mem₁ m' → (routine τ).Ends (behind 3 code) m' w Q) :
    (routine τ).Ends (behind 10 code) m w Q := by
  induction n generalizing i count j parsing key m with
  | zero =>
    refine ends_l10 h hloop fun count' j' parsing' key₁ m' h' hrest ↦ ?_
    rw [atEnd, show UInt32.ofNat (0 + 1) = 1 from rfl, if_pos rfl]
    exact ends_l33 h' hrest hnext
  | succ n ih =>
    have hi' := toNat_add_one (i := i) (n := 1024) (by omega) (by decide)
    -- more is left, so the pointer is not at the end
    have hne := ofNat_succ_ne_zero (n := n) (by omega)
    refine ends_l10 h hloop fun count' j' parsing' key₁ m' h' hrest ↦ ?_
    rw [add_ofNat_succ] at h' ⊢
    rw [atEnd, if_neg fun heq ↦ hne (by grind)]
    exact ih (by omega) h' hrest

/-! ## Copying -/

/-- The machine before a character of the key is copied. -/
structure Copying (f b k : UInt32) (i : ℕ) (key junk : List CChar) (mem₁ : Mem) (m : Machine) :
    Prop where
  esp : m.esp = f
  eax : m.eax = UInt32.ofNat i
  ebx : m.ebx = UInt32.ofNat key.length
  ecx : m.ecx = k
  chars : m.mem.Chars (f + 8) (key.take i ++ junk.drop i)
  kept : Kept f b 0 mem₁ m.mem

variable {k : UInt32} {junk : List CChar}

theorem keyFrame_start (hchars : mem.Chars (f + 8) key) (hlength : key.length = 1024)
    (hkept : Kept f b 0 mem₁ mem) (last : UInt32) :
    KeyFrame f b last 0 key mem₁ ((mem.setWord f last).setWord (f + 1064) 0) := by
  refine KeyFrame.setPos ⟨word_setWord_self, rfl, ?_, hlength, hkept.setWord (by simp) _⟩ 0
  refine hchars.setWord_of_le fun y hy ↦ le_ofs (f := f) ?_
  have hcases := ofs_eq f (f + 8) y
  rw [hlength] at hy
  simp at *
  omega

section Loop

variable (hkey : mem₁.Chars k key) (hapart : ∀ x, ofs k x < key.length → 1072 ≤ ofs f x)
  (hsize : key.length ≤ 1024) (hjunk : junk.length = 1024)
include hkey hapart hsize hjunk

theorem ends_l4 {i : ℕ} (hi : i < key.length) (h : Copying f b k i key junk mem₁ m)
    (hmore : i + 1 ≠ key.length → ∀ m', Copying f b k (i + 1) key junk mem₁ m' →
      (routine τ).Ends (behind 4 code) m' w Q)
    (hdone : i + 1 = key.length → ∀ m', Normalizing f b (f + 8 + UInt32.ofNat key.length) 0 0 0
      false (key ++ junk.drop key.length) mem₁ m' → (routine τ).Ends (behind 10 code) m' w Q) :
    (routine τ).Ends (behind 4 code) m w Q := by
  have hword : (UInt32.ofNat i).toNat = i := toNat_ofNat (by omega)
  have hc := List.getElem?_eq_getElem hi
  have hkey' : m.mem.Chars k key := h.kept.chars hkey hapart
  have hbyte : m.mem (k + UInt32.ofNat i) = key[i].toUInt8 := hkey' _ _ (by rw [hword]; exact hc)
  have hcopied := h.chars.copy hc (by omega) (by omega)
  have hkept := h.kept.setByte (x := f + 8 + UInt32.ofNat i)
    (by rw [ofs_key f (by omega), hword]; omega) key[i].toUInt8
  change (routine τ).Ends (l4 ++ .label 34 :: behind 34 code) _ _ _
  simp [l4, h.esp, h.eax, h.ebx, h.ecx, hbyte]
  rw [ofNat_add_one]
  -- behind the last character comes the loop that normalises the copy
  by_cases hlast : i + 1 = key.length
  · rw [if_pos (by rw [hlast])]
    refine hdone hlast _ ⟨rfl, (UInt32.add_zero _).symm, rfl, rfl, ?_⟩
    rw [hlast, List.take_length] at hcopied
    exact keyFrame_start hcopied (by simp; omega) hkept _
  · rw [if_neg fun heq ↦ hlast ?_]
    · exact hmore hlast _ ⟨rfl, rfl, rfl, rfl, hcopied, hkept⟩
    · rw [← UInt32.toNat_inj, toNat_ofNat (by omega), toNat_ofNat (by omega)] at heq
      exact heq.symm

theorem ends_copy {i : ℕ} (hi : i + n + 1 = key.length) (h : Copying f b k i key junk mem₁ m)
    (hnext : ∀ m', Normalizing f b (f + 8 + UInt32.ofNat key.length) 0 0 0 false
      (key ++ junk.drop key.length) mem₁ m' → (routine τ).Ends (behind 10 code) m' w Q) :
    (routine τ).Ends (behind 4 code) m w Q := by
  induction n generalizing i m with
  | zero =>
    exact ends_l4 hkey hapart hsize hjunk (by omega) h (fun hne ↦ absurd hi hne) fun _ ↦ hnext
  | succ n ih =>
    exact ends_l4 hkey hapart hsize hjunk (by omega) h (fun _ m' h' ↦ ih (by omega) h')
      fun heq ↦ by omega

end Loop

end Cipher

end Asm

end MinixClipboard
