import MinixClipboard.Library.I386.Machine

/-!
# Memory and its parts

What is in the memory is known of double words and of arrays of characters. Stores elsewhere keep
it. That they are elsewhere is seen from how far they are from some common address, such as the
bottom of a stack frame; distances wrap around, and so nothing has to end before the last address.
-/

namespace I386

/-! ## Distances -/

/-- How far an address is from another one. -/
def ofs (a x : UInt32) : ℕ := (x - a).toNat

theorem ofs_lt (a x : UInt32) : ofs a x < 2 ^ 32 := UInt32.toNat_lt _

@[simp] theorem ofs_self (a : UInt32) : ofs a a = 0 := by
  rw [ofs, UInt32.sub_self]
  rfl

theorem ofs_add (a x i : UInt32) : ofs a (x + i) = (ofs a x + i.toNat) % 2 ^ 32 := by
  rw [ofs, ofs, ← UInt32.toNat_add]
  congr 1
  grind

@[simp] theorem ofs_add_self (a i : UInt32) : ofs a (a + i) = i.toNat := by
  rw [ofs_add, ofs_self, Nat.zero_add, Nat.mod_eq_of_lt (UInt32.toNat_lt i)]

@[simp] theorem ofs_add_left (a : UInt32) {d : UInt32} (hd : d ≠ 0) :
    ofs (a + d) a = 2 ^ 32 - d.toNat := by
  have hpos : 0 < d.toNat := by
    rwa [Nat.pos_iff_ne_zero, Ne, ← UInt32.toNat_zero, UInt32.toNat_inj]
  have hsub : a - (a + d) = 0 - d := by grind
  have hlt := UInt32.toNat_lt d
  rw [ofs, hsub, UInt32.toNat_sub, UInt32.toNat_zero]
  omega

@[simp] theorem ofs_add_add (a d e : UInt32) : ofs (a + d) (a + e) = (e - d).toNat := by
  rw [ofs]
  congr 1
  grind

theorem add_sub_eq (a d e : UInt32) : a + d - e = a + (d - e) := by
  grind

theorem ofs_eq (f a x : UInt32) :
    ofs f a ≤ ofs f x ∧ ofs a x = ofs f x - ofs f a ∨
      ofs f x < ofs f a ∧ ofs a x = 2 ^ 32 - ofs f a + ofs f x := by
  have hsub : x - a = (x - f) - (a - f) := by grind
  rw [ofs, ofs, ofs, hsub]
  generalize x - f = p
  generalize a - f = q
  have hp := UInt32.toNat_lt p
  have hq := UInt32.toNat_lt q
  rw [UInt32.toNat_sub]
  omega

theorem le_ofs {f a x : UInt32} {n : ℕ}
    (h : ofs f a + n ≤ ofs f x ∨ ofs f x < ofs f a ∧ ofs f a + n ≤ 2 ^ 32) : n ≤ ofs a x := by
  have hcases := ofs_eq f a x
  have hlt := ofs_lt f x
  omega

namespace Mem

variable {mem mem' : Mem} {a x y w : UInt32} {b : UInt8}

/-! ## Bytes and double words -/

@[simp] theorem setByte_self : mem.setByte x b x = b := if_pos rfl

theorem setByte_of_ne (h : y ≠ x) : mem.setByte x b y = mem y := if_neg h

theorem setByte_of_lt (h : 0 < ofs x y) : mem.setByte x b y = mem y :=
  setByte_of_ne fun heq ↦ by simp [heq] at h

theorem add_ne_of_le (h : 4 ≤ ofs a y) {i : UInt32} (hi : i.toNat < 4) : y ≠ a + i := by
  rintro rfl
  rw [ofs_add_self] at h
  omega

theorem setWord_of_le (h : 4 ≤ ofs a y) : mem.setWord a w y = mem y := by
  rw [setWord, setByte_of_ne (add_ne_of_le h (by decide)),
    setByte_of_ne (add_ne_of_le h (by decide)), setByte_of_ne (add_ne_of_le h (by decide)),
    setByte_of_lt (by omega)]

theorem word_congr (h : ∀ x, ofs a x < 4 → mem' x = mem x) : mem'.word a = mem.word a := by
  have hbyte : ∀ i : UInt32, i.toNat < 4 → mem' (a + i) = mem (a + i) := fun i hi ↦
    h _ (by rwa [ofs_add_self])
  rw [word, word, h a (by rw [ofs_self]; decide), hbyte 1 (by decide), hbyte 2 (by decide),
    hbyte 3 (by decide)]

theorem word_setByte_of_le (h : 4 ≤ ofs a x) : (mem.setByte x b).word a = mem.word a :=
  word_congr fun y hy ↦ setByte_of_ne fun heq ↦ by subst heq; omega

theorem word_setWord_of_le (h : ∀ y, ofs a y < 4 → 4 ≤ ofs x y) :
    (mem.setWord x w).word a = mem.word a :=
  word_congr fun y hy ↦ setWord_of_le (h y hy)

theorem word_setWord_of_ofs (h : 4 ≤ ofs x a ∧ 4 ≤ ofs a x) :
    (mem.setWord x w).word a = mem.word a :=
  word_setWord_of_le fun y hy ↦ by
    have hcases := ofs_eq x a y
    have hcases' := ofs_eq a x y
    have hlt := ofs_lt x a
    omega

theorem bytes_eq (w : UInt32) : w.toUInt8.toUInt32 ||| (w >>> 8).toUInt8.toUInt32 <<< 8 |||
    (w >>> 16).toUInt8.toUInt32 <<< 16 ||| (w >>> 24).toUInt8.toUInt32 <<< 24 = w := by
  rw [← UInt32.toBitVec_inj]
  refine BitVec.eq_of_getLsbD_eq fun i hi ↦ ?_
  simp only [UInt32.toBitVec_or, UInt32.toBitVec_shiftLeft, UInt32.toBitVec_shiftRight,
    UInt8.toBitVec_toUInt32, UInt32.toBitVec_toUInt8, UInt32.toBitVec_ofNat, BitVec.getLsbD_or,
    BitVec.getLsbD_setWidth, BitVec.reduceMod, BitVec.shiftLeft_eq', BitVec.ushiftRight_eq',
    BitVec.getLsbD_shiftLeft, BitVec.getLsbD_ushiftRight, BitVec.reduceToNat]
  grind

@[simp] theorem word_setWord_self : (mem.setWord a w).word a = w := by
  have hne : ∀ i j : UInt32, i ≠ j → a + i ≠ a + j := fun i j hij h ↦ hij (by grind)
  have hne' : ∀ i : UInt32, i ≠ 0 → a ≠ a + i := fun i hi h ↦ hi (by grind)
  rw [word, setWord, setByte_self, setByte_of_ne (hne 2 3 (by decide)), setByte_self,
    setByte_of_ne (hne 1 3 (by decide)), setByte_of_ne (hne 1 2 (by decide)), setByte_self,
    setByte_of_ne (hne' 3 (by decide)), setByte_of_ne (hne' 2 (by decide)),
    setByte_of_ne (hne' 1 (by decide)), setByte_self, bytes_eq]

theorem toUInt8_word (mem : Mem) (a : UInt32) : (mem.word a).toUInt8 = mem a ∧
    (mem.word a >>> 8).toUInt8 = mem (a + 1) ∧ (mem.word a >>> 16).toUInt8 = mem (a + 2) ∧
      (mem.word a >>> 24).toUInt8 = mem (a + 3) := by
  simp only [word, ← UInt8.toBitVec_inj]
  refine ⟨?_, ?_, ?_, ?_⟩
  all_goals
    refine BitVec.eq_of_getLsbD_eq fun i hi ↦ ?_
    simp only [UInt32.toBitVec_or, UInt32.toBitVec_shiftLeft, UInt32.toBitVec_shiftRight,
      UInt8.toBitVec_toUInt32, UInt32.toBitVec_toUInt8, UInt32.toBitVec_ofNat, BitVec.getLsbD_or,
      BitVec.getLsbD_setWidth, BitVec.reduceMod, BitVec.shiftLeft_eq', BitVec.ushiftRight_eq',
      BitVec.getLsbD_shiftLeft, BitVec.getLsbD_ushiftRight, BitVec.reduceToNat]
    grind

theorem setByte_eq_self (h : mem x = b) : mem.setByte x b = mem := by
  funext y
  by_cases hy : y = x
  · rw [hy, setByte_self, h]
  · exact setByte_of_ne hy

theorem setWord_eq_self (h : mem.word a = w) : mem.setWord a w = mem := by
  subst h
  obtain ⟨h₀, h₁, h₂, h₃⟩ := toUInt8_word mem a
  rw [setWord, setByte_eq_self h₀.symm, setByte_eq_self h₁.symm, setByte_eq_self h₂.symm,
    setByte_eq_self h₃.symm]

/-! ## Arrays -/

/-- At an address there are these characters. -/
def Chars (mem : Mem) (a : UInt32) (l : List Int8) : Prop :=
  ∀ i c, l[UInt32.toNat i]? = some c → mem (a + i) = c.toUInt8

/-- The characters at an address. -/
def chars (mem : Mem) (a : UInt32) (n : ℕ) : List Int8 :=
  (List.range n).map fun i ↦ (mem (a + UInt32.ofNat i)).toInt8

@[simp] theorem length_chars (mem : Mem) (a : UInt32) (n : ℕ) : (mem.chars a n).length = n := by
  rw [chars, List.length_map, List.length_range]

theorem chars_chars (mem : Mem) (a : UInt32) (n : ℕ) : mem.Chars a (mem.chars a n) := by
  intro i c hc
  rw [chars, List.getElem?_map, Option.map_eq_some_iff] at hc
  obtain ⟨k, hk, rfl⟩ := hc
  obtain ⟨-, rfl⟩ := List.getElem?_eq_some_iff.mp hk
  rw [List.getElem_range, UInt32.ofNat_toNat, UInt8.toUInt8_toInt8]

variable {l : List Int8} {i : UInt32} {c : Int8}

theorem Chars.chars_eq (h : mem.Chars a l) {n : ℕ} (hlength : l.length = n) (hlt : n < 2 ^ 32) :
    mem.chars a n = l := by
  subst hlength
  refine List.ext_getElem (length_chars ..) fun k hk hk' ↦ ?_
  have hword : (UInt32.ofNat k).toNat = k := UInt32.toNat_ofNat_of_lt' (hk'.trans hlt)
  have hbyte := h (UInt32.ofNat k) l[k] (by rw [hword]; exact List.getElem?_eq_getElem hk')
  simp only [chars, List.getElem_map, List.getElem_range, hbyte, Int8.toInt8_toUInt8]

theorem Chars.congr (h : mem.Chars a l) (hsame : ∀ x, ofs a x < l.length → mem' x = mem x) :
    mem'.Chars a l := fun i c hc ↦ by
  have hi := (List.getElem?_eq_some_iff.mp hc).1
  rw [hsame _ (by rwa [ofs_add_self]), h i c hc]

theorem Chars.setByte_of_le (h : mem.Chars a l) (hx : l.length ≤ ofs a x) :
    (mem.setByte x b).Chars a l :=
  h.congr fun y hy ↦ setByte_of_ne fun heq ↦ by subst heq; omega

theorem Chars.setWord_of_le (h : mem.Chars a l) (hx : ∀ y, ofs a y < l.length → 4 ≤ ofs x y) :
    (mem.setWord x w).Chars a l :=
  h.congr fun y hy ↦ Mem.setWord_of_le (hx y hy)

/-- Characters are written to an address. -/
def setChars (mem : Mem) (a : UInt32) (l : List Int8) : Mem := fun x ↦
  match l[ofs a x]? with
  | some c => c.toUInt8
  | none => mem x

theorem chars_setChars (mem : Mem) (a : UInt32) (l : List Int8) :
    (mem.setChars a l).Chars a l := by
  intro i c hc
  rw [setChars, ofs_add_self, hc]

theorem setChars_of_le (hx : l.length ≤ ofs a x) : mem.setChars a l x = mem x := by
  rw [setChars, List.getElem?_eq_none hx]

theorem chars_singleton (h : mem a = c.toUInt8) : mem.Chars a [c] := by
  intro i d hd
  obtain ⟨hi, rfl⟩ := List.getElem?_eq_some_iff.mp hd
  obtain rfl : i = 0 := UInt32.toNat_inj.mp (Nat.lt_one_iff.mp hi)
  rw [UInt32.add_zero]
  exact h

theorem chars_zeros {n : ℕ} (h : ∀ x, ofs a x < n → mem x = 0) :
    mem.Chars a (List.replicate n 0) := by
  intro i d hd
  rw [List.getElem?_replicate] at hd
  split at hd
  · rename_i hi
    obtain rfl : 0 = d := Option.some.inj hd
    exact h _ (by rwa [ofs_add_self])
  · cases hd

theorem Chars.set (h : mem.Chars a l) (i : UInt32) (c : Int8) :
    (mem.setByte (a + i) c.toUInt8).Chars a (l.set i.toNat c) := by
  intro j d hd
  rw [List.getElem?_set] at hd
  split at hd
  · rename_i heq
    split at hd
    · obtain rfl : c = d := Option.some.inj hd
      rw [UInt32.toNat_inj.mp heq, setByte_self]
    · cases hd
  · rename_i hne
    rw [setByte_of_ne fun heq ↦ hne (by rw [(UInt32.add_right_inj a).mp heq]), h j d hd]

theorem Chars.push (h : mem.Chars a l) (hl : l.length < 2 ^ 32) (c : Int8) :
    (mem.setByte (a + UInt32.ofNat l.length) c.toUInt8).Chars a (l ++ [c]) := by
  have hlen : (UInt32.ofNat l.length).toNat = l.length := UInt32.toNat_ofNat_of_lt' hl
  intro j d hd
  rw [List.getElem?_append] at hd
  split at hd
  · rename_i hj
    rw [setByte_of_ne fun heq ↦ ?_, h j d hd]
    rw [(UInt32.add_right_inj a).mp heq, hlen] at hj
    exact Nat.lt_irrefl _ hj
  · rename_i hj
    have hlt : j.toNat - l.length < 1 := (List.getElem?_eq_some_iff.mp hd).1
    obtain rfl : j = UInt32.ofNat l.length := UInt32.toNat_inj.mp (by omega)
    rw [hlen, Nat.sub_self] at hd
    obtain rfl : c = d := Option.some.inj hd
    exact setByte_self

theorem Chars.copy {src dst : List Int8} {i : ℕ} (h : mem.Chars a (src.take i ++ dst.drop i))
    (hc : src[i]? = some c) (hi : i < dst.length) (hlt : i < 2 ^ 32) :
    (mem.setByte (a + UInt32.ofNat i) c.toUInt8).Chars a
    (src.take (i + 1) ++ dst.drop (i + 1)) := by
  have hset := h.set (UInt32.ofNat i) c
  have hlen : (src.take i).length = i :=
    List.length_take_of_le (List.getElem?_eq_some_iff.mp hc).1.le
  rw [UInt32.toNat_ofNat_of_lt' hlt, List.set_append_right i c hlen.le, hlen, Nat.sub_self,
    List.drop_eq_getElem_cons hi, List.set_cons_zero] at hset
  rw [List.take_add_one, hc, List.append_assoc]
  exact hset

end Mem

end I386
