import MinixClipboard.Codec.Arrays
import MinixClipboard.Library.Runs

/-!
# The encoder

A run is written as its byte, and behind it the length of the run in decimal, unless this is one.
`piece` is what is written for a run and `encoded` for a list of runs; `compress` writes `encoded`
of the runs of what it reads (`compress_eq`), to an array of its own or over what it reads.

In place this needs the pieces to stay behind the loop. The piece of a run never has more bytes than
the run, and it grows by at most one byte as the run does, so it does.
-/

namespace MinixClipboard

namespace Codec

open Fallible Runs

/-- What is written for a run. -/
def piece (r : CChar × ℕ) : List CChar :=
  if r.2 = 0 then [] else if r.2 = 1 then [r.1] else r.1 :: decimal r.2

/-- What is written for a list of runs. -/
def encoded (rs : List (CChar × ℕ)) : List CChar := rs.flatMap piece

@[simp] theorem encoded_nil : encoded [] = [] := rfl

@[simp] theorem encoded_cons (r : CChar × ℕ) (rs : List (CChar × ℕ)) :
    encoded (r :: rs) = piece r ++ encoded rs := rfl

@[simp] theorem piece_zero (c : CChar) : piece (c, 0) = [] := rfl

@[simp] theorem piece_one (c : CChar) : piece (c, 1) = [c] := rfl

theorem piece_of_two_le {c : CChar} {n : ℕ} (hn : 2 ≤ n) : piece (c, n) = c :: decimal n := by
  rw [piece, if_neg (by simp only; omega), if_neg (by simp only; omega)]

/-! ## Lengths -/

theorem length_piece_succ_le (c : CChar) (n : ℕ) :
    (piece (c, n + 1)).length ≤ (piece (c, n)).length + 1 := by
  rcases Nat.lt_or_ge n 2 with hn | hn
  · have hcases : n = 0 ∨ n = 1 := by omega
    rcases hcases with rfl | rfl
    · exact Nat.le_refl _
    · rw [piece_of_two_le (Nat.le_refl 2), piece_one, List.length_cons, List.length_singleton]
      exact Nat.succ_le_succ (by decide)
  · rw [piece_of_two_le hn, piece_of_two_le (by omega), List.length_cons, List.length_cons]
    exact Nat.succ_le_succ (length_decimal_succ_le n)

theorem length_encoded_runsFrom_le (c : CChar) (n : ℕ) (l : List CChar) :
    (encoded (runsFrom c n l)).length ≤ (piece (c, n)).length + l.length := by
  induction l generalizing c n with
  | nil => rw [runsFrom, encoded_cons, encoded_nil, List.append_nil, List.length_nil, Nat.add_zero]
  | cons d ds ih =>
    rw [runsFrom, List.length_cons]
    split
    · have hgrow := length_piece_succ_le c n
      have hrest := ih c (n + 1)
      omega
    · have hrest := ih d 1
      rw [piece_one, List.length_singleton] at hrest
      rw [encoded_cons, List.length_append]
      omega

/-- The loop starts in an empty run of zero bytes, which leaves no trace. -/
theorem encoded_runsFrom_zero (l : List CChar) : encoded (runsFrom 0 0 l) = encoded (runs l) := by
  cases l with
  | nil => rfl
  | cons d ds =>
    rw [runsFrom, runs]
    split
    · rename_i hd
      rw [hd]
    · rw [encoded_cons, piece_zero, List.nil_append]

/-- The encoding is no longer than what is read. -/
theorem length_encoded_runs_le (l : List CChar) : (encoded (runs l)).length ≤ l.length := by
  rw [← encoded_runsFrom_zero]
  exact (length_encoded_runsFrom_le 0 0 l).trans_eq (Nat.zero_add _)

/-! ## Writing a run -/

theorem itoaInverse_eq {room n : ℕ} (hn : n < 10 ^ room) (hlt : n < 2 ^ 32) :
    itoaInverse room (UInt32.ofNat n) = .ok ((Nat.digits 10 n).map digitChar) := by
  induction room generalizing n with
  | zero =>
    obtain rfl : n = 0 := by omega
    rfl
  | succ room ih =>
    rw [itoaInverse]
    by_cases hpos : n = 0
    · subst hpos
      rfl
    have hval : (UInt32.ofNat n).toNat = n := toNat_ofNat hlt
    have hgt : UInt32.ofNat n > 0 := by
      rw [gt_iff_lt, UInt32.lt_iff_toNat_lt, hval]
      exact Nat.pos_of_ne_zero hpos
    have hdiv : UInt32.ofNat n / 10 = UInt32.ofNat (n / 10) := by
      rw [← UInt32.toNat_inj, UInt32.toNat_div, hval, toNat_ofNat (by omega)]
      rfl
    have hchar : asChar (48 + UInt32.ofNat n % 10) = digitChar (n % 10) := by
      rw [asChar_eq, UInt32.toNat_add, UInt32.toNat_mod, hval]
      change Int8.ofNat ((48 + n % 10) % 2 ^ 32) = digitChar (n % 10)
      rw [Nat.mod_eq_of_lt (by omega), digitChar]
    rw [if_pos hgt, hdiv, ih (by rw [Nat.pow_succ] at hn; omega) (by omega), hchar,
      Nat.digits_def' (by omega) (Nat.pos_of_ne_zero hpos), List.map_cons]
    rfl

variable {σ : Type} {A : Arrays σ} {s : σ} {p i n : ℕ} {c : CChar} {l : List CChar}

theorem pushInt_eq (hn : n < 2 ^ 32) (hp : p + (decimal n).length < 2 ^ 32)
    (hroom : p + (decimal n).length ≤ (A.dst s).length) :
    pushInt A (UInt32.ofNat p) (UInt32.ofNat n) s
      = .ok (UInt32.ofNat (p + (decimal n).length), written A s p (decimal n)) := by
  rw [pushInt, bind_apply, lift_apply, itoaInverse_eq (hn.trans (by decide)) hn]
  exact pushChars_ofNat hp hroom

theorem pushCharCount_eq (hn : n < 2 ^ 32) (hp : p + (piece (c, n)).length < 2 ^ 32)
    (hroom : p + (piece (c, n)).length ≤ (A.dst s).length) :
    pushCharCount A (UInt32.ofNat p) c (UInt32.ofNat n) s
      = .ok (UInt32.ofNat (p + (piece (c, n)).length), written A s p (piece (c, n))) := by
  -- the program compares the count as a word
  have hcount : ∀ k < 2 ^ 32, UInt32.ofNat n = UInt32.ofNat k → n = k := by
    intro k hk h
    rwa [← UInt32.toNat_inj, toNat_ofNat hn, toNat_ofNat hk] at h
  rw [pushCharCount]
  by_cases hzero : n = 0
  · subst hzero
    rw [piece_zero, written_nil]
    rfl
  have hne₀ : ¬(UInt32.ofNat n == 0) = true := fun h ↦
    hzero (hcount 0 (by omega) (beq_iff_eq.mp h))
  rw [if_neg hne₀]
  by_cases hone : n = 1
  · subst hone
    rw [piece_one, List.length_singleton] at hp hroom ⊢
    rw [bind_ok (pushChar_ofNat (by omega) (by omega) c)]
    rfl
  have hne₁ : ¬(UInt32.ofNat n == 1) = true := fun h ↦
    hone (hcount 1 (by omega) (beq_iff_eq.mp h))
  have htwo : piece (c, n) = [c] ++ decimal n := piece_of_two_le (by omega)
  rw [htwo, List.length_append, ← Nat.add_assoc] at hp hroom ⊢
  have hroom' : p + [c].length ≤ (A.dst s).length := by omega
  rw [bind_ok (pushChar_ofNat (by simp at hp; omega) (by simpa using hroom') c),
    if_neg hne₁]
  refine (pushInt_eq hn hp (by rw [length_dst_written hroom']; exact hroom)).trans ?_
  rw [written_written hroom', List.length_singleton]

/-! ## The loop -/

/-- **The encoder's loop.** In a run of `n` times `c`, which it has still to write to position `p`,
and with `l` to read from `i` on, it writes the runs of all this. The piece of the run would not
reach behind `i`; this is what the loop keeps. -/
theorem compressFrom_eq (hsrc : ∀ k < l.length, (A.src s)[i + k]? = l[k]?)
    (hlt : i + l.length < 2 ^ 32) (hn : n ≤ i) (hp : p + (piece (c, n)).length ≤ i)
    (hroom : p + (encoded (runsFrom c n l)).length ≤ (A.dst s).length) :
    compressFrom A l.length (UInt32.ofNat i) c (UInt32.ofNat n) (UInt32.ofNat p) s
      = .ok (UInt32.ofNat (p + (encoded (runsFrom c n l)).length),
        written A s p (encoded (runsFrom c n l))) := by
  induction l generalizing s i p n c with
  | nil =>
    rw [List.length_nil] at hlt
    rw [runsFrom, encoded_cons, encoded_nil, List.append_nil] at hroom ⊢
    exact pushCharCount_eq (by omega) (by omega) hroom
  | cons d ds ih =>
    rw [List.length_cons] at hlt hsrc ⊢
    obtain ⟨hread, hrest⟩ := getElem?_of_cons hsrc
    rw [compressFrom, bind_ok (peek_ofNat (by omega) hread), ofNat_add_one]
    rw [runsFrom] at hroom ⊢
    -- either the run goes on, or it is written out and a new one begins
    by_cases hdc : d = c
    · rw [if_pos hdc] at hroom ⊢
      have hgrow := length_piece_succ_le c n
      rw [if_pos (beq_iff_eq.mpr hdc), ofNat_add_one]
      exact ih hrest (by omega) (by omega) (by omega) hroom
    · rw [if_neg hdc, encoded_cons, List.length_append] at hroom ⊢
      have hroom' : p + (piece (c, n)).length ≤ (A.dst s).length := by omega
      rw [if_neg (by simpa using hdc), bind_ok (pushCharCount_eq (by omega) (by omega) hroom')]
      -- what was written lies before `i`, so the rest can still be read
      have hrest' : ∀ k < ds.length,
          (A.src (written A s p (piece (c, n))))[i + 1 + k]? = ds[k]? := by
        intro k hk
        rw [src_written hroom' (by omega)]
        exact hrest k hk
      rw [← Nat.add_assoc] at hroom ⊢
      refine (ih (n := 1) hrest' (by omega) (by omega) (by rw [piece_one]; simpa using hp)
        (by rw [length_dst_written hroom']; exact hroom)).trans ?_
      rw [written_written hroom']

/-- **The encoder.** `compress` writes the runs of what it reads, also in place. -/
theorem compress_eq (hsrc : ∀ k < l.length, (A.src s)[k]? = l[k]?) (hlt : l.length < 2 ^ 32)
    (hroom : (encoded (runs l)).length ≤ (A.dst s).length) :
    compress A (UInt32.ofNat l.length) s
      = .ok (UInt32.ofNat (encoded (runs l)).length, written A s 0 (encoded (runs l))) := by
  have hloop := compressFrom_eq (A := A) (s := s) (p := 0) (i := 0) (n := 0) (c := 0) (l := l)
    (by simpa using hsrc) (by omega) (Nat.le_refl 0) (Nat.le_refl 0)
    (by rw [encoded_runsFrom_zero]; omega)
  rw [encoded_runsFrom_zero, Nat.zero_add] at hloop
  rw [compress, toNat_ofNat hlt]
  exact hloop

/-! ## In place -/

section InPlace

variable {text dst : List CChar}

/-- **Compressing in place.** Over what it reads `compress` writes the same bytes as to an array of
its own, and no more of them than it reads. -/
theorem compress_inPlace (hlt : text.length < 2 ^ 32) (hdst : text.length ≤ dst.length)
    (rest : List CChar) :
    ∃ out : List CChar, out.length ≤ text.length ∧
      compress Arrays.apart (UInt32.ofNat text.length) (text, dst)
        = .ok (UInt32.ofNat out.length, (text, out ++ dst.drop out.length)) ∧
      compress Arrays.inPlace (UInt32.ofNat text.length) (text ++ rest)
        = .ok (UInt32.ofNat out.length, out ++ (text ++ rest).drop out.length) := by
  have hle := length_encoded_runs_le text
  have happart := compress_eq (A := Arrays.apart) (s := (text, dst)) (fun _ _ ↦ rfl) hlt
    (hle.trans hdst)
  have hinPlace := compress_eq (A := Arrays.inPlace) (s := text ++ rest)
    (fun _ hk ↦ List.getElem?_append_left hk) hlt
    (hle.trans (List.length_append ▸ Nat.le_add_right _ _))
  rw [written_apart] at happart
  rw [written_inPlace] at hinPlace
  exact ⟨encoded (runs text), hle, happart, hinPlace⟩

/-- In place `compress` always has room enough. -/
theorem exists_compress {len : UInt32} (hlen : len.toNat ≤ text.length) :
    ∃ size text', compress Arrays.inPlace len text = .ok (size, text') := by
  have hlength : (text.take len.toNat).length = len.toNat := List.length_take_of_le hlen
  have hcompress := compress_eq (A := Arrays.inPlace) (s := text) (l := text.take len.toNat)
    (fun k hk ↦ (List.getElem?_take_of_lt (hlength ▸ hk)).symm)
      (hlength.trans_lt (UInt32.toNat_lt len))
    ((length_encoded_runs_le _).trans (hlength.trans_le hlen))
  rw [hlength, UInt32.ofNat_toNat] at hcompress
  exact ⟨_, _, hcompress⟩

theorem compress_inPlace_aaa : ∃ out : List CChar, out.length ≤ 3 ∧
    compress Arrays.apart 3 ([97, 97, 97], [0, 0, 0])
      = .ok (UInt32.ofNat out.length, ([97, 97, 97], out ++ [0, 0, 0].drop out.length)) ∧
    compress Arrays.inPlace 3 [97, 97, 97, 48]
      = .ok (UInt32.ofNat out.length, out ++ [97, 97, 97, 48].drop out.length) :=
  @compress_inPlace [97, 97, 97] [0, 0, 0] (by decide) (by decide) [48]

end InPlace

end Codec

end MinixClipboard
