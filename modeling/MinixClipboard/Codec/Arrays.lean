import MinixClipboard.Codec.Model
import MinixClipboard.Library.Fallible

/-!
# Writing to arrays

What the codec writes, it writes from some position on, one character behind the other. `written` is
the state this leads to. Behind what has been written nothing that can be read has changed, even if
both are the same array (`src_written`), and this is all that is needed to see that working in place
does no harm: a function only has to stay behind where it reads.

Positions are words. Where they are known to be small, they are written `UInt32.ofNat p`, and
arithmetic takes place in `p`.
-/

namespace MinixClipboard

namespace Codec

open Fallible

/-! ## Words -/

theorem ofNat_add_one (n : ℕ) : UInt32.ofNat n + 1 = UInt32.ofNat (n + 1) :=
  (UInt32.ofNat_add n 1).symm

theorem toNat_ofNat {n : ℕ} (hn : n < 2 ^ 32) : (UInt32.ofNat n).toNat = n :=
  UInt32.toNat_ofNat_of_lt' hn

theorem exists_toNat_eq_succ {w : UInt32} (hw : w ≠ 0) : ∃ n, w.toNat = n + 1 :=
  Nat.exists_eq_succ_of_ne_zero fun hzero ↦ hw (UInt32.toNat_inj.mp hzero)

theorem ofNat_eq_zero_iff {n : ℕ} (hn : n < 2 ^ 32) : UInt32.ofNat n = 0 ↔ n = 0 := by
  rw [← UInt32.toNat_inj, toNat_ofNat hn, UInt32.toNat_zero]

theorem ofNat_succ_ne_zero {n : ℕ} (hn : n + 1 < 2 ^ 32) : UInt32.ofNat (n + 1) ≠ 0 :=
  mt (ofNat_eq_zero_iff hn).mp (Nat.succ_ne_zero n)

theorem add_ofNat_succ (w : UInt32) (n : ℕ) :
    w + UInt32.ofNat (n + 1) = w + 1 + UInt32.ofNat n := by
  rw [← ofNat_add_one, UInt32.add_comm (UInt32.ofNat n), UInt32.add_assoc]

theorem asChar_eq (w : UInt32) : asChar w = Int8.ofNat w.toNat := by
  rw [← Int8.toBitVec_inj, asChar, UInt8.toBitVec_toInt8, UInt32.toBitVec_toUInt8]
  exact BitVec.eq_of_toNat_eq (by simp)

variable {σ : Type} {A : Arrays σ} {s : σ} {p i : ℕ} {c : CChar} {cs cs' : List CChar}

theorem peek_ofNat (hi : i < 2 ^ 32) (hc : (A.src s)[i]? = some c) :
    peek A (UInt32.ofNat i) s = .ok (c, s) := by
  rw [peek, bind_ok (get_apply s), toNat_ofNat hi, hc]
  rfl

/-! ## What has been written -/

/-- The state once `cs` is written from position `p` on. -/
def written (A : Arrays σ) (s : σ) (p : ℕ) (cs : List CChar) : σ :=
  A.setDst ((A.dst s).take p ++ cs ++ (A.dst s).drop (p + cs.length)) s

theorem dst_written : A.dst (written A s p cs)
    = (A.dst s).take p ++ cs ++ (A.dst s).drop (p + cs.length) := A.dst_setDst _ s

theorem written_nil : written A s p [] = s := by
  rw [written, List.append_nil, List.length_nil, Nat.add_zero, List.take_append_drop, A.setDst_dst]

theorem written_apart (src dst cs : List CChar) :
    written Arrays.apart (src, dst) 0 cs = (src, cs ++ dst.drop cs.length) := by
  refine Prod.ext rfl ?_
  change [] ++ cs ++ dst.drop (0 + cs.length) = _
  rw [List.nil_append, Nat.zero_add]

theorem written_inPlace (s cs : List CChar) :
    written Arrays.inPlace s 0 cs = cs ++ s.drop cs.length := by
  change [] ++ cs ++ s.drop (0 + cs.length) = _
  rw [List.nil_append, Nat.zero_add]

theorem getElem?_of_cons {a l : List CChar} {c : CChar} {i : ℕ}
    (h : ∀ k < l.length + 1, a[i + k]? = (c :: l)[k]?) :
    a[i]? = some c ∧ ∀ k < l.length, a[i + 1 + k]? = l[k]? := by
  refine ⟨h 0 (Nat.succ_pos _), fun k hk ↦ ?_⟩
  rw [Nat.add_right_comm]
  exact h (k + 1) (Nat.succ_lt_succ hk)

section Room

variable (hroom : p + cs.length ≤ (A.dst s).length)
include hroom

theorem length_take_append : ((A.dst s).take p ++ cs).length = p + cs.length := by
  rw [List.length_append, List.length_take]
  omega

theorem length_dst_written : (A.dst (written A s p cs)).length = (A.dst s).length := by
  rw [dst_written, List.length_append, length_take_append hroom, List.length_drop]
  omega

/-- Behind what has been written, nothing that can be read has changed. -/
theorem src_written (hi : p + cs.length ≤ i) :
    (A.src (written A s p cs))[i]? = (A.src s)[i]? := by
  refine A.src_setDst _ s i ?_
  rw [List.getElem?_append_right (by rw [length_take_append hroom]; exact hi),
    length_take_append hroom, List.getElem?_drop, Nat.add_sub_cancel' hi]

theorem written_written : written A (written A s p cs) (p + cs.length) cs'
    = written A s p (cs ++ cs') := by
  rw [written, dst_written, List.take_left' (length_take_append hroom), ← List.drop_drop,
    List.drop_left' (length_take_append hroom), List.drop_drop, written, A.setDst_setDst, written,
    List.length_append, Nat.add_assoc, List.append_assoc _ cs cs']

end Room

theorem pushChar_ofNat (hp : p < 2 ^ 32) (hroom : p < (A.dst s).length) (c : CChar) :
    pushChar A (UInt32.ofNat p) c s = .ok (UInt32.ofNat (p + 1), written A s p [c]) := by
  rw [pushChar, bind_ok (get_apply s), toNat_ofNat hp, if_pos hroom, written,
    List.set_eq_take_append_cons_drop, if_pos hroom, List.append_assoc, List.singleton_append,
    List.length_singleton, ← ofNat_add_one]
  rfl

theorem pushChars_ofNat (hp : p + cs.length < 2 ^ 32) (hroom : p + cs.length ≤ (A.dst s).length) :
    pushChars A (UInt32.ofNat p) cs s = .ok (UInt32.ofNat (p + cs.length), written A s p cs) := by
  induction cs generalizing p s with
  | nil => rw [written_nil]; rfl
  | cons c cs ih =>
    rw [List.length_cons] at hp hroom
    have hroom' : p + [c].length ≤ (A.dst s).length := by rw [List.length_singleton]; omega
    rw [pushChars, bind_ok (pushChar_ofNat (by omega) (by omega) c), ih (by omega)
      (by rw [length_dst_written hroom']; omega), List.length_cons, Nat.add_right_comm,
      ← Nat.add_assoc]
    exact congrArg (fun s' ↦ Except.ok (_, s')) (written_written hroom')

end Codec

end MinixClipboard
