/-
# Both comparators measure the agreement

The low byte of a little-endian word is the byte it was read from, and the word
moved down by one byte is the word read one byte later. So the zero bytes at the
low end of the exclusive or of two words count the bytes they share, and going
word by word measures the same agreement as going byte by byte.

Key definitions: `agreementAt`.
Key theorems: `lt_agreement_iff`, `zeroBytes_xor`, `Comparator.agreement_eq`.
-/
import Mathlib.Order.Nat
import Backref.Bytes.Agreement

namespace Backref

/-! ### The agreement of lists -/

/-- A limit past the end of the shorter run changes nothing. -/
theorem agreement_eq_min (xs ys : List UInt8) (limit : Nat) :
    agreement xs ys limit = min limit (agreement xs ys (min xs.length ys.length)) := by
  induction limit generalizing xs ys with
  | zero => simp [agreement]
  | succ n ih =>
    rcases xs with _ | ⟨x, xs⟩
    · simp [agreement]
    · rcases ys with _ | ⟨y, ys⟩
      · simp [agreement]
      · rw [List.length_cons, List.length_cons, Nat.add_min_add_right, agreement_cons_succ,
          agreement_cons_succ]
        split
        · rw [ih]; omega
        · omega

theorem agreement_add {xs ys : List UInt8} {n : Nat} (h : agreement xs ys n = n) (m : Nat) :
    agreement xs ys (n + m) = n + agreement (xs.drop n) (ys.drop n) m := by
  induction n generalizing xs ys with
  | zero => simp
  | succ n ih =>
    rcases xs with _ | ⟨x, xs⟩
    · simp [agreement] at h
    · rcases ys with _ | ⟨y, ys⟩
      · simp [agreement] at h
      · rw [agreement_cons_succ] at h
        rw [Nat.add_right_comm, agreement_cons_succ]
        split at h
        · rename_i hxy
          rw [if_pos hxy, ih (by omega)]
          simp only [List.drop_succ_cons]; omega
        · omega

theorem agreement_min (xs ys : List UInt8) (m n : Nat) :
    agreement xs ys (min m n) = min m (agreement xs ys n) := by
  rw [agreement_eq_min xs ys (min m n), agreement_eq_min xs ys n]; omega

/-- Two runs agree past offset `n` exactly if the limit is past it and they have the same byte
at every offset up to it. -/
theorem lt_agreement_iff {xs ys : List UInt8} {limit n : Nat} :
    n < agreement xs ys limit ↔
      n < limit ∧ ∀ k ≤ n, ∃ x, xs[k]? = some x ∧ ys[k]? = some x := by
  induction limit generalizing xs ys n with
  | zero => simp [agreement]
  | succ limit ih =>
    rcases xs with _ | ⟨x, xs⟩
    · simpa [agreement] using fun _ => ⟨0, Nat.zero_le _⟩
    · rcases ys with _ | ⟨y, ys⟩
      · simpa [agreement] using fun _ => ⟨0, Nat.zero_le _⟩
      · rw [agreement_cons_succ]
        constructor
        · intro h
          split at h
          · rename_i hxy
            subst hxy
            cases n with
            | zero =>
              refine ⟨by omega, fun k hk => ⟨x, ?_⟩⟩
              obtain rfl : k = 0 := by omega
              exact ⟨rfl, rfl⟩
            | succ n =>
              obtain ⟨hlt, hsame⟩ := ih.mp (by omega : n < agreement xs ys limit)
              refine ⟨by omega, fun k hk => ?_⟩
              cases k with
              | zero => exact ⟨x, rfl, rfl⟩
              | succ k => simpa using hsame k (by omega)
          · omega
        · rintro ⟨hlt, hsame⟩
          obtain ⟨z, hx, hy⟩ := hsame 0 (by omega)
          have hxy : x = y := by simp_all
          rw [if_pos hxy]
          cases n with
          | zero => omega
          | succ n =>
            have h : n < agreement xs ys limit :=
              ih.mpr ⟨by omega, fun k hk => by simpa using hsame (k + 1) (by omega)⟩
            omega

theorem getElem?_eq_of_lt_agreement {xs ys : List UInt8} {limit k : Nat}
    (h : k < agreement xs ys limit) : ∃ x, xs[k]? = some x ∧ ys[k]? = some x :=
  (lt_agreement_iff.mp h).2 k (Nat.le_refl k)

/-! ### The agreement at two positions -/

/-- The leading bytes shared by the runs that start at two positions of an array, up to a
limit. -/
def agreementAt (bytes : Array UInt8) (p q limit : Nat) : Nat :=
  agreement (bytes.toList.drop p) (bytes.toList.drop q) limit

theorem agreementAt_le (bytes : Array UInt8) (p q limit : Nat) :
    agreementAt bytes p q limit ≤ limit :=
  agreement_le _ _ _

theorem agreementAt_min (bytes : Array UInt8) (p q m n : Nat) :
    agreementAt bytes p q (min m n) = min m (agreementAt bytes p q n) :=
  agreement_min _ _ _ _

theorem lt_agreementAt_iff {bytes : Array UInt8} {p q limit n : Nat} :
    n < agreementAt bytes p q limit ↔
      n < limit ∧ ∀ k ≤ n, ∃ x, bytes[p + k]? = some x ∧ bytes[q + k]? = some x := by
  simp [agreementAt, lt_agreement_iff]

/-- The agreement with an earlier position depends only on the bytes before the end of the later
run. -/
theorem agreementAt_congr {a b : Array UInt8} {p q limit : Nat} (hq : q ≤ p)
    (h : ∀ i < p + limit, a[i]? = b[i]?) : agreementAt a p q limit = agreementAt b p q limit := by
  refine eq_of_forall_lt_iff fun n => ?_
  rw [lt_agreementAt_iff, lt_agreementAt_iff, and_congr_right_iff]
  intro hn
  refine forall₂_congr fun k hk => ?_
  rw [h (p + k) (by omega), h (q + k) (by omega)]

/-! ### Words -/

theorem toNat_byte_or_shift (b : UInt8) (r : UInt64) :
    (b.toUInt64 ||| (r <<< 8)).toNat = 2 ^ 8 * (r.toNat % 2 ^ 56) + b.toNat := by
  have h8 : (8 : UInt64).toNat % 64 = 8 := rfl
  have hs : r.toNat <<< 8 % 2 ^ 64 = 2 ^ 8 * (r.toNat % 2 ^ 56) := by
    rw [Nat.shiftLeft_eq]; omega
  rw [UInt64.toNat_or, UInt64.toNat_shiftLeft, h8, hs, UInt8.toNat_toUInt64, Nat.or_comm,
    Nat.two_pow_add_eq_or_of_lt b.toNat_lt]

theorem byte_or_shift_and (b : UInt8) (r : UInt64) :
    (b.toUInt64 ||| (r <<< 8)) &&& 0xff = b.toUInt64 := by
  have hb := b.toNat_lt
  have hff : (0xff : UInt64).toNat = 2 ^ 8 - 1 := rfl
  apply UInt64.toNat_inj.mp
  rw [UInt64.toNat_and, toNat_byte_or_shift, hff, Nat.and_two_pow_sub_one_eq_mod,
    UInt8.toNat_toUInt64]
  omega

/-- What lies above the low byte is what was moved up, if it had room. -/
theorem byte_or_shift_shiftRight (b : UInt8) {r : UInt64} (h : r.toNat < 2 ^ 56) :
    (b.toUInt64 ||| (r <<< 8)) >>> 8 = r := by
  have hb := b.toNat_lt
  have h8 : (8 : UInt64).toNat % 64 = 8 := rfl
  apply UInt64.toNat_inj.mp
  rw [UInt64.toNat_shiftRight, toNat_byte_or_shift, h8, Nat.shiftRight_eq_div_pow]
  omega

theorem xor_and (x y z : UInt64) : (x ^^^ y) &&& z = (x &&& z) ^^^ (y &&& z) := by
  apply UInt64.toBitVec_inj.mp
  ext i
  simp only [UInt64.toBitVec_and, UInt64.toBitVec_xor, BitVec.getElem_and, BitVec.getElem_xor,
    Bool.and_xor_distrib_right]

theorem View.toNat_littleEndian_lt (v : View) (k : Nat) {n : Nat} (h : n ≤ 8) :
    (v.littleEndian k n).toNat < 2 ^ (8 * n) := by
  induction n generalizing k with
  | zero => simp [littleEndian]
  | succ n ih =>
    have hr := ih (k + 1) (by omega)
    have hb := ((v.get? k).getD 0).toNat_lt
    have hpow : 2 ^ (8 * (n + 1)) = 2 ^ 8 * 2 ^ (8 * n) := by
      rw [← Nat.pow_add]; congr 1; omega
    rw [littleEndian, toNat_byte_or_shift, hpow]
    have := Nat.mod_le (v.littleEndian (k + 1) n).toNat (2 ^ 56)
    omega

/-- The zero bytes at the low end of the exclusive or of two words count the
bytes they share. -/
theorem zeroBytes_xor (a b : View) {k n : Nat} (hn : n ≤ 8) (ha : k + n ≤ a.size)
    (hb : k + n ≤ b.size) :
    zeroBytes (a.littleEndian k n ^^^ b.littleEndian k n) n =
      agreement (a.toList.drop k) (b.toList.drop k) n := by
  induction n generalizing k with
  | zero => simp [zeroBytes, agreement]
  | succ n ih =>
    have hbits : 2 ^ (8 * n) ≤ 2 ^ 56 := Nat.pow_le_pow_right (by omega) (by omega)
    have hra := Nat.lt_of_lt_of_le (a.toNat_littleEndian_lt (k + 1) (n := n) (by omega)) hbits
    have hrb := Nat.lt_of_lt_of_le (b.toNat_littleEndian_lt (k + 1) (n := n) (by omega)) hbits
    obtain ⟨x, hx⟩ : ∃ x, a.get? k = some x := by
      rw [← Option.ne_none_iff_exists']
      exact fun h => absurd ((a.get?_eq_none_iff k).mp h) (by omega)
    obtain ⟨y, hy⟩ : ∃ y, b.get? k = some y := by
      rw [← Option.ne_none_iff_exists']
      exact fun h => absurd ((b.get?_eq_none_iff k).mp h) (by omega)
    have hxy : x.toUInt64 ^^^ y.toUInt64 = 0 ↔ x = y := by
      rw [UInt64.xor_eq_zero_iff, ← UInt64.toNat_inj, UInt8.toNat_toUInt64, UInt8.toNat_toUInt64,
        UInt8.toNat_inj]
    rw [View.drop_toList_of_get? hx, View.drop_toList_of_get? hy, agreement_cons_succ, zeroBytes,
      View.littleEndian, View.littleEndian, hx, hy, xor_and, byte_or_shift_and, byte_or_shift_and,
      UInt64.shiftRight_xor, Option.getD_some, Option.getD_some, byte_or_shift_shiftRight _ hra,
      byte_or_shift_shiftRight _ hrb, ih (by omega) (by omega) (by omega)]
    by_cases h : x = y
    · rw [if_pos (hxy.mpr h), if_pos h]; omega
    · rw [if_neg (mt hxy.mp h), if_neg h]

/-- Runs that agree for `n` bytes have the same word of `n` bytes. -/
theorem littleEndian_eq_of_agreement {a b : View} {k n : Nat}
    (h : agreement (a.toList.drop k) (b.toList.drop k) n = n) :
    a.littleEndian k n = b.littleEndian k n := by
  induction n generalizing k with
  | zero => rfl
  | succ n ih =>
    obtain ⟨x, hx, hy⟩ := getElem?_eq_of_lt_agreement (k := 0) (by rw [h]; omega)
    rw [List.getElem?_drop, Nat.add_zero, View.getElem?_toList] at hx hy
    rw [View.drop_toList_of_get? hx, View.drop_toList_of_get? hy, agreement_cons_succ, if_pos rfl,
      Nat.add_right_cancel_iff] at h
    rw [View.littleEndian, View.littleEndian, hx, hy, ih h]

/-! ### Word by word -/

theorem commonBytes?_eq_none_iff {w : UInt64} : commonBytes? w = none ↔ w = 0 := by
  simp [commonBytes?]

theorem commonBytes?_eq_some_iff {w : UInt64} {n : Nat} :
    commonBytes? w = some n ↔ w ≠ 0 ∧ n = zeroBytes w 8 := by
  unfold commonBytes?
  split
  · simp_all
  · simp_all [wordSize, eq_comm]

namespace Wordwise

theorem agreementFrom_of_le (a b : View) {limit k : Nat} (h : limit ≤ k) :
    agreementFrom a b limit k = limit := by
  rw [agreementFrom, if_neg (by omega)]

theorem word?_eq_some {v : View} {k : Nat} {w : UInt64} (h : v.word? k = some w) :
    k + 8 ≤ v.size ∧ w = v.littleEndian k 8 := by
  unfold View.word? at h
  split at h
  · exact ⟨by assumption, (Option.some.inj h).symm⟩
  · cases h

theorem agreementFrom_eq (a b : View) {limit k : Nat} (hk : k ≤ limit) :
    agreementFrom a b limit k =
      k + Backref.agreement (a.toList.drop k) (b.toList.drop k) (limit - k) := by
  fun_induction agreementFrom a b limit k with
  | case1 k hlt x y hy hx hnone ih =>
    obtain ⟨hka, rfl⟩ := word?_eq_some hx
    obtain ⟨hkb, rfl⟩ := word?_eq_some hy
    have h8 := zeroBytes_xor a b (k := k) (n := 8) (by omega) hka hkb
    rw [commonBytes?_eq_none_iff.mp hnone, show zeroBytes 0 8 = 8 from rfl] at h8
    simp only [wordSize] at ih ⊢
    by_cases hle : k + 8 ≤ limit
    · rw [ih hle, show limit - k = 8 + (limit - (k + 8)) by omega, agreement_add h8.symm,
        List.drop_drop, List.drop_drop]
      omega
    · rw [agreementFrom_of_le a b (by omega), show limit - k = min (limit - k) 8 by omega,
        agreement_min, ← h8]
      omega
  | case2 k hlt x y hy hx n hn =>
    obtain ⟨hka, rfl⟩ := word?_eq_some hx
    obtain ⟨hkb, rfl⟩ := word?_eq_some hy
    obtain ⟨hne, rfl⟩ := commonBytes?_eq_some_iff.mp hn
    have h8 := zeroBytes_xor a b (k := k) (n := 8) (by omega) hka hkb
    have hshort : zeroBytes (a.littleEndian k 8 ^^^ b.littleEndian k 8) 8 ≠ 8 := fun h =>
      hne (UInt64.xor_eq_zero_iff.mpr (littleEndian_eq_of_agreement (h8.symm.trans h)))
    rw [h8] at hshort ⊢
    rw [agreement_eq_min _ _ 8] at hshort ⊢
    rw [agreement_eq_min _ _ (limit - k)]
    omega
  | case3 k hlt hnot => rw [Bytewise.agreementFrom_eq]
  | case4 k hge =>
    have hle : limit = k := by omega
    simp [hle, Backref.agreement]

/-- Counting word by word measures the agreement. -/
theorem agreement_eq (a b : View) (limit : Nat) :
    agreement a b limit = Backref.agreement a.toList b.toList limit := by
  rw [agreement, agreementFrom_eq a b (Nat.zero_le _), ← a.length_toList,
    ← b.length_toList, List.drop_zero, List.drop_zero, Nat.sub_zero, Nat.zero_add,
    agreement_min, ← agreement_eq_min]

end Wordwise

/-- Both comparators measure the agreement. -/
theorem Comparator.agreement_eq (c : Comparator) (a b : View) (limit : Nat) :
    c.agreement a b limit = Backref.agreement a.toList b.toList limit := by
  cases c with
  | bytewise => exact Bytewise.agreement_eq a b limit
  | wordwise => exact Wordwise.agreement_eq a b limit

end Backref
