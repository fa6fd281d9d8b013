/-
# A quotient of 53 significant bits is not rounded

If a quotient is a whole number below `2 ^ 53` over a power of two, the number nearest to it is
the quotient itself: its significand has room for every bit of that whole number. So a whole
number below `2 ^ 53` may be divided by powers of two again and again without rounding. What
is said of an exact number, such as how it compares with a whole number or what it is in
decimal, may be said of any quotient that equals it.

Key definitions: `Binary64.Equals`.
Key theorems: `roundDiv_congr`, `roundDiv_lt_iff`, `Binary64.equals_ofRatio`,
`Binary64.Equals.div`, `Binary64.Equals.atLeast_iff`, `Binary64.Equals.scaled_eq`.
-/
import Mathlib.Tactic.Linarith
import Mathlib.Tactic.Ring
import Backref.Number.Binary64

namespace Backref

/-! ### Rounded quotients -/

theorem roundDiv_mul_right (num den : Nat) {k : Nat} (hk : 0 < k) :
    roundDiv (num * k) (den * k) = roundDiv num den := by
  have htwice : 2 * (num % den * k) = 2 * (num % den) * k := (Nat.mul_assoc _ _ _).symm
  unfold roundDiv
  simp only [Nat.mul_div_mul_right _ _ hk, Nat.mul_mod_mul_right, htwice,
    Nat.mul_lt_mul_right hk, Nat.mul_left_inj (Nat.ne_of_gt hk)]

theorem roundDiv_congr {a b c d : Nat} (h : a * d = c * b) (hb : 0 < b) (hd : 0 < d) :
    roundDiv a b = roundDiv c d :=
  calc roundDiv a b = roundDiv (a * d) (b * d) := (roundDiv_mul_right a b hd).symm
    _ = roundDiv (c * b) (d * b) := by rw [h, Nat.mul_comm b d]
    _ = roundDiv c d := roundDiv_mul_right c d hb

/-- Half below a whole number is a half. -/
theorem two_mul_mod_of_tie {num den m : Nat} (hden : 0 < den)
    (htie : 2 * num + den = 2 * m * den) : 2 * (num % den) = den := by
  have hparts : 2 * m * den = 2 * (num / den) * den + (2 * (num % den) + den) := by
    rw [← htie]
    conv_lhs => rw [← Nat.div_add_mod num den]
    ring
  have hrest := Nat.mod_lt num hden
  have habove : 2 * (num / den) < 2 * m := Nat.lt_of_mul_lt_mul_right (a := den) (by omega)
  have hbelow : 2 * m < 2 * (num / den) + 3 := by
    apply Nat.lt_of_mul_lt_mul_right (a := den)
    rw [hparts, Nat.add_mul]
    omega
  have hone : 2 * m = 2 * (num / den) + 2 := by omega
  rw [hone, Nat.add_mul] at hparts
  omega

/-- What rounds to less than an even number is more than half below it: a half goes to the
even number. -/
theorem roundDiv_lt_iff {num den m : Nat} (hden : 0 < den) (heven : m % 2 = 0) :
    roundDiv num den < m ↔ 2 * num + den < 2 * m * den := by
  obtain ⟨hup, hdown⟩ := roundDiv_near num den hden
  constructor
  · intro hlt
    have hnext : 2 * num + den ≤ (2 * roundDiv num den + 2) * den :=
      calc 2 * num + den ≤ (2 * roundDiv num den + 1) * den + den := Nat.add_le_add_right hup den
        _ = (2 * roundDiv num den + 2) * den := by ring
    have hle := Nat.le_trans hnext (Nat.mul_le_mul_right den (by omega : _ ≤ 2 * m))
    refine Nat.lt_of_le_of_ne hle fun htie => ?_
    have hsame := roundDiv_even_of_tie num den (two_mul_mod_of_tie hden htie)
    have hclose := Nat.le_of_mul_le_mul_right (htie ▸ hnext) hden
    omega
  · intro hlt
    have hbelow := Nat.lt_of_le_of_lt hdown hlt
    have htwice := Nat.lt_of_mul_lt_mul_right hbelow
    omega

namespace Binary64

variable {x y : Binary64} {a b c d m j : Nat}

/-- The exact value of the number is this quotient. -/
def Equals (x : Binary64) (num den : Nat) : Prop := x.num * den = num * x.den

theorem Equals.congr (h : x.Equals a b) (hb : 0 < b) (hsame : a * d = c * b) : x.Equals c d := by
  unfold Equals at h ⊢
  apply Nat.eq_of_mul_eq_mul_right hb
  calc x.num * d * b = x.num * b * d := Nat.mul_right_comm _ _ _
    _ = a * d * x.den := by rw [h, Nat.mul_right_comm]
    _ = c * x.den * b := by rw [hsame, Nat.mul_right_comm]

/-! ### Exact quotients -/

/-- The power of two that is the magnitude of a quotient is not more than it. -/
theorem le_of_magnitude {num : Nat} (den : Nat) (hnum : 0 < num) :
    den * 2 ^ (magnitude num den).toNat ≤ num * 2 ^ (-magnitude num den).toNat := by
  have hlow : 2 ^ num.log2 ≤ num := Nat.log2_self_le (Nat.ne_of_gt hnum)
  have hhigh : den ≤ 2 ^ (den.log2 + 1) := Nat.le_of_lt Nat.lt_log2_self
  unfold magnitude
  simp only
  split
  · next hguess => exact hguess
  · -- the guess is one too much, but it is never two too much
    rcases Nat.lt_or_ge den.log2 num.log2 with hlt | hge
    · have hup : ((num.log2 : Int) - den.log2 - 1).toNat = num.log2 - den.log2 - 1 := by omega
      have hdown : (-((num.log2 : Int) - den.log2 - 1)).toNat = 0 := by omega
      rw [hup, hdown, Nat.pow_zero, Nat.mul_one]
      calc den * 2 ^ (num.log2 - den.log2 - 1)
          ≤ 2 ^ (den.log2 + 1) * 2 ^ (num.log2 - den.log2 - 1) := Nat.mul_le_mul_right _ hhigh
        _ = 2 ^ num.log2 := by rw [← Nat.pow_add]; congr 1; omega
        _ ≤ num := hlow
    · have hup : ((num.log2 : Int) - den.log2 - 1).toNat = 0 := by omega
      have hdown : (-((num.log2 : Int) - den.log2 - 1)).toNat = den.log2 + 1 - num.log2 := by omega
      rw [hup, hdown, Nat.pow_zero, Nat.mul_one]
      calc den ≤ 2 ^ (den.log2 + 1) := hhigh
        _ = 2 ^ num.log2 * 2 ^ (den.log2 + 1 - num.log2) := by rw [← Nat.pow_add]; congr 1; omega
        _ ≤ num * 2 ^ (den.log2 + 1 - num.log2) := Nat.mul_le_mul_right _ hlow

/-- A quotient with so many bits behind the point leaves the others for its magnitude. -/
theorem magnitude_le {num den : Nat} (hnum : 0 < num) (hden : 0 < den)
    (h : num * 2 ^ j = m * den) (hm : m < 2 ^ precision) :
    magnitude num den + j ≤ (precision - 1 : Nat) := by
  have hbelow := le_of_magnitude den hnum
  generalize magnitude num den = g at hbelow ⊢
  have hpow : 2 ^ (g.toNat + j) < 2 ^ (precision + (-g).toNat) := by
    apply Nat.lt_of_mul_lt_mul_left (a := den)
    calc den * 2 ^ (g.toNat + j) = den * 2 ^ g.toNat * 2 ^ j := by rw [Nat.pow_add, Nat.mul_assoc]
      _ ≤ num * 2 ^ (-g).toNat * 2 ^ j := Nat.mul_le_mul_right _ hbelow
      _ = m * den * 2 ^ (-g).toNat := by rw [Nat.mul_right_comm, h]
      _ < 2 ^ precision * den * 2 ^ (-g).toNat := by
        apply Nat.mul_lt_mul_of_pos_right _ (Nat.two_pow_pos _)
        exact Nat.mul_lt_mul_of_pos_right hm hden
      _ = den * 2 ^ (precision + (-g).toNat) := by
        rw [Nat.pow_add, Nat.mul_comm (2 ^ precision) den, Nat.mul_assoc]
  have hlt := (Nat.pow_lt_pow_iff_right (by decide)).mp hpow
  simp only [precision] at hlt ⊢
  omega

/-- **A quotient of 53 significant bits is not rounded.** -/
theorem equals_ofRatio {num den : Nat} (hnum : 0 < num) (hden : 0 < den)
    (h : num * 2 ^ j = m * den) (hm : m < 2 ^ precision) : (ofRatio num den).Equals num den := by
  have hroom := magnitude_le hnum hden h hm
  unfold ofRatio
  rw [if_neg (Nat.ne_of_gt hnum)]
  generalize magnitude num den = g at hroom ⊢
  -- the exponent is at most `-j`, so the significand is the whole number, shifted up
  have hup : (g - (precision - 1 : Nat)).toNat = 0 := by omega
  obtain ⟨k, hdown⟩ : ∃ k, (-(g - (precision - 1 : Nat))).toNat = j + k :=
    ⟨(-(g - (precision - 1 : Nat))).toNat - j, by omega⟩
  have hshifted : num * 2 ^ (j + k) = m * 2 ^ k * den := by
    rw [Nat.pow_add, ← Nat.mul_assoc, h, Nat.mul_right_comm]
  have hwhole : roundDiv (num * 2 ^ (j + k)) den = m * 2 ^ k := by
    rw [hshifted, roundDiv_of_dvd _ _ (Nat.dvd_mul_left _ _) hden, Nat.mul_div_cancel _ hden]
  simp only [Equals, Binary64.num, Binary64.den, hup, hdown, Nat.pow_zero, Nat.mul_one, hwhole]
  exact hshifted.symm

/-- A whole number below `2 ^ 53` is not rounded. -/
theorem equals_ofNat {n : Nat} (hpos : 0 < n) (hn : n < 2 ^ precision) : (ofNat n).Equals n 1 :=
  equals_ofRatio (j := 0) hpos Nat.one_pos (by rw [Nat.pow_zero]) hn

/-- **A division is exact** if its quotient has 53 significant bits. -/
theorem Equals.div (hx : x.Equals a b) (hy : y.Equals c d) (ha : 0 < a) (hb : 0 < b)
    (hc : 0 < c) (h : a * d * 2 ^ j = m * (b * c)) (hm : m < 2 ^ precision) :
    (x / y).Equals (a * d) (b * c) := by
  unfold Equals at hx hy
  have hbc : 0 < b * c := Nat.mul_pos hb hc
  have hxpos : 0 < x.num :=
    Nat.pos_of_mul_pos_right (hx ▸ Nat.mul_pos ha x.den_pos)
  have hypos : 0 < y.num :=
    Nat.pos_of_mul_pos_right (hy ▸ Nat.mul_pos hc y.den_pos)
  have hsame : x.num * y.den * (b * c) = a * d * (x.den * y.num) := by
    calc x.num * y.den * (b * c) = x.num * b * (c * y.den) := by ring
      _ = a * d * (x.den * y.num) := by rw [hx, ← hy]; ring
  have hratio : x.num * y.den * 2 ^ j = m * (x.den * y.num) := by
    apply Nat.eq_of_mul_eq_mul_right hbc
    calc x.num * y.den * 2 ^ j * (b * c) = x.num * y.den * (b * c) * 2 ^ j := by ring
      _ = a * d * 2 ^ j * (x.den * y.num) := by rw [hsame]; ring
      _ = m * (x.den * y.num) * (b * c) := by rw [h]; ring
  have hexact : (ofRatio (x.num * y.den) (x.den * y.num)).Equals _ _ :=
    equals_ofRatio (Nat.mul_pos hxpos y.den_pos) (Nat.mul_pos x.den_pos hypos) hratio hm
  exact hexact.congr (Nat.mul_pos x.den_pos hypos) hsame

/-! ### What is said of an exact number -/

theorem Equals.atLeast_iff (h : x.Equals a b) (hb : 0 < b) (n : Nat) :
    x.atLeast n = true ↔ n * b ≤ a := by
  unfold Equals at h
  unfold atLeast
  rw [decide_eq_true_eq, ← Nat.mul_le_mul_right_iff hb, h, Nat.mul_right_comm,
    Nat.mul_le_mul_right_iff x.den_pos]

theorem Equals.scaled_eq (h : x.Equals a b) (hb : 0 < b) (k : Nat) :
    roundDiv (x.num * k) x.den = roundDiv (a * k) b := by
  refine roundDiv_congr ?_ x.den_pos hb
  rw [Nat.mul_right_comm, h, Nat.mul_right_comm]

end Binary64

end Backref
