/-
# A quotient rounds to the nearest whole number, a half to the even one

Key definitions: `roundDiv`.
Key theorems: `roundDiv_near`, `roundDiv_even_of_tie`, `roundDiv_of_dvd`.
-/
namespace Backref

/-- The whole number nearest to `num / den`; of two equally near, the even
one. -/
def roundDiv (num den : Nat) : Nat :=
  let q := num / den
  let twice := 2 * (num % den)
  if den < twice then q + 1
  else if twice = den then q + q % 2
  else q

/-- The rounded quotient is within half a unit. -/
theorem roundDiv_near (num den : Nat) (h : 0 < den) :
    2 * num ≤ (2 * roundDiv num den + 1) * den ∧ 2 * roundDiv num den * den ≤ 2 * num + den := by
  have hdm := Nat.div_add_mod num den
  have hlt := Nat.mod_lt num h
  have hm : den * (num / den) = (num / den) * den := Nat.mul_comm _ _
  have hcases : roundDiv num den = num / den ∧ 2 * (num % den) ≤ den ∨
      roundDiv num den = num / den + 1 ∧ den ≤ 2 * (num % den) := by
    simp only [roundDiv]
    split
    · omega
    · split
      · rcases Nat.mod_two_eq_zero_or_one (num / den) with h2 | h2 <;> rw [h2] <;> omega
      · omega
  rcases hcases with ⟨h1, h2⟩ | ⟨h1, h2⟩ <;>
    simp only [h1, Nat.add_mul, Nat.mul_add, Nat.mul_assoc, Nat.one_mul] <;> omega

theorem roundDiv_even_of_tie (num den : Nat) (h : 2 * (num % den) = den) :
    roundDiv num den % 2 = 0 := by
  simp only [roundDiv, h, Nat.lt_irrefl, if_false, if_true]
  omega

theorem roundDiv_of_dvd (num den : Nat) (hd : den ∣ num) (h : 0 < den) :
    roundDiv num den = num / den := by
  have h0 : num % den = 0 := Nat.mod_eq_zero_of_dvd hd
  simp only [roundDiv, h0, Nat.mul_zero]
  rw [if_neg (by omega), if_neg (by omega)]

end Backref
