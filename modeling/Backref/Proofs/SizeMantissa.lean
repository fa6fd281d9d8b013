/-
# A size is written in the unit below it, and may round up to the next

A size of at least 1024 bytes is divided by 1024 until it is below 1024, or the greatest unit is
reached. Below `2 ^ 50` bytes none of these divisions rounds, so the unit is the greatest that
is not more than the size, and the mantissa is the size in that unit, rounded once, to two
places. It is at least 1.00, and less than 1024.00 unless the size is so close below the next
unit that rounding fills it up: then the mantissa is 1024.00, and the unit stays.

Key definitions: `Size.units`, `Size.hundredthsText`, `Size.Shows`.
Key theorems: `Size.equals_div_1024`, `Size.scale_spec`, `Size.render_eq`,
`Size.hundredths_range`, `Size.hundredths_lt_iff`, `Size.render_shows`.
-/
import Mathlib.Algebra.Order.Field.Rat
import Mathlib.Tactic.FieldSimp
import Mathlib.Tactic.NormNum
import Mathlib.Tactic.Positivity
import Backref.Size
import Backref.Proofs.ExactRatios

namespace Backref.Size

open Binary64

/-! ### What is printed -/

def units : List (Nat × String) := [(1, "KiB"), (2, "MiB"), (3, "GiB"), (4, "TiB")]

def hundredthsText (h : Nat) : String := s!"{h / 100}.{h / 10 % 10}{h % 10}"

/-- The text shows a size of `n` bytes in a unit of `1024 ^ k`: its mantissa is so many
hundredths, and the size is no farther from it than half of one. -/
structure Shows (text : String) (n k hundredths : Nat) : Prop where
  text_eq : ∃ unit, (k, unit) ∈ units ∧ text = hundredthsText hundredths ++ " " ++ unit
  near : |(hundredths / 100 : ℚ) - n / 1024 ^ k| ≤ 1 / 200

theorem fixed_two (x : Binary64) :
    x.fixed 2 = hundredthsText (roundDiv (x.num * 100) x.den) := by
  have hpad : ∀ t < 100,
      String.ofList (List.replicate (2 - (toString t).length) '0') ++ toString t =
        toString (t / 10) ++ toString (t % 10) := by
    decide +kernel
  show toString (roundDiv (x.num * 100) x.den / 100) ++ "." ++ _ ++ _ = _
  generalize roundDiv (x.num * 100) x.den = h
  have htens : h / 10 % 10 = h % 100 / 10 := by omega
  have hones : h % 10 = h % 100 % 10 := by omega
  rw [String.append_assoc, hpad (h % 100) (Nat.mod_lt _ (by decide)), hundredthsText, htens, hones,
    ← String.append_assoc]
  rfl

/-! ### Dividing by 1024 -/

/-- A size below `2 ^ 53` is divided by 1024 without rounding, however often. -/
theorem equals_div_1024 {x : Binary64} {n k : Nat} (hx : x.Equals n (1024 ^ k)) (hpos : 0 < n)
    (hn : n < 2 ^ precision) : (x / ofNat 1024).Equals n (1024 ^ (k + 1)) := by
  have hunit : (ofNat 1024).Equals 1024 1 := equals_ofNat (by decide) (by decide)
  have hbits : n * 1 * 2 ^ (10 * (k + 1)) = n * (1024 ^ k * 1024) := by
    rw [Nat.pow_mul, ← Nat.pow_succ, Nat.mul_one]
  have hexact := hx.div hunit hpos (Nat.pow_pos (by decide)) (by decide) hbits hn
  rwa [Nat.mul_one] at hexact

/-- **The unit is the greatest that is not more than the size**, or the last one. The value
is still the size in that unit. -/
theorem scale_spec {n : Nat} (hn : n < 2 ^ precision) (rest : List String) :
    ∀ {x : Binary64} {k : Nat} (unit : String), x.Equals n (1024 ^ k) → 1024 ^ k ≤ n →
      ∃ i, (unit :: rest)[i]? = some (scale x unit rest).2 ∧
        (scale x unit rest).1.Equals n (1024 ^ (k + i)) ∧ 1024 ^ (k + i) ≤ n ∧
        (n < 1024 ^ (k + i + 1) ∨ i = rest.length) := by
  induction rest with
  | nil => exact fun {x k} unit hx hle => ⟨0, rfl, hx, hle, .inr rfl⟩
  | cons next rest ih =>
    intro x k unit hx hle
    have hunit : 0 < 1024 ^ k := Nat.pow_pos (by decide)
    have hup : x.atLeast 1024 = true ↔ 1024 ^ (k + 1) ≤ n := by
      rw [hx.atLeast_iff hunit, Nat.pow_succ, Nat.mul_comm]
    unfold scale
    split
    · next hmore =>
      have hpos : 0 < n := Nat.lt_of_lt_of_le hunit hle
      obtain ⟨i, hget, hvalue, hlow, hhigh⟩ :=
        ih next (equals_div_1024 hx hpos hn) (hup.mp hmore)
      have hindex : k + 1 + i = k + (i + 1) := by omega
      rw [hindex] at hvalue hlow hhigh
      exact ⟨i + 1, hget, hvalue, hlow, hhigh.imp_right (congrArg (· + 1))⟩
    · next hless =>
      rw [hup, Nat.not_le] at hless
      exact ⟨0, rfl, hx, hle, .inl hless⟩

theorem render_of_le {n : Nat} (h : 1024 ≤ n) :
    render n = (scale (ofNat n / ofNat 1024) firstUnit largerUnits).1.fixed 2 ++ " " ++
      (scale (ofNat n / ofNat 1024) firstUnit largerUnits).2 := by
  unfold render
  -- the value and its unit are named first, so that none of the scaling is computed
  obtain ⟨value, unit⟩ := scale (ofNat n / ofNat 1024) firstUnit largerUnits
  exact if_neg (Nat.not_lt.mpr h)

/-- **The mantissa is the size in its unit, rounded once to hundredths.** -/
theorem render_eq {n : Nat} (h : 1024 ≤ n) (hn : n < 2 ^ 50) :
    ∃ k unit, (k, unit) ∈ units ∧ 1024 ^ k ≤ n ∧ n < 1024 ^ (k + 1) ∧
      render n = hundredthsText (roundDiv (n * 100) (1024 ^ k)) ++ " " ++ unit := by
  have hfits : n < 2 ^ precision := Nat.lt_trans hn (by decide)
  have hpos : 0 < n := by omega
  have hfirst : (ofNat n / ofNat 1024).Equals n (1024 ^ 1) :=
    equals_div_1024 (k := 0) (equals_ofNat hpos hfits) hpos hfits
  have hunit : 1024 ^ 1 ≤ n := by omega
  obtain ⟨i, hget, hvalue, hlow, hhigh⟩ := scale_spec hfits largerUnits firstUnit hfirst hunit
  have hlast : i = largerUnits.length → n < 1024 ^ (1 + i + 1) := by
    intro hi
    have hfive : 1 + i + 1 = 5 := by rw [hi]; rfl
    rw [hfive]
    omega
  have hunits : ∀ j unit, (firstUnit :: largerUnits)[j]? = some unit → (1 + j, unit) ∈ units := by
    intro j unit hj
    obtain ⟨hlt, rfl⟩ := List.getElem?_eq_some_iff.mp hj
    revert j
    decide
  refine ⟨1 + i, _, hunits i _ hget, hlow, hhigh.elim id hlast, ?_⟩
  rw [render_of_le h, fixed_two, hvalue.scaled_eq (Nat.pow_pos (by decide))]

/-! ### Hundredths -/

variable {n den h : Nat}

theorem div_hundred_le_iff (hden : 0 < den) :
    |(h / 100 : ℚ) - n / den| ≤ 1 / 200 ↔
      2 * (n * 100) ≤ (2 * h + 1) * den ∧ 2 * h * den ≤ 2 * (n * 100) + den := by
  have hpos : (0 : ℚ) < den := by exact_mod_cast hden
  have hdist : (h / 100 : ℚ) - n / den = (2 * h * den - 2 * (n * 100)) / (200 * den) := by
    field_simp
    ring
  have hhalf : (1 / 200 : ℚ) = den / (200 * den) := by field_simp
  rw [hdist, hhalf, abs_div, abs_of_pos (by positivity : (0 : ℚ) < 200 * den),
    div_le_div_iff_of_pos_right (by positivity), abs_le]
  rw [← @Nat.cast_le ℚ, ← @Nat.cast_le ℚ]
  push_cast
  constructor
  · rintro ⟨hlow, hhigh⟩
    constructor <;> linarith
  · rintro ⟨hlow, hhigh⟩
    constructor <;> linarith

/-- The hundredths of a size in the unit below it: at least one whole, at most 1024. -/
theorem hundredths_range (hden : 0 < den) (hlow : den ≤ n) (hhigh : n < 1024 * den) :
    100 ≤ roundDiv (n * 100) den ∧ roundDiv (n * 100) den ≤ 102400 := by
  obtain ⟨hup, hdown⟩ := roundDiv_near (n * 100) den hden
  constructor
  · by_contra hless
    have hsmall : (2 * roundDiv (n * 100) den + 1) * den ≤ 199 * den :=
      Nat.mul_le_mul_right _ (by omega)
    omega
  · by_contra hmore
    have hlarge : 204802 * den ≤ 2 * roundDiv (n * 100) den * den :=
      Nat.mul_le_mul_right _ (by omega)
    omega

/-- They fill the next unit if no more than half a hundredth is missing from it. -/
theorem hundredths_lt_iff (hden : 0 < den) :
    roundDiv (n * 100) den < 102400 ↔ (n / den : ℚ) < 1024 - 1 / 200 := by
  have hpos : (0 : ℚ) < den := by exact_mod_cast hden
  rw [roundDiv_lt_iff hden (by decide), div_lt_iff₀ hpos, ← @Nat.cast_lt ℚ]
  push_cast
  constructor
  · intro hlt
    linarith
  · intro hlt
    linarith

/-! ### The mantissa -/

/-- **A size is written in the unit below it, and may round up to the next.** The mantissa is
the size in its unit rounded to the nearest hundredth, and a half goes to the even one. It is
at least 1.00; it is less than 1024.00 exactly if the size is more than half a hundredth below
the next unit, and 1024.00 otherwise. -/
theorem render_shows {n : Nat} (h : 1024 ≤ n) (hn : n < 2 ^ 50) :
    ∃ k hundredths, Shows (render n) n k hundredths ∧ 1024 ^ k ≤ n ∧ n < 1024 ^ (k + 1) ∧
      hundredths = roundDiv (n * 100) (1024 ^ k) ∧ (1 : ℚ) ≤ hundredths / 100 ∧
      (hundredths / 100 : ℚ) ≤ 1024 ∧
      ((hundredths / 100 : ℚ) < 1024 ↔ (n / 1024 ^ k : ℚ) < 1024 - 1 / 200) := by
  obtain ⟨k, unit, hunit, hlow, hhigh, hrender⟩ := render_eq h hn
  have hpos : 0 < 1024 ^ k := Nat.pow_pos (by decide)
  have hunder : n < 1024 * 1024 ^ k := by rwa [Nat.pow_succ, Nat.mul_comm] at hhigh
  have hclose := (div_hundred_le_iff hpos).mpr (roundDiv_near (n * 100) (1024 ^ k) hpos)
  have hfull := hundredths_lt_iff (n := n) hpos
  obtain ⟨hone, hmost⟩ := hundredths_range hpos hlow hunder
  generalize hh : roundDiv (n * 100) (1024 ^ k) = hundredths at *
  push_cast at hclose hfull
  refine ⟨k, hundredths, ⟨⟨unit, hunit, hrender⟩, hclose⟩, hlow, hhigh, hh.symm, ?_, ?_, ?_⟩
  · rw [le_div_iff₀ (by norm_num)]
    exact_mod_cast hone
  · rw [div_le_iff₀ (by norm_num)]
    exact_mod_cast hmost
  · rw [← hfull, div_lt_iff₀ (by norm_num)]
    norm_num

/-- Far from the next unit, as at one and a half. -/
theorem render_shows_mebi : 1024 ≤ 1572864 ∧ 1572864 < 2 ^ 50 ∧
    render 1572864 = "1.50 MiB" ∧ ∃ k hundredths, Shows (render 1572864) 1572864 k hundredths :=
  ⟨by decide, by decide, by decide +kernel,
    have ⟨k, hundredths, hshows, _⟩ := render_shows (n := 1572864) (by decide) (by decide)
    ⟨k, hundredths, hshows⟩⟩

/-- **No mantissa below 1024.00 is shown just below a unit.** The text is "1024.00 KiB": the
unit is chosen before the value is rounded. -/
theorem not_shows_below_mebi : ¬ ∃ k hundredths, Shows (render 1048571) 1048571 k hundredths ∧
    (1 : ℚ) ≤ hundredths / 100 ∧ (hundredths / 100 : ℚ) < 1024 := by
  rintro ⟨k, hundredths, ⟨⟨unit, hunit, htext⟩, hclose⟩, hone, hless⟩
  have hpos : 0 < 1024 ^ k := Nat.pow_pos (by decide)
  have hnear := (div_hundred_le_iff (n := 1048571) (h := hundredths) hpos).mp
    (by push_cast; exact hclose)
  rw [le_div_iff₀ (by norm_num)] at hone
  rw [div_lt_iff₀ (by norm_num)] at hless
  have hlow : 100 ≤ hundredths := by exact_mod_cast hone
  have hhigh : hundredths < 102400 := by norm_num at hless; exact_mod_cast hless
  simp only [units, List.mem_cons, Prod.mk.injEq, List.not_mem_nil, or_false] at hunit
  rcases hunit with ⟨rfl, rfl⟩ | ⟨rfl, rfl⟩ | ⟨rfl, rfl⟩ | ⟨rfl, rfl⟩
  · omega
  · -- in the next unit it is 1.00, but that is not what is written
    obtain rfl : hundredths = 100 := by omega
    exact absurd htext (by decide +kernel)
  · omega
  · omega

end Backref.Size
