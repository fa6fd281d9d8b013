/-
# A numeral is told by its digits

A run of digits is one or more ASCII digits. A text that is split behind a run of digits is
split where reading splits it, as long as no digit follows; and a numeral is read exactly if it
is a run of digits, with or without a plus sign, whose value is below the bound. Leading zeros
do not matter, for they do not change the value.

Key definitions: `Text.IsRun`, `Text.IsNumeral`.
Key theorems: `Text.digits_append`, `Text.afterDigits_append`, `Text.numeral?_eq_some_iff`.
-/
import Backref.Text.Numeral

namespace Backref.Text

def IsRun (cs : List Char) : Prop := cs ≠ [] ∧ ∀ c ∈ cs, c.isDigit

/-- A run of digits of this value, with or without a plus sign. -/
def IsNumeral (cs : List Char) (n : Nat) : Prop :=
  ∃ sign run, cs = sign ++ run ∧ (sign = [] ∨ sign = ['+']) ∧ IsRun run ∧ digitsValue run = n

variable {cs run rest : List Char} {bound n : Nat}

/-! ### Where the digits end -/

/-- No digit comes first. -/
def Undigited (cs : List Char) : Prop := ∀ c ∈ cs.head?, ¬ c.isDigit

theorem digits_of_undigited (h : Undigited rest) : digits rest = [] := by
  cases rest with
  | nil => rfl
  | cons c cs => exact List.takeWhile_cons_of_neg (h c rfl)

theorem digits_append (hrun : IsRun run) (hrest : Undigited rest) : digits (run ++ rest) = run := by
  unfold digits
  rw [List.takeWhile_append_of_pos hrun.2]
  show run ++ digits rest = run
  rw [digits_of_undigited hrest, List.append_nil]

theorem afterDigits_append (hrun : IsRun run) (hrest : Undigited rest) :
    afterDigits (run ++ rest) = rest := by
  have hsplit := digits_append_afterDigits (run ++ rest)
  rw [digits_append hrun hrest] at hsplit
  exact List.append_cancel_left hsplit

theorem isRun_digits (h : digits cs ≠ []) : IsRun (digits cs) :=
  ⟨h, List.all_eq_true.mp List.all_takeWhile⟩

/-! ### Numerals -/

theorem plain?_eq_some_iff :
    plain? bound cs = some n ↔ IsRun cs ∧ digitsValue cs = n ∧ n < bound := by
  unfold plain?
  constructor
  · intro h
    split at h
    · next hplain =>
      obtain ⟨hne, hall, hlt⟩ := hplain
      obtain rfl := Option.some.inj h
      exact ⟨⟨hne, List.all_eq_true.mp hall⟩, rfl, hlt⟩
    · cases h
  · rintro ⟨⟨hne, hall⟩, rfl, hlt⟩
    exact if_pos ⟨hne, List.all_eq_true.mpr hall, hlt⟩

theorem not_isRun_plus (cs : List Char) : ¬ IsRun ('+' :: cs) := by
  intro h
  exact absurd (h.2 '+' List.mem_cons_self) (by decide)

/-- **A numeral is read exactly if it is one and its value is below the bound.** -/
theorem numeral?_eq_some_iff : numeral? bound cs = some n ↔ IsNumeral cs n ∧ n < bound := by
  unfold numeral?
  constructor
  · intro h
    split at h
    · next tail =>
      obtain ⟨hrun, hvalue, hlt⟩ := plain?_eq_some_iff.mp h
      exact ⟨⟨['+'], tail, rfl, .inr rfl, hrun, hvalue⟩, hlt⟩
    · obtain ⟨hrun, hvalue, hlt⟩ := plain?_eq_some_iff.mp h
      exact ⟨⟨[], cs, rfl, .inl rfl, hrun, hvalue⟩, hlt⟩
  · rintro ⟨⟨sign, run, rfl, hsign, hrun, hvalue⟩, hlt⟩
    have hplain : plain? bound run = some n := plain?_eq_some_iff.mpr ⟨hrun, hvalue, hlt⟩
    rcases hsign with rfl | rfl
    · split
      · next hplus =>
        rw [List.nil_append] at hplus
        exact absurd (hplus ▸ hrun) (not_isRun_plus _)
      · exact hplain
    · exact hplain

end Backref.Text
