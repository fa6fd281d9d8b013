/-
# Blank characters, and text without them at its ends

A character is blank if Unicode gives it the property `White_Space`; there are
25 of them. Trimming removes the blank characters at both ends of a text and
none in between.

Key definitions: `Text.isBlank`, `Text.trim`.
Key theorems: `Text.not_isBlank_of_head?_trim`, `Text.not_isBlank_of_getLast?_trim`.
-/
namespace Backref.Text

/-- The code points with the property `White_Space`, as closed ranges. -/
def blankRanges : List (Nat × Nat) :=
  [(0x09, 0x0D), (0x20, 0x20), (0x85, 0x85), (0xA0, 0xA0), (0x1680, 0x1680), (0x2000, 0x200A),
   (0x2028, 0x2029), (0x202F, 0x202F), (0x205F, 0x205F), (0x3000, 0x3000)]

example : blankRanges.foldl (fun sum r => sum + (r.2 + 1 - r.1)) 0 = 25 := by decide

def isBlank (c : Char) : Bool := blankRanges.any fun r => r.1 ≤ c.toNat && c.toNat ≤ r.2

def trim (cs : List Char) : List Char :=
  ((cs.dropWhile isBlank).reverse.dropWhile isBlank).reverse

theorem not_isBlank_of_getLast?_trim {cs : List Char} {c : Char}
    (h : (trim cs).getLast? = some c) : isBlank c = false := by
  rw [trim, List.getLast?_reverse] at h
  have := List.head?_dropWhile_not isBlank (cs.dropWhile isBlank).reverse
  simpa [h] using this

theorem not_isBlank_of_head?_trim {cs : List Char} {c : Char}
    (h : (trim cs).head? = some c) : isBlank c = false := by
  rw [trim, List.head?_reverse] at h
  obtain ⟨front, hfront⟩ := List.dropWhile_suffix isBlank (l := (cs.dropWhile isBlank).reverse)
  have hlast : (cs.dropWhile isBlank).reverse.getLast? = some c := by
    rw [← hfront, List.getLast?_append, h]; rfl
  rw [List.getLast?_reverse] at hlast
  have := List.head?_dropWhile_not isBlank cs
  simpa [hlast] using this

end Backref.Text
