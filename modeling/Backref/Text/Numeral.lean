/-
# Decimal numerals

A numeral is one or more ASCII digits, with any number of leading zeros; a
numeral that may be signed can have a plus sign in front. Its value counts only
if it is below a bound.

Key definitions: `Text.digits`, `Text.afterDigits`, `Text.digitsValue`,
`Text.numeral?`, `Text.padLeft`.
Key theorems: `Text.digits_append_afterDigits`.
-/
namespace Backref.Text

def digits (cs : List Char) : List Char := cs.takeWhile Char.isDigit

def afterDigits (cs : List Char) : List Char := cs.dropWhile Char.isDigit

theorem digits_append_afterDigits (cs : List Char) : digits cs ++ afterDigits cs = cs :=
  List.takeWhile_append_dropWhile

def digitValue (c : Char) : Nat := c.toNat - '0'.toNat

def digitsValue (cs : List Char) : Nat := cs.foldl (fun n c => 10 * n + digitValue c) 0

/-- The value of a text of digits only, at least one of them, if it is below the
bound. -/
def plain? (bound : Nat) (cs : List Char) : Option Nat :=
  if cs ≠ [] ∧ cs.all Char.isDigit ∧ digitsValue cs < bound then some (digitsValue cs) else none

/-- The value of a numeral with or without a plus sign, if it is below the
bound. -/
def numeral? (bound : Nat) : List Char → Option Nat
  | '+' :: cs => plain? bound cs
  | cs => plain? bound cs

def padLeft (width : Nat) (s : String) : String :=
  String.ofList (List.replicate (width - s.length) ' ') ++ s

def hex16 (word : UInt64) : String :=
  let cs := Nat.toDigits 16 word.toNat
  String.ofList (List.replicate (16 - cs.length) '0' ++ cs)

end Backref.Text
