/-
# Numbers with 53 significant bits, rounded to nearest and ties to even

Ratios and sizes in reports are binary floating-point numbers with 53
significant bits. A `Binary64` is such a number, not negative, as a significand
and a power of two; `ofRatio` is the one nearest to a quotient, and each
operation rounds its exact result once. The numbers of reports lie between
2⁻¹⁰⁰ and 2¹⁰⁰, far from where the exponent of the format ends, so no result is
subnormal or infinite. A number is written in decimal from its exact value.

Key definitions: `Binary64`, `Binary64.ofRatio`, `Binary64.toBits`,
`Binary64.fixed`.
Key theorems: `Binary64.den_pos`.
-/
import Backref.Number.Rounding

-- a power of a number has one form, whatever other modules know of powers
attribute [default_instance high, instance (high)] instPowNat

namespace Backref

/-- The number `significand * 2 ^ exponent`. -/
structure Binary64 where
  significand : Nat
  exponent : Int
  deriving Repr, DecidableEq

namespace Binary64

def num (x : Binary64) : Nat := x.significand * 2 ^ x.exponent.toNat

def den (x : Binary64) : Nat := 2 ^ (-x.exponent).toNat

theorem den_pos (x : Binary64) : 0 < x.den := Nat.two_pow_pos _

def precision : Nat := 53

/-- The power of two at or just below `num / den`, for a positive quotient. -/
def magnitude (num den : Nat) : Int :=
  let guess : Int := (num.log2 : Int) - den.log2
  if den * 2 ^ guess.toNat ≤ num * 2 ^ (-guess).toNat then guess else guess - 1

/-- The number nearest to `num / den`. -/
def ofRatio (num den : Nat) : Binary64 :=
  if num = 0 then ⟨0, 0⟩
  else
    let exponent := magnitude num den - (precision - 1 : Nat)
    ⟨roundDiv (num * 2 ^ (-exponent).toNat) (den * 2 ^ exponent.toNat), exponent⟩

def ofNat (n : Nat) : Binary64 := ofRatio n 1

def add (x y : Binary64) : Binary64 := ofRatio (x.num * y.den + y.num * x.den) (x.den * y.den)

def mul (x y : Binary64) : Binary64 := ofRatio (x.num * y.num) (x.den * y.den)

/-- The rounded quotient, for a divisor that is not zero. -/
def div (x y : Binary64) : Binary64 := ofRatio (x.num * y.den) (x.den * y.num)

instance : Add Binary64 := ⟨add⟩
instance : Mul Binary64 := ⟨mul⟩
instance : Div Binary64 := ⟨div⟩

def isZero (x : Binary64) : Bool := x.significand = 0

def atLeast (x : Binary64) (n : Nat) : Bool := n * x.den ≤ x.num

/-- The 64 bits of the interchange format: biased exponent, then the significand
without its leading bit. -/
def toBits (x : Binary64) : UInt64 :=
  if x.significand = 0 then 0
  else
    let lead := 2 ^ (precision - 1)
    UInt64.ofNat ((x.exponent + 1075).toNat * lead + (x.significand - lead))

/-- The number in decimal, with a fixed number of places after the point, at
least one; a half goes to the even neighbour. -/
def fixed (places : Nat) (x : Binary64) : String :=
  let scaled := roundDiv (x.num * 10 ^ places) x.den
  let tail := toString (scaled % 10 ^ places)
  toString (scaled / 10 ^ places) ++ "." ++
    String.ofList (List.replicate (places - tail.length) '0') ++ tail

end Binary64

end Backref
