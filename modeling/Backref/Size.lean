/-
# Sizes are written for people and read from them

A size below one kibibyte is written as it is. A larger one is divided by 1024
until it is below 1024 or the largest unit is reached, and written with two
places. A size is read as digits and an optional suffix: `B`, or `K`, `M` or
`G`, alone or followed by `B` or `iB`. A value that no 64-bit number holds is
refused, whether the digits or the suffix make it too large.

Key definitions: `Size.render`, `Size.read`, `Size.suffixBits?`, `Size.ReadError`.
Key theorems: `Size.lt_of_read_eq_ok`.
-/
import Backref.Number.Binary64
import Backref.Text.Blank
import Backref.Text.Numeral

namespace Backref.Size

/-! ### Writing -/

def firstUnit : String := "KiB"

/-- The units above the first, each 1024 times the one before. -/
def largerUnits : List String := ["MiB", "GiB", "TiB"]

/-- A value and its unit, in the first of the larger units that brings it below
1024, or in the last. -/
def scale (value : Binary64) (unit : String) : List String → Binary64 × String
  | [] => (value, unit)
  | next :: rest =>
    if value.atLeast 1024 then scale (value / .ofNat 1024) next rest else (value, unit)

def render (bytes : Nat) : String :=
  if bytes < 1024 then s!"{bytes} B"
  else
    let (value, unit) := scale (.ofNat bytes / .ofNat 1024) firstUnit largerUnits
    value.fixed 2 ++ " " ++ unit

/-! ### Reading -/

/-- Why a text is not a size. The texts are trimmed. -/
inductive ReadError where
  | noDigits (text : String)
  | tooLarge (text : String)
  | unknownSuffix (suffix : String)
  deriving Repr, DecidableEq

def ReadError.message : ReadError → String
  | noDigits text => "'" ++ text ++ "' is not a size"
  | tooLarge text => "'" ++ text ++ "' is too large"
  | unknownSuffix suffix => "unknown size suffix '" ++ suffix ++ "'"

def suffixBits? (suffix : String) : Option Nat :=
  if suffix ∈ ["", "B"] then some 0
  else if suffix ∈ ["K", "KB", "KiB"] then some 10
  else if suffix ∈ ["M", "MB", "MiB"] then some 20
  else if suffix ∈ ["G", "GB", "GiB"] then some 30
  else none

/-- One more than the greatest size. -/
def bound : Nat := 2 ^ 64

def read (text : String) : Except ReadError Nat :=
  let cs := Text.trim text.toList
  let digits := Text.digits cs
  let value := Text.digitsValue digits
  if digits = [] then .error (.noDigits (String.ofList cs))
  else if bound ≤ value then .error (.tooLarge (String.ofList cs))
  else
    match suffixBits? (String.ofList (Text.afterDigits cs)) with
    | none => .error (.unknownSuffix (String.ofList (Text.afterDigits cs)))
    | some bits =>
      if bound ≤ value <<< bits then .error (.tooLarge (String.ofList cs))
      else .ok (value <<< bits)

theorem lt_of_read_eq_ok {text : String} {n : Nat} (h : read text = .ok n) : n < bound := by
  simp only [read] at h
  split at h
  · cases h
  · split at h
    · cases h
    · split at h
      · cases h
      · split at h
        · cases h
        · cases h; omega

end Backref.Size
