/-
# Expanding tokens gives back the bytes they were parsed from

A literal is appended as it is. A copy appends its bytes one at a time, so it
may repeat bytes it has itself just written: a copy at distance one repeats one
byte. A copy that reaches before the first byte, or at distance zero, is an
error that names the token.

Key definitions: `Token.ExpandError`, `Token.appendCopy`, `Token.expand`.
Key theorems: `Token.size_appendCopy`, `Token.getElem?_appendCopy_of_lt`,
`Token.size_expand`.
-/
import Backref.Token.Basic

namespace Backref.Token

/-- A copy that reaches before the first byte: which token, how far back, and
how many bytes there were. -/
structure ExpandError where
  index : Nat
  distance : Nat
  size : Nat
  deriving Repr, DecidableEq

def ExpandError.message (e : ExpandError) : String :=
  s!"token {e.index}: distance {e.distance} reaches before the start of {e.size} bytes"

/-- Append the given number of bytes, each repeating the one `distance` before
it. -/
def appendCopy (out : Array UInt8) (distance : Nat) : Nat → Array UInt8
  | 0 => out
  | n + 1 => appendCopy (out.push (out.getD (out.size - distance) 0)) distance n

/-- Append what the tokens stand for; `index` is the number of the first. -/
def expandFrom (index : Nat) (out : Array UInt8) : List Token → Except ExpandError (Array UInt8)
  | [] => .ok out
  | literal byte :: rest => expandFrom (index + 1) (out.push byte) rest
  | copy length distance :: rest =>
    if distance.toNat = 0 ∨ out.size < distance.toNat then
      .error ⟨index, distance.toNat, out.size⟩
    else expandFrom (index + 1) (appendCopy out distance.toNat length.toNat) rest

def expand (tokens : List Token) : Except ExpandError (Array UInt8) := expandFrom 0 #[] tokens

theorem size_appendCopy (out : Array UInt8) (distance n : Nat) :
    (appendCopy out distance n).size = out.size + n := by
  induction n generalizing out with
  | zero => rfl
  | succ n ih => rw [appendCopy, ih, Array.size_push]; omega

theorem getElem?_appendCopy_of_lt {out : Array UInt8} {distance n k : Nat} (h : k < out.size) :
    (appendCopy out distance n)[k]? = out[k]? := by
  induction n generalizing out with
  | zero => rfl
  | succ n ih =>
    rw [appendCopy, ih (by rw [Array.size_push]; omega), Array.getElem?_push]
    rw [if_neg (by omega)]

theorem size_expandFrom {index : Nat} {out bytes : Array UInt8} {tokens : List Token}
    (h : expandFrom index out tokens = .ok bytes) :
    bytes.size = out.size + coveredAll tokens := by
  induction tokens generalizing index out with
  | nil => cases h; rfl
  | cons t ts ih =>
    cases t with
    | literal byte =>
      have := ih h
      rw [this, Array.size_push, coveredAll_cons]
      simp only [covered]; omega
    | copy length distance =>
      rw [expandFrom] at h
      split at h
      · cases h
      · rw [ih h, size_appendCopy, coveredAll_cons]
        simp only [covered]; omega

theorem size_expand {tokens : List Token} {bytes : Array UInt8} (h : expand tokens = .ok bytes) :
    bytes.size = coveredAll tokens := by
  simpa using size_expandFrom h

end Backref.Token
