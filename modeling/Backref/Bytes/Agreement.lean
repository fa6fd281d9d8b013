/-
# Two ways to measure how far two runs of bytes agree

The agreement of two runs, up to a limit, is the number of leading bytes that
are equal. `Bytewise` counts them one at a time. `Wordwise` reads eight bytes
from each side, takes their exclusive or, and finds the first difference as the
number of zero bytes at its low end; where a whole word can no longer be read it
goes on byte by byte. A word may reach past the limit, so the count is clipped.

Key definitions: `agreement`, `Bytewise.agreement`, `Wordwise.agreement`,
`Comparator`.
Key theorems: `agreement_le`, `Bytewise.agreement_eq`.
-/
import Backref.Bytes.View

namespace Backref

/-- The leading bytes two runs share, up to a limit. -/
def agreement (xs ys : List UInt8) (limit : Nat) : Nat :=
  (((xs.zip ys).take limit).takeWhile fun p => p.1 == p.2).length

theorem agreement_cons_succ (x y : UInt8) (xs ys : List UInt8) (n : Nat) :
    agreement (x :: xs) (y :: ys) (n + 1) = if x = y then agreement xs ys n + 1 else 0 := by
  by_cases h : x = y <;> simp [agreement, h]

theorem agreement_le (xs ys : List UInt8) (limit : Nat) : agreement xs ys limit ≤ limit :=
  Nat.le_trans (List.takeWhile_sublist _).length_le (List.length_take_le _ _)

/-! ### Byte by byte -/

namespace Bytewise

/-- The agreement from offset `k` on, added to `k`; at most `left` more bytes
are compared. -/
def agreementFrom (a b : View) (k : Nat) : Nat → Nat
  | 0 => k
  | left + 1 =>
    match a.get? k, b.get? k with
    | some x, some y => if x = y then agreementFrom a b (k + 1) left else k
    | _, _ => k

def agreement (a b : View) (limit : Nat) : Nat := agreementFrom a b 0 limit

theorem agreementFrom_eq (a b : View) (k left : Nat) :
    agreementFrom a b k left =
      k + Backref.agreement (a.toList.drop k) (b.toList.drop k) left := by
  induction left generalizing k with
  | zero => simp [agreementFrom, Backref.agreement]
  | succ left ih =>
    rw [agreementFrom]
    split
    · rename_i x y hx hy
      rw [View.drop_toList_of_get? hx, View.drop_toList_of_get? hy, agreement_cons_succ]
      split
      · rw [ih]; omega
      · rfl
    · rename_i h
      rcases ha : a.get? k with _ | x
      · simp [View.drop_toList_of_get?_eq_none ha, Backref.agreement]
      · rcases hb : b.get? k with _ | y
        · simp [View.drop_toList_of_get?_eq_none hb, Backref.agreement]
        · exact absurd hb (h x y ha)

/-- Counting byte by byte measures the agreement. -/
theorem agreement_eq (a b : View) (limit : Nat) :
    agreement a b limit = Backref.agreement a.toList b.toList limit := by
  simp [agreement, agreementFrom_eq]

end Bytewise

/-! ### Word by word -/

/-- The zero bytes at the low end of a word, at most `n` of them. -/
def zeroBytes (word : UInt64) : Nat → Nat
  | 0 => 0
  | n + 1 => if word &&& 0xff = 0 then 1 + zeroBytes (word >>> 8) n else 0

/-- The leading bytes that two words share, told by their exclusive or; equal
words have no first difference. -/
def commonBytes? (difference : UInt64) : Option Nat :=
  if difference = 0 then none else some (zeroBytes difference wordSize)

namespace Wordwise

/-- The agreement from offset `k` on, added to `k`, for views that both have
`limit` bytes. -/
def agreementFrom (a b : View) (limit k : Nat) : Nat :=
  if k < limit then
    match a.word? k, b.word? k with
    | some x, some y =>
      match commonBytes? (x ^^^ y) with
      | none => agreementFrom a b limit (k + wordSize)
      | some n => min (k + n) limit
    | _, _ => Bytewise.agreementFrom a b k (limit - k)
  else limit
termination_by limit - k
decreasing_by simp only [wordSize]; omega

def agreement (a b : View) (limit : Nat) : Nat :=
  agreementFrom a b (min limit (min a.size b.size)) 0

end Wordwise

/-! ### The choice between them -/

inductive Comparator where
  | bytewise
  | wordwise
  deriving Repr, DecidableEq

namespace Comparator

def standard : Comparator := wordwise

def name : Comparator → String
  | bytewise => "bytewise"
  | wordwise => "wordwise"

def agreement : Comparator → View → View → Nat → Nat
  | bytewise => Bytewise.agreement
  | wordwise => Wordwise.agreement

end Comparator

end Backref
