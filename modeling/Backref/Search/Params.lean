/-
# What a search is told, and what it answers

A search is told how many candidates it may look at, when a match is good or
nice enough, how far back a match may lie, how many bytes lie ahead, at which
level it works and how long a match the caller already holds. It answers with a
length and, if it found a longer match than the one it was told of, the position
where that match starts.

Key definitions: `Search.Params`, `Search.Params.validate`, `Search.Outcome`.
Key theorems: `Search.Params.validate_eq_ok_iff`, `Search.Outcome.distance?_eq_some_iff`.
-/
import Backref.Effort
import Backref.Window

namespace Backref.Search

/-! ### Parameters -/

/-- What one search is told besides the bytes, the chain and the positions. -/
structure Params where
  chainBudget : Nat
  /-- A carried length at least this long quarters the budget. -/
  goodLength : Nat
  niceLength : Nat
  maxDistance : Nat
  lookahead : Nat
  /-- The compression level; below `patientLevel` the first candidate that does
  not improve ends the search. -/
  level : Nat
  /-- The length of the match the caller holds, zero for none. -/
  carried : Nat
  deriving Repr, DecidableEq

namespace Params

def ofLevel (level maxDistance lookahead : Nat) : Params :=
  let row := Effort.ofLevel level
  { chainBudget := row.maxChain
    goodLength := row.goodLength
    niceLength := row.niceLength
    maxDistance := maxDistance
    lookahead := lookahead
    level := min level levelLimits.greatest
    carried := 0 }

def withLookahead (p : Params) (lookahead : Nat) : Params := { p with lookahead := lookahead }

def withCarried (p : Params) (carried : Nat) : Params := { p with carried := carried }

/-- Refuse parameters that no caller should use in a window of `2 ^ bits` bytes:
a bad window size first, then a bad distance, then a bad nice length. The search
itself puts up with all of them. -/
def validate (p : Params) (bits : Nat) : Except ConfigError Unit :=
  if ¬ windowBitsLimits.Admits bits then .error (.windowBits bits)
  else if p.maxDistance = 0 ∨ reach bits < p.maxDistance then .error (.maxDistance p.maxDistance)
  else if p.niceLength = 0 then .error (.niceLength p.niceLength)
  else .ok ()

theorem validate_eq_ok_iff (p : Params) (bits : Nat) :
    p.validate bits = .ok () ↔
      windowBitsLimits.Admits bits ∧ 1 ≤ p.maxDistance ∧ p.maxDistance ≤ reach bits ∧
        1 ≤ p.niceLength := by
  unfold validate
  split
  · simp_all
  · split
    · simp only [reduceCtorEq, false_iff]; omega
    · split
      · simp only [reduceCtorEq, false_iff]; omega
      · simp_all only [Decidable.not_not, not_or, Nat.not_lt, true_iff, true_and]; omega

end Params

/-! ### Outcomes -/

structure Outcome where
  /-- The best length, clipped to the bytes ahead. -/
  length : Nat
  /-- Where the match starts, if it beats the carried length. -/
  position : Option Nat
  deriving Repr, DecidableEq

namespace Outcome

def unchanged (length : Nat) : Outcome := ⟨length, none⟩

def apply (o : Outcome) (held : Nat) : Nat := o.position.getD held

def isMatch (o : Outcome) : Bool := o.position.isSome && minMatch ≤ o.length

/-- How far the match lies behind the current position, `some none` if there is
no match; `none` if the match lies after the current position. -/
def distance? (o : Outcome) (current : Nat) : Option (Option Nat) :=
  match o.position with
  | none => some none
  | some p => if p ≤ current then some (some (current - p)) else none

theorem distance?_eq_some_iff (o : Outcome) (current : Nat) :
    (o.distance? current).isSome ↔ ∀ p, o.position = some p → p ≤ current := by
  unfold distance?
  split
  · simp_all
  · split <;> simp_all

end Outcome

end Backref.Search
