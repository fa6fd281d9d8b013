/-
# The longest run that repeats the bytes at the current position

A search walks a chain of earlier positions, newest first, and keeps the one
whose bytes agree longest with those at the current position. Four things bound
the walk: a budget of candidates (quartered when the carried match is good), the
greatest distance, a nice length that ends it, and, at impatient levels, the
first candidate that does not improve.

A candidate can only beat the best length `n` if it agrees with the current
bytes at the offsets `n - 1` and `n` and at its first two bytes, so those four
bytes are probed before the rest is measured. Every count is clipped to the
bytes ahead and to `maxMatch`, so bytes past the lookahead never matter.

The links may go in a circle. A candidate that is met again cannot improve, so
the walk ends after one round, however large the budget is.

Key definitions: `Search.Hunt`, `Search.Hunt.improve?`, `Search.Hunt.round`,
`Search.Hunt.walk`, `Search.longest`.
Key theorems: `Search.longest_length_le`.
-/
import Backref.Bytes.Agreement
import Backref.Chain
import Backref.Search.Params

namespace Backref.Search

/-- What stays fixed while a search walks its chain. -/
structure Hunt where
  comparator : Comparator
  bytes : Array UInt8
  links : Links
  current : Nat
  cap : Nat
  nice : Nat
  /-- Links at or below this position are too far back. -/
  floor : Nat
  /-- A candidate that does not improve does not end the walk. -/
  patient : Bool

namespace Hunt

@[inline] def samePair (a b : View) (k : Nat) : Bool :=
  match a.pair? k, b.pair? k with
  | some x, some y => x == y
  | _, _ => false

/-- The bytes a candidate shares with the current position, for a candidate that
agrees on the first two. -/
def measure (h : Hunt) (candidate : Nat) : Nat :=
  2 + h.comparator.agreement ⟨h.bytes, h.current + 2⟩ ⟨h.bytes, candidate + 2⟩ (h.cap - 2)

@[inline] def improve? (h : Hunt) (best candidate : Nat) : Option Nat :=
  let scan : View := ⟨h.bytes, h.current⟩
  let other : View := ⟨h.bytes, candidate⟩
  if samePair other scan (best - 1) && samePair other scan 0 then
    let length := h.measure candidate
    if best < length then some length else none
  else none

/-- The most candidates a walk can meet before it meets one again: the first of
them, and one for each link. -/
def round (h : Hunt) : Nat := h.links.table.size + 1

/-- The best length and position after looking at no more than the given number
of candidates, the first of which is `candidate`. -/
def walk (h : Hunt) : (budget best : Nat) → (position : Option Nat) → (candidate : Nat) →
    Nat × Option Nat
  | 0, best, position, _ => (best, position)
  | budget + 1, best, position, candidate =>
    if h.current ≤ candidate then (best, position)
    else
      match h.improve? best candidate with
      | some length =>
        if h.nice ≤ length then (length, some candidate)
        else
          match h.links.next? candidate with
          | some next =>
            if h.floor < next then h.walk budget length (some candidate) next
            else (length, some candidate)
          | none => (length, some candidate)
      | none =>
        if h.patient then
          match h.links.next? candidate with
          | some next =>
            if h.floor < next then h.walk budget best position next else (best, position)
          | none => (best, position)
        else (best, position)

end Hunt

namespace Params

def cap (p : Params) : Nat := min maxMatch p.lookahead

/-- The length a match has to beat: the carried one, and at least one byte. -/
def baseline (p : Params) : Nat := max 1 p.carried

/-- The candidates a search looks at: the budget, quartered when the carried
match is good, and at least one. -/
def budget (p : Params) : Nat :=
  max 1 (if p.goodLength ≤ p.baseline then p.chainBudget >>> 2 else p.chainBudget)

end Params

/-- The longest match for the bytes at `current`, starting from the candidate
`head`. -/
def longest (comparator : Comparator) (bytes : Array UInt8) (links : Links) (current head : Nat)
    (p : Params) : Outcome :=
  if p.cap ≤ p.baseline ∨ current ≤ head ∨ p.maxDistance < current - head then
    .unchanged (min p.baseline p.cap)
  else
    let hunt : Hunt :=
      { comparator, bytes, links, current
        cap := p.cap
        nice := min p.niceLength p.cap
        floor := current - p.maxDistance
        patient := patientLevel ≤ p.level }
    let (best, position) := hunt.walk (min p.budget hunt.round) p.baseline none head
    ⟨min best p.cap, position⟩

theorem longest_length_le (comparator : Comparator) (bytes : Array UInt8) (links : Links)
    (current head : Nat) (p : Params) :
    (longest comparator bytes links current head p).length ≤ min maxMatch p.lookahead := by
  unfold longest
  split
  · exact Nat.min_le_right _ _
  · exact Nat.min_le_right _ _

end Backref.Search
