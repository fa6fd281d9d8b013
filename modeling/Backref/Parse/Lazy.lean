/-
# The lazy loop holds a match back for one byte

The lazy loop searches at each position too, but it does not take the match at
once: it holds it while it looks at the next position. If the match there is
strictly longer the held one is dropped and its first byte becomes a literal;
otherwise the held match is emitted, from the position before, and the loop
jumps behind it. A match of exactly `minMatch` bytes that lies farther back than
`tooFar` counts as none. While a match of `maxLazy` bytes or more is held there
is no search.

Key definitions: `Parse.Lazy.State`, `Parse.Lazy.look`, `Parse.Lazy.step`,
`Parse.Lazy.run`, `Parse.Lazy.flush`.
Key theorems: `Parse.Lazy.pos_lt_step`.
-/
import Backref.Parse.Setup

namespace Backref.Parse.Lazy

structure State where
  pos : Nat
  chain : HashChain
  journal : Journal
  /-- The length of the match found at the position before, `minMatch - 1` for
  none. -/
  length : Nat
  start : Nat
  /-- The byte at the position before is not covered by a token yet. -/
  pending : Bool

def noMatch : Nat := minMatch - 1

/-- The search at a position, if there is a candidate in reach and the held
match is short enough to look for a longer one. -/
def look (s : Setup) (chain : HashChain) (pos head held : Nat) : Option Search.Outcome :=
  if s.inReach pos head && held < s.effort.maxLazy then some (s.search chain pos head held)
  else none

def startAfter (held : Nat) : Option Search.Outcome → Nat
  | none => held
  | some outcome => outcome.apply held

/-- The length found at a position whose last match starts at `start`; a match
of `minMatch` bytes that lies too far back counts as none. -/
def lengthAt (pos start : Nat) : Option Search.Outcome → Nat
  | none => noMatch
  | some outcome =>
    if outcome.length = minMatch ∧ tooFar < pos - start then noMatch else outcome.length

def step (s : Setup) : State → State
  | ⟨pos, chain, journal, held, heldStart, pending⟩ =>
    let (head, chain) := s.arrive chain pos
    let outcome := look s chain pos head held
    let journal := journal.note outcome
    let start := startAfter heldStart outcome
    let length := lengthAt pos start outcome
    if minMatch ≤ held ∧ length ≤ held then
      let next := pos - 1 + held
      ⟨next, s.index chain (s.indexable (pos + 1) next),
        journal.emitCopy held (pos - 1 - heldStart), noMatch, start, false⟩
    else if pending then
      ⟨pos + 1, chain, journal.emitLiteral (s.byteAt (pos - 1)), length, start, true⟩
    else ⟨pos + 1, chain, journal, length, start, true⟩

theorem pos_lt_step (s : Setup) (st : State) : st.pos < (step s st).pos := by
  obtain ⟨pos, chain, journal, held, heldStart, pending⟩ := st
  simp only [step]
  split
  · rename_i h
    have := h.1
    simp only [minMatch] at this
    simp only; omega
  · split <;> simp

def run (s : Setup) (st : State) : State :=
  if st.pos < s.window.size then run s (step s st) else st
termination_by s.window.size - st.pos
decreasing_by have := pos_lt_step s st; omega

def start (hashBits : Nat) (s : Setup) : State where
  pos := 0
  chain := .empty s.window.bits hashBits
  journal := .empty
  length := noMatch
  start := noPosition
  pending := false

/-- The journal at the end: a last byte that no token covers becomes a
literal. -/
def flush (s : Setup) (st : State) : Journal :=
  if st.pending then st.journal.emitLiteral (s.byteAt (st.pos - 1)) else st.journal

end Backref.Parse.Lazy
