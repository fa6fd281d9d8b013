/-
# The greedy loop takes every match it finds

At each position the greedy loop searches for a match of at least `minMatch`
bytes. If there is one it emits a copy and jumps behind it, and indexes the
positions under it unless it is longer than the row's `maxLazy`; if there is
none it emits a literal. Every iteration moves forward, so the loop ends.

Key definitions: `Parse.Greedy.Choice`, `Parse.Greedy.step`, `Parse.Greedy.run`.
Key theorems: `Parse.Greedy.pos_lt_step`.
-/
import Backref.Parse.Setup

namespace Backref.Parse.Greedy

structure State where
  pos : Nat
  chain : HashChain
  journal : Journal

inductive Choice where
  | literal
  | copy (length start : Nat)
  deriving Repr, DecidableEq

def look (s : Setup) (chain : HashChain) (pos head : Nat) : Option Search.Outcome :=
  if s.inReach pos head then some (s.search chain pos head (minMatch - 1)) else none

/-- Take a new match that is long enough to encode. -/
def choose : Option Search.Outcome → Choice
  | some ⟨length, some start⟩ => if minMatch ≤ length then .copy length start else .literal
  | _ => .literal

/-- The positions under a copy that are indexed: all of them, or none if it is
too long. -/
def followers (s : Setup) (pos length : Nat) : List Nat :=
  if length ≤ s.effort.maxLazy then s.indexable (pos + 1) (pos + length) else []

def step (s : Setup) : State → State
  | ⟨pos, chain, journal⟩ =>
    let (head, chain) := s.arrive chain pos
    let outcome := look s chain pos head
    let journal := journal.note outcome
    match choose outcome with
    | .copy length start =>
      ⟨pos + length, s.index chain (followers s pos length),
        journal.emitCopy length (pos - start)⟩
    | .literal => ⟨pos + 1, chain, journal.emitLiteral (s.byteAt pos)⟩

theorem minMatch_le_of_choose {outcome : Option Search.Outcome} {length start : Nat}
    (h : choose outcome = .copy length start) : minMatch ≤ length := by
  unfold choose at h
  split at h
  · split at h
    · cases h; assumption
    · cases h
  · cases h

theorem pos_lt_step (s : Setup) (st : State) : st.pos < (step s st).pos := by
  obtain ⟨pos, chain, journal⟩ := st
  simp only [step]
  split
  · rename_i h
    have := minMatch_le_of_choose h
    simp only [minMatch] at this
    simp only; omega
  · simp

def run (s : Setup) (st : State) : State :=
  if st.pos < s.window.size then run s (step s st) else st
termination_by s.window.size - st.pos
decreasing_by have := pos_lt_step s st; omega

def start (hashBits : Nat) (s : Setup) : State := ⟨0, .empty s.window.bits hashBits, .empty⟩

end Backref.Parse.Greedy
