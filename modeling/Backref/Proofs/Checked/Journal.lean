/-
# Writing down what a loop does never faults

A literal is a byte that is read from the block, a copy has to be one that the format
and the window allow, and every counter is a 64-bit number. A search counts one, and a
token no more than the bytes it covers, so the counters of a loop are far below their
limit: they grow by no more than `maxMatch + 1` with each position.

Key definitions: `Parse.Journal.Within`, `Checked.note`, `Checked.emitLiteral`,
`Checked.emitCopy`.
Key theorems: `Parse.Journal.Within.note`, `Parse.Journal.Within.emit`,
`Checked.note_eq`, `Checked.emitLiteral_eq`, `Checked.emitCopy_eq`.
-/
import Backref.Proofs.Checked.Moves
import Backref.Proofs.Matches

namespace Backref

/-- No counter of a journal is more than `n`. -/
structure Parse.Journal.Within (j : Parse.Journal) (n : Nat) : Prop where
  bytes : j.tally.counters.bytes ≤ n
  literals : j.tally.counters.literals ≤ n
  copies : j.tally.counters.copies ≤ n
  copiedBytes : j.tally.counters.copiedBytes ≤ n
  searches : j.tally.counters.searches ≤ n
  improved : j.tally.counters.improved ≤ n

/-- A copy that repeats earlier bytes covers no more than the longest copy. -/
theorem Window.Repeats.covered_le {w : Window} {pos start length : Nat}
    (h : w.Repeats pos start length) :
    (Token.copy length.toUInt16 (pos - start).toUInt16).covered ≤ maxMatch := by
  rw [Token.covered, h.toNat_eq.1]
  exact h.le_maxMatch

namespace Parse.Journal

variable {j : Journal} {n : Nat}

theorem within_empty (n : Nat) : empty.Within n := by
  constructor <;> exact Nat.zero_le n

theorem Within.mono (h : j.Within n) {m : Nat} (hle : n ≤ m) : j.Within m where
  bytes := Nat.le_trans h.bytes hle
  literals := Nat.le_trans h.literals hle
  copies := Nat.le_trans h.copies hle
  copiedBytes := Nat.le_trans h.copiedBytes hle
  searches := Nat.le_trans h.searches hle
  improved := Nat.le_trans h.improved hle

/-- A search counts one. -/
theorem Within.note (h : j.Within n) (outcome : Option Search.Outcome) :
    (j.note outcome).Within (n + 1) := by
  have hmore := h.mono (Nat.le_succ n)
  rcases outcome with _ | outcome
  · exact hmore
  · refine ⟨hmore.bytes, hmore.literals, hmore.copies, hmore.copiedBytes,
      Nat.succ_le_succ h.searches, ?_⟩
    change (if outcome.position.isSome then _ else _) ≤ n + 1
    split
    · exact Nat.succ_le_succ h.improved
    · exact hmore.improved

/-- A token counts no more than the bytes it covers, and one. -/
theorem Within.emit (h : j.Within n) {token : Token} (htoken : token.covered ≤ maxMatch) :
    (j.emit token).Within (n + maxMatch) := by
  have hmore := h.mono (Nat.le_add_right n maxMatch)
  have hone {k : Nat} (hk : k ≤ n) : k + 1 ≤ n + maxMatch := Nat.add_le_add hk (by decide)
  cases token with
  | literal byte =>
    exact ⟨hone h.bytes, hone h.literals, hmore.copies, hmore.copiedBytes, hmore.searches,
      hmore.improved⟩
  | copy length distance =>
    exact ⟨Nat.add_le_add h.bytes htoken, hmore.literals, hone h.copies,
      Nat.add_le_add h.copiedBytes htoken, hmore.searches, hmore.improved⟩

end Parse.Journal

namespace Checked

open Parse

def counted (j : Journal) : Checked Journal := do
  atMost maxCounter j.tally.counters.bytes
  atMost maxCounter j.tally.counters.literals
  atMost maxCounter j.tally.counters.copies
  atMost maxCounter j.tally.counters.copiedBytes
  atMost maxCounter j.tally.counters.searches
  atMost maxCounter j.tally.counters.improved
  .ok j

def note (j : Journal) (outcome : Option Search.Outcome) : Checked Journal :=
  counted (j.note outcome)

/-- The block, which is at the front of the guarded bytes. -/
def block (w : Window) : Checked (Array UInt8) := do
  require (w.size ≤ w.guarded.size) (.outOfBounds w.size w.guarded.size)
  .ok w.data

def emitLiteral (s : Setup) (j : Journal) (pos : Nat) : Checked Journal := do
  let data ← block s.window
  let byte ← get data pos
  counted (j.emitLiteral byte)

/-- A copy, of a length and distance that the format and the window allow. -/
def emitCopy (s : Setup) (j : Journal) (length distance : Nat) : Checked Journal := do
  let farthest ← reach s.window.bits
  require (1 ≤ distance ∧ distance ≤ farthest) (.badCopy length distance)
  require (minMatch ≤ length ∧ length ≤ maxMatch) (.badCopy length distance)
  counted (j.emitCopy length distance)

variable {s : Setup} {j : Journal} {n : Nat}

theorem counted_eq (h : j.Within n) (hn : n ≤ maxCounter) : counted j = .ok j := by
  obtain ⟨h1, h2, h3, h4, h5, h6⟩ := h.mono hn
  simp only [counted, atMost_eq_ok h1, atMost_eq_ok h2, atMost_eq_ok h3, atMost_eq_ok h4,
    atMost_eq_ok h5, atMost_eq_ok h6, ok_bind]

theorem block_eq (w : Window) : block w = .ok w.data := by
  have hsize : w.size ≤ w.guarded.size := by
    rw [w.size_guarded]
    exact Nat.le_add_right _ _
  rw [block, require_eq_ok hsize, ok_bind]

theorem note_eq (h : j.Within n) (hn : n + 1 ≤ maxCounter) (outcome : Option Search.Outcome) :
    note j outcome = .ok (j.note outcome) :=
  counted_eq (h.note outcome) hn

theorem emitLiteral_eq (h : j.Within n) (hn : n + maxMatch ≤ maxCounter) {pos : Nat}
    (hpos : pos < s.window.size) :
    emitLiteral s j pos = .ok (j.emitLiteral (s.byteAt pos)) := by
  have hbyte : s.window.data[pos]? = some (s.byteAt pos) := Setup.describes_byteAt hpos
  have hcovered : (Token.literal (s.byteAt pos)).covered ≤ maxMatch :=
    show 1 ≤ maxMatch by decide
  rw [emitLiteral, block_eq, ok_bind, get_eq_ok_iff.mpr hbyte, ok_bind]
  exact counted_eq (h.emit hcovered) hn

/-- A copy that repeats earlier bytes of the block passes both assertions. -/
theorem emitCopy_eq (h : j.Within n) (hn : n + maxMatch ≤ maxCounter) {pos start length : Nat}
    (hrep : s.window.Repeats pos start length) :
    emitCopy s j length (pos - start) = .ok (j.emitCopy length (pos - start)) := by
  have hbefore := hrep.before
  have hdistance : 1 ≤ pos - start ∧ pos - start ≤ Backref.reach s.window.bits :=
    ⟨by omega, hrep.near⟩
  rw [emitCopy, reach_eq s.window.bits_admitted, ok_bind, require_eq_ok hdistance, ok_bind,
    require_eq_ok ⟨hrep.minMatch_le, hrep.le_maxMatch⟩, ok_bind]
  exact counted_eq (h.emit hrep.covered_le) hn

end Checked

end Backref
