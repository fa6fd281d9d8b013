/-
# Two variables stand in for options that are not given

`LZMATCH_CLEVEL` stands in for the compression level and `LZMATCH_NBWORKERS` for
the number of workers. A value is trimmed and read as a decimal numeral. One
that cannot be used is passed over in favour of the standard setting, with a
warning that quotes it; one that is not text at all is passed over in silence,
as if the variable were not set.

Key definitions: `Environment`, `Environment.chosenLevel`,
`Environment.chosenWorkers`, `Warning`.
Key theorems: `Environment.admits_chosenLevel`.
-/
import Backref.Limits
import Backref.Text.Blank
import Backref.Text.Numeral

namespace Backref

def levelVariable : String := "LZMATCH_CLEVEL"

def workersVariable : String := "LZMATCH_NBWORKERS"

/-- The bytes of the two variables, where they are set. -/
structure Environment where
  level : Option (Array UInt8)
  workers : Option (Array UInt8)
  deriving Repr, DecidableEq

/-- A variable that is passed over; each cause carries its text. -/
inductive Warning where
  | level (text : String)
  | workers (text : String)
  deriving Repr, DecidableEq

def Warning.message : Warning → String
  | level text =>
    s!"Ignore environment variable setting {levelVariable}={text}: not a valid level"
  | workers text =>
    s!"Ignore environment variable setting {workersVariable}={text}: not a number"

namespace Environment

/-- The text of a variable, if it is set and its bytes are UTF-8. -/
def text? (value : Option (Array UInt8)) : Option String :=
  value.bind fun bytes => String.fromUTF8? ⟨bytes⟩

def level? (text : String) : Option Nat :=
  (Text.numeral? (2 ^ 32) (Text.trim text.toList)).filter fun n => levelLimits.Admits n

def workers? (text : String) : Option Nat :=
  (Text.numeral? (2 ^ 64) (Text.trim text.toList)).map fun n => min n workerLimits.greatest

/-- The level to use when no option gives one, and what to warn of. -/
def chosenLevel (e : Environment) : Nat × List Warning :=
  match text? e.level with
  | none => (levelLimits.standard, [])
  | some text =>
    match level? text with
    | some n => (n, [])
    | none => (levelLimits.standard, [.level text])

def chosenWorkers (e : Environment) : Nat × List Warning :=
  match text? e.workers with
  | none => (workerLimits.standard, [])
  | some text =>
    match workers? text with
    | some n => (n, [])
    | none => (workerLimits.standard, [.workers text])

theorem admits_chosenLevel (e : Environment) : levelLimits.Admits e.chosenLevel.1 := by
  unfold chosenLevel
  split
  · decide
  · split
    · rename_i h
      simpa using (Option.filter_eq_some_iff.mp h).2
    · exact (by decide : levelLimits.Admits levelLimits.standard)

end Environment

end Backref
