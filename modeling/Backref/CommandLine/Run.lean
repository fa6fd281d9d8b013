/-
# A run scans every file and says what it found

A run resolves the options, lists the files and scans them one after the other.
What it prints is a `Transcript`: lines of output, lines of notes, and an exit
code. How much is printed hangs on the display level: errors of a file from 1
on, warnings and the totals from 2, progress from 3, single blocks from 4. A run
that cannot start, because its options are refused, its inputs cannot be listed
or there are none, says so at every level and scans nothing. A file that cannot
be scanned is noted, fails the run, and changes nothing for the other files.

Key definitions: `Transcript`, `Run.fileTranscript`, `Run.totals`, `run`.
Key theorems: `Transcript.append_output`, `Transcript.append_notes`.
-/
import Backref.CommandLine.Arguments
import Backref.Files.Inputs

namespace Backref

structure Transcript where
  /-- The lines of the standard output. -/
  output : List String := []
  /-- The lines of the standard error output. -/
  notes : List String := []
  exitCode : Nat := 0
  deriving Repr, DecidableEq

namespace Transcript

/-- One transcript after another; the run fails if either does. -/
def append (s t : Transcript) : Transcript where
  output := s.output ++ t.output
  notes := s.notes ++ t.notes
  exitCode := max s.exitCode t.exitCode

instance : Append Transcript := ⟨append⟩

theorem append_output (s t : Transcript) : (s ++ t).output = s.output ++ t.output := rfl

theorem append_notes (s t : Transcript) : (s ++ t).notes = s.notes ++ t.notes := rfl

end Transcript

namespace Run

abbrev FileResult := Except FileScanError (Scan × Elapsed)

/-! ### Lines -/

def errorLine (message : String) : String := s!"{programName}: {message}"

/-- Lines that are printed from a display level on. -/
def atLevel (display needed : Nat) (lines : List String) : List String :=
  if needed ≤ display then lines else []

def failure (message : String) : Transcript where
  notes := [errorLine message]
  exitCode := 1

def blockBytes (blockSize total index : Nat) : Nat := min blockSize (total - index * blockSize)

def blockLines (blockSize : Nat) (found : Scan) : List String :=
  found.perBlock.zipIdx.map fun (stats, index) =>
    Report.blockLine index (blockBytes blockSize found.bytes index) stats

def fileTranscript (display blockSize : Nat) (path : String) : FileResult → Transcript
  | .ok (found, elapsed) =>
    { output := atLevel display 1
        [Report.fileLine path found.bytes found.blockCount found.stats found.verified]
      notes := atLevel display 4 (blockLines blockSize found) ++
        atLevel display 3 [Report.detailLine found.bytes found.stats elapsed] }
  | .error e =>
    { notes := atLevel display 1 [errorLine e.message]
      exitCode := 1 }

/-! ### Totals -/

def scanned (results : List FileResult) : List Scan :=
  results.filterMap fun result => result.toOption.map (·.1)

/-- What is printed about several files together. -/
def totals (display : Nat) (results : List FileResult) : Transcript :=
  let found := scanned results
  { notes :=
      if results.length ≤ 1 then []
      else
        atLevel display 2
          [Report.totalLine found.length (found.foldl (fun sum file => sum + file.bytes) 0)
            (found.foldl (fun sum file => sum + file.stats.copiedBytes) 0)] }

def transcript (display blockSize : Nat) (results : List (String × FileResult)) : Transcript :=
  (results.map fun (path, result) => fileTranscript display blockSize path result).foldr (· ++ ·)
    (totals display (results.map (·.2)))

/-- What is printed before the files are listed. -/
def opening (display cores : Nat) (o : Scan.Options) : Transcript where
  notes := atLevel display 3
    [Report.welcome o.comparator, Report.settingsLine o (resolveWorkers cores o.workers)]

def warnings (display : Nat) (ws : List Warning) : Transcript where
  notes := atLevel display 2 (ws.map (·.message))

/-! ### The run -/

def scanFiles {m : Type → Type} [Monad m] (host : Host m) (o : Scan.Options) :
    List String → m (List (String × FileResult))
  | [] => return []
  | path :: rest => do
    let result ← scanFile host o path
    let more ← scanFiles host o rest
    return (path, result) :: more

def withOptions {m : Type → Type} [Monad m] (host : Host m) (a : Arguments) (o : Scan.Options) :
    m Transcript := do
  match ← expandInputs host a.recursive a.paths with
  | .error e => return failure e.message
  | .ok [] => return failure "no input files"
  | .ok files =>
    let results ← scanFiles host o files
    return transcript a.displayLevel o.blockSize results

end Run

/-- What is printed when the arguments are not used to scan: help and version are
output, anything else is a note. -/
def Transcript.ofUsage (cause : UsageError) : Transcript where
  output := if cause.exitCode = 0 then cause.lines else []
  notes := if cause.exitCode = 0 then [] else cause.lines
  exitCode := cause.exitCode

def run {m : Type → Type} [Monad m] (host : Host m) (e : Environment) (a : Arguments) :
    m Transcript := do
  let warned := Run.warnings a.displayLevel (a.warnings e)
  match a.scanOptions e with
  | .error cause => return warned ++ Run.failure cause.message
  | .ok o =>
    let opened := Run.opening a.displayLevel (← host.cores) o
    let rest ← Run.withOptions host a o
    return warned ++ opened ++ rest

end Backref
