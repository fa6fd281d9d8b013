/-
# The command line

The machine the program runs on, as a `Host`, and the entry point: the arguments
are read, the run is made, its lines are printed and its exit code is returned.
-/
import Backref.CommandLine.Run
import Backref.Files.Tree

namespace Backref.Machine

/-! ### What the system says is wrong -/

def codeAndWording : IO.Error → UInt32 × String
  | .noFileOrDirectory _ code wording | .interrupted _ code wording
  | .alreadyExists _ code wording | .invalidArgument _ code wording
  | .permissionDenied _ code wording | .resourceExhausted _ code wording
  | .inappropriateType _ code wording | .noSuchThing _ code wording
  | .otherError code wording | .resourceBusy code wording | .resourceVanished code wording
  | .unsupportedOperation code wording | .hardwareFault code wording
  | .unsatisfiedConstraints code wording | .illegalOperation code wording
  | .protocolError code wording | .timeExpired code wording => (code, wording)
  | .unexpectedEof => (0, "unexpected end of file")
  | .userError wording => (0, wording)

/-- The cause of a system error; some numbers come with their sign turned. -/
def cause (e : IO.Error) : FileError :=
  let (code, wording) := codeAndWording e
  let number := if code.toNat < 2 ^ 31 then code.toNat else (0 - code).toNat
  match number with
  | 2 => .notFound
  | 20 => .notADirectory
  | 21 => .isADirectory
  | 36 => .nameTooLong
  | 40 => .tooManyLinks
  | _ => .other wording number

def attempt {α : Type} (action : IO α) : IO (Except FileError α) := do
  match ← action.toBaseIO with
  | .ok value => return .ok value
  | .error e => return .error (cause e)

/-! ### Files -/

def listingOf (path : String) : IO.FS.DirEntry := ⟨path, ""⟩

def join (path name : String) : String := FileTree.join path [name]

def attemptOn {α : Type} (path : String) (action : IO α) : ExceptT PathError IO α := do
  match ← attempt action with
  | .ok value => return value
  | .error cause => throw ⟨path, cause⟩

/-- The files below a directory, in order of their names at every level. -/
partial def filesIn (path : String) : ExceptT PathError IO (List String) := do
  let names := (← attemptOn path (listingOf path).root.readDir).toList.map (·.fileName)
  let below ← (names.mergeSort fun x y => !decide (y < x)).mapM fun name => do
    let child := join path name
    match (← attemptOn child (listingOf child).root.symlinkMetadata).type with
    | .dir => filesIn child
    | .file => return [child]
    | _ => return []
  return below.flatten

/-- The files below a path; a link given as the path itself is followed. -/
def filesBelow (path : String) : ExceptT PathError IO (List String) := do
  match (← attemptOn path (listingOf path).root.symlinkMetadata).type with
  | .dir => filesIn path
  | .file => return [path]
  | .symlink =>
    match (← attemptOn path (listingOf path).root.metadata).type with
    | .dir => filesIn path
    | _ => return []
  | .other => return []

/-! ### The machine -/

/-- The number of cores that the system lists, at least one. -/
def cores : IO Nat := do
  match ← attempt (IO.FS.readFile "/proc/cpuinfo") with
  | .ok text => return max 1 ((text.splitOn "\n").filter (·.startsWith "processor")).length
  | .error _ => return 1

def host : Host IO where
  isDirectory path := (listingOf path).root.isDir
  filesBelow path := (filesBelow path).run
  read path := do
    match ← attempt (IO.FS.readBinFile path) with
    | .ok bytes => return .ok bytes.data
    | .error e => return .error e
  cores := cores
  clock := IO.monoNanosNow

def environment : IO Environment := do
  let bytesOf (name : String) : IO (Option (Array UInt8)) := do
    return (← IO.getEnv name).map fun text => text.toUTF8.data
  return { level := ← bytesOf levelVariable, workers := ← bytesOf workersVariable }

end Backref.Machine

def main (arguments : List String) : IO UInt32 := do
  let transcript ← match Backref.Arguments.read arguments with
    | .error cause => pure (Backref.Transcript.ofUsage cause)
    | .ok accepted => Backref.run Backref.Machine.host (← Backref.Machine.environment) accepted
  for line in transcript.output do
    IO.println line
  for line in transcript.notes do
    IO.eprintln line
  return UInt32.ofNat transcript.exitCode
