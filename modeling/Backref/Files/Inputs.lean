/-
# The inputs named by the user become a list of files

A path that names a directory stands for the files below it, and only if
recursion was asked for; without it the path is refused. Any other path stands
for itself, whether or not there is a file: a missing one is reported when it is
read.

Key definitions: `InputError`, `expandInputs`, `FileScanError`, `scanFile`.
-/
import Backref.Files.Host
import Backref.Report

namespace Backref

inductive InputError where
  /-- A directory, and no recursion asked for. -/
  | directory (path : String)
  | listing (error : PathError)
  deriving Repr, DecidableEq

def InputError.message : InputError → String
  | directory path => s!"{path}: is a directory (use -r to scan it)"
  | listing error => s!"IO error for operation on {error.path}: {error.cause.message}"

def listFiles {m : Type → Type} [Monad m] (host : Host m) (path : String) :
    m (Except InputError (List String)) := do
  match ← host.filesBelow path with
  | .error e => return .error (.listing e)
  | .ok files => return .ok files

/-- The files one input stands for. -/
def expandInput {m : Type → Type} [Monad m] (host : Host m) (recursive : Bool) (path : String) :
    m (Except InputError (List String)) := do
  if ← host.isDirectory path then
    if recursive then listFiles host path else return .error (.directory path)
  else return .ok [path]

/-- The files all inputs stand for, in order; the first input that fails ends the
list. -/
def expandInputs {m : Type → Type} [Monad m] (host : Host m) (recursive : Bool) :
    List String → m (Except InputError (List String))
  | [] => return .ok []
  | path :: rest => do
    match ← expandInput host recursive path with
    | .error e => return .error e
    | .ok files =>
      match ← expandInputs host recursive rest with
      | .error e => return .error e
      | .ok more => return .ok (files ++ more)

/-! ### Scanning a file -/

inductive FileScanError where
  | unreadable (path : String) (cause : FileError)
  | failed (path : String) (cause : Scan.Error)
  deriving Repr, DecidableEq

def FileScanError.message : FileScanError → String
  | unreadable path cause => s!"{path}: cannot read: {cause.message}"
  | failed path cause => s!"{path}: {cause.message}"

def FileScanError.config? : FileScanError → Option ConfigError
  | unreadable _ _ => none
  | failed _ cause => cause.config?

def scanFile {m : Type → Type} [Monad m] (host : Host m) (o : Scan.Options) (path : String) :
    m (Except FileScanError (Scan × Elapsed)) := do
  match ← host.read path with
  | .error cause => return .error (.unreadable path cause)
  | .ok bytes =>
    let before ← host.clock
    match scan bytes o with
    | .error cause => return .error (.failed path cause)
    | .ok found =>
      let after ← host.clock
      return .ok (found, .ofNanoseconds (after - before))

end Backref
