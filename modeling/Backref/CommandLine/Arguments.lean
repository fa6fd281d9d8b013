/-
# Arguments are read from left to right, and values are checked late

An argument that starts with a dash is an option, unless it is a dash alone or
comes after `--`. A long option may carry its value after `=`; short options may
be run together, and one that takes a value takes the rest of the argument, with
or without `=`. A value given as an argument of its own, and the paths, stay
pending: they are checked when the next option takes effect or at the end. So an
unknown option is reported before a bad value in front of it. An option that
takes a value can be given once, and so can a switch; the two that count can be
repeated.

Key definitions: `Arguments`, `Reading`, `Arguments.read`,
`Arguments.scanOptions`.
Key theorems: `Arguments.paths_ne_nil_of_read`.
-/
import Backref.CommandLine.Usage
import Backref.Scan
import Backref.Size

namespace Backref

inductive Setting where
  | level
  | windowBits
  | blockSize
  | threads
  deriving Repr, DecidableEq

inductive Switch where
  | recursive
  | bytewise
  | verify
  | verbose
  | quiet
  | help
  | version
  deriving Repr, DecidableEq

structure Arguments where
  paths : List String := []
  level : Option Nat := none
  windowBits : Option Nat := none
  blockSize : Option Nat := none
  threads : Option Nat := none
  recursive : Bool := false
  bytewise : Bool := false
  verify : Bool := false
  /-- How often more output was asked for. -/
  verbose : Nat := 0
  /-- How often less output was asked for. -/
  quiet : Nat := 0
  deriving Repr, DecidableEq

namespace Arguments

/-! ### Names -/

def settingNames : List (String × Setting) :=
  [("level", .level), ("window-bits", .windowBits), ("block-size", .blockSize),
   ("threads", .threads)]

def switchNames : List (String × Switch) :=
  [("recursive", .recursive), ("bytewise", .bytewise), ("verify", .verify),
   ("verbose", .verbose), ("quiet", .quiet), ("help", .help), ("version", .version)]

def settingLetters : List (Char × Setting) :=
  [('l', .level), ('w', .windowBits), ('B', .blockSize), ('T', .threads)]

def switchLetters : List (Char × Switch) :=
  [('r', .recursive), ('v', .verbose), ('q', .quiet), ('h', .help), ('V', .version)]

/-! ### Taking effect -/

/-- The greatest count of a repeated option. -/
def maxCount : Nat := 255

def turn (a : Arguments) : Switch → Except UsageError Arguments
  | .recursive => if a.recursive then .error .repeated else .ok { a with recursive := true }
  | .bytewise => if a.bytewise then .error .repeated else .ok { a with bytewise := true }
  | .verify => if a.verify then .error .repeated else .ok { a with verify := true }
  | .verbose => .ok { a with verbose := min (a.verbose + 1) maxCount }
  | .quiet => .ok { a with quiet := min (a.quiet + 1) maxCount }
  | .help => .error .help
  | .version => .error .version

def within? (limits : Limits) (value : String) : Option Nat :=
  (Text.numeral? (2 ^ 63) value.toList).filter fun n => limits.Admits n

def value? (value : String) : Setting → Option Nat
  | .level => within? levelLimits value
  | .windowBits => within? windowBitsLimits value
  | .blockSize => (Size.read value).toOption
  | .threads => Text.numeral? (2 ^ 64) value.toList

def get? (a : Arguments) : Setting → Option Nat
  | .level => a.level
  | .windowBits => a.windowBits
  | .blockSize => a.blockSize
  | .threads => a.threads

def put (a : Arguments) (n : Nat) : Setting → Arguments
  | .level => { a with level := some n }
  | .windowBits => { a with windowBits := some n }
  | .blockSize => { a with blockSize := some n }
  | .threads => { a with threads := some n }

/-- An option takes effect with its value; that it is given again is noticed
before the value is read. -/
def assign (a : Arguments) (setting : Setting) (value : String) : Except UsageError Arguments :=
  if (a.get? setting).isSome then .error .repeated
  else
    match value? value setting with
    | none => .error (.badValue value)
    | some n => .ok (a.put n setting)

/-- Paths take effect; none may be blank. -/
def addPaths (a : Arguments) (paths : List String) : Except UsageError Arguments :=
  if "" ∈ paths then .error .missingValue else .ok { a with paths := a.paths ++ paths }

end Arguments

/-! ### Reading -/

/-- What has been read and has not taken effect. -/
inductive Pending where
  | nothing
  | setting (setting : Setting) (value : Option String)
  | paths (paths : List String)
  deriving Repr, DecidableEq

structure Reading where
  arguments : Arguments := {}
  pending : Pending := .nothing
  /-- Only paths follow, because `--` has been read. -/
  onlyPaths : Bool := false
  deriving Repr, DecidableEq

namespace Reading

def settle (r : Reading) : Except UsageError Arguments :=
  match r.pending with
  | .nothing => .ok r.arguments
  | .setting _ none => .error .missingValue
  | .setting setting (some value) => r.arguments.assign setting value
  | .paths paths => r.arguments.addPaths paths

def turn (r : Reading) (switch : Switch) : Except UsageError Reading := do
  let arguments ← (← r.settle).turn switch
  return { r with arguments, pending := .nothing }

def assign (r : Reading) (setting : Setting) (value : String) : Except UsageError Reading := do
  let arguments ← (← r.settle).assign setting value
  return { r with arguments, pending := .nothing }

def await (r : Reading) (setting : Setting) : Except UsageError Reading := do
  return { r with arguments := ← r.settle, pending := .setting setting none }

/-- A path: it joins the paths that are pending, or what is pending takes
effect. -/
def path (r : Reading) (argument : String) : Except UsageError Reading :=
  match r.pending with
  | .paths paths => .ok { r with pending := .paths (paths ++ [argument]) }
  | _ => do return { r with arguments := ← r.settle, pending := .paths [argument] }

def long (r : Reading) (argument : String) (cs : List Char) : Except UsageError Reading :=
  let name := String.ofList (cs.takeWhile (· != '='))
  let value := cs.dropWhile (· != '=')
  match Arguments.settingNames.lookup name, Arguments.switchNames.lookup name with
  | some setting, _ =>
    if value = [] then r.await setting else r.assign setting (String.ofList (value.drop 1))
  | none, some switch =>
    if value = [] then r.turn switch else .error (.unexpectedValue argument)
  | none, none => .error (.unknownOption argument)

def short (argument : String) (r : Reading) : List Char → Except UsageError Reading
  | [] => .ok r
  | c :: rest =>
    match Arguments.settingLetters.lookup c, Arguments.switchLetters.lookup c with
    | some setting, _ =>
      if rest = [] then r.await setting
      else
        let value := if rest.head? = some '=' then rest.drop 1 else rest
        r.assign setting (String.ofList value)
    | none, some switch => do short argument (← r.turn switch) rest
    | none, none => .error (.unknownOption argument)

/-- The value an option waits for, or a path. -/
def plain (r : Reading) (argument : String) : Except UsageError Reading :=
  match r.pending with
  | .setting setting none => .ok { r with pending := .setting setting (some argument) }
  | _ => r.path argument

def argument (r : Reading) (text : String) : Except UsageError Reading :=
  if r.onlyPaths then r.path text
  else
    match text.toList with
    | ['-', '-'] => .ok { r with onlyPaths := true }
    | '-' :: '-' :: cs => r.long text cs
    | ['-'] => r.plain text
    | '-' :: cs => r.short text cs
    | _ => r.plain text

end Reading

namespace Arguments

def requirePath (a : Arguments) : Except UsageError Arguments :=
  if a.paths = [] then .error .missingPath else .ok a

def read (arguments : List String) : Except UsageError Arguments := do
  let reading ← arguments.foldlM Reading.argument {}
  (← reading.settle).requirePath

/-! ### What they ask for -/

def displayLevel (a : Arguments) : Nat := 2 + a.verbose - a.quiet

def comparator (a : Arguments) : Comparator := if a.bytewise then .bytewise else .standard

def windowBitsOrStandard (a : Arguments) : Nat := a.windowBits.getD windowBitsLimits.standard

def blockSizeOrStandard (a : Arguments) : Nat := a.blockSize.getD blockSizeLimits.standard

/-- The level: of the option, or else of the environment. -/
def chosenLevel (a : Arguments) (e : Environment) : Nat × List Warning :=
  match a.level with
  | some n => (n, [])
  | none => e.chosenLevel

def chosenWorkers (a : Arguments) (e : Environment) : Nat × List Warning :=
  match a.threads with
  | some n => (n, [])
  | none => e.chosenWorkers

def warnings (a : Arguments) (e : Environment) : List Warning :=
  (a.chosenLevel e).2 ++ (a.chosenWorkers e).2

/-- The settings of the scan: level, window size and block size are checked in
this order. -/
def scanOptions (a : Arguments) (e : Environment) : Except ConfigError Scan.Options := do
  let level ← checkLevel (a.chosenLevel e).1
  let windowBits ← checkWindowBits a.windowBitsOrStandard
  let blockSize ← checkBlockSize a.blockSizeOrStandard
  return { level, windowBits, blockSize
           workers := (a.chosenWorkers e).1
           comparator := a.comparator
           verify := a.verify }

theorem paths_ne_nil_of_read {arguments : List String} {a : Arguments}
    (h : read arguments = .ok a) : a.paths ≠ [] := by
  simp only [read, bind, Except.bind] at h
  split at h
  · cases h
  · split at h
    · cases h
    · unfold requirePath at h
      split at h
      · cases h
      · cases h; assumption

end Arguments

end Backref
