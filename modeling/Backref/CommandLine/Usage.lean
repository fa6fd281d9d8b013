/-
# How the program is used, and why arguments are not accepted

Arguments that are not used to scan end in a `UsageError`: the help or the
version was asked for, or something is wrong with an option, a value or the
paths. The help and the version are answers; all else is an error.

Key definitions: `UsageError`, `UsageError.lines`, `UsageError.exitCode`.
-/
import Backref.Report
import Backref.CommandLine.Environment

namespace Backref

inductive UsageError where
  | help
  | version
  | unknownOption (argument : String)
  | unexpectedValue (argument : String)
  /-- An option lacks its value, or a path is blank. -/
  | missingValue
  | badValue (value : String)
  /-- An option that can be given once was given again. -/
  | repeated
  | missingPath
  deriving Repr, DecidableEq

namespace UsageError

def helpLine (names purpose : String) : String :=
  "  " ++ names ++ String.ofList (List.replicate (33 - names.length) ' ') ++ purpose

def helpLines : List String :=
  ["Measure how well a DEFLATE-style hash-chain match finder covers the given files",
   "",
   s!"Usage: {programName} [OPTIONS] <FILE>...",
   "",
   "Arguments:",
   "  <FILE>...  Files to scan (directories need -r)",
   "",
   "Options:",
   helpLine "-l, --level <LEVEL>"
     s!"Compression level, 1 (fastest) to 9 (best) [env: {levelVariable}, default: 6]",
   helpLine "-w, --window-bits <WINDOW_BITS>"
     "Window size as a base-two logarithm [default: 15]",
   helpLine "-B, --block-size <BLOCK_SIZE>"
     "Independent block size, e.g. 256K or 4M [default: 1048576]",
   helpLine "-T, --threads <THREADS>"
     s!"Worker threads, 0 for one per core [env: {workersVariable}]",
   helpLine "-r, --recursive" "Walk directories recursively",
   helpLine "    --bytewise" "Force the portable byte-at-a-time comparator",
   helpLine "    --verify"
     "Rebuild every block from its tokens and compare with the input",
   helpLine "-v, --verbose..." "More output (repeatable)",
   helpLine "-q, --quiet..." "Less output (repeatable)",
   helpLine "-h, --help" "Print help",
   helpLine "-V, --version" "Print version"]

def quoted (s : String) : String := "'" ++ s ++ "'"

def lines : UsageError → List String
  | help => helpLines
  | version => [s!"{programName} {versionText}"]
  | unknownOption argument => ["error: unexpected argument " ++ quoted argument ++ " found"]
  | unexpectedValue argument =>
    ["error: unexpected value for " ++ quoted argument ++ " found; no more were expected"]
  | missingValue => ["error: a value is required but none was supplied"]
  | badValue value => ["error: invalid value " ++ quoted value]
  | repeated => ["error: an argument cannot be used multiple times"]
  | missingPath => ["error: the following required arguments were not provided:", "  <FILE>..."]

/-- Help and version are no failure. -/
def exitCode : UsageError → Nat
  | help | version => 0
  | _ => 1

end UsageError

end Backref
