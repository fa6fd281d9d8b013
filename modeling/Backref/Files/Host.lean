/-
# What the program asks of the machine it runs on

The program needs five things from outside: whether a path names a directory,
the files below a path, the bytes of a file, the number of cores, and a clock. A
`Host` answers these in some monad; everything else is computed. What can go
wrong with a path is a `FileError`, a cause with the system's own number and
wording.

Key definitions: `FileError`, `PathError`, `Host`.
-/
namespace Backref

inductive FileError where
  | notFound
  /-- Something before the last part of the path is no directory. -/
  | notADirectory
  | isADirectory
  | tooManyLinks
  | nameTooLong
  | zeroByte
  /-- Another cause, in the system's words and with its number. -/
  | other (wording : String) (code : Nat)
  deriving Repr, DecidableEq

namespace FileError

def coded (wording : String) (code : Nat) : String := s!"{wording} (os error {code})"

def message : FileError → String
  | notFound => coded "No such file or directory" 2
  | notADirectory => coded "Not a directory" 20
  | isADirectory => coded "Is a directory" 21
  | tooManyLinks => coded "Too many levels of symbolic links" 40
  | nameTooLong => coded "File name too long" 36
  | zeroByte => "file name contained an unexpected NUL byte"
  | other wording code => coded wording code

end FileError

structure PathError where
  path : String
  cause : FileError
  deriving Repr, DecidableEq

/-- What the program asks of the machine it runs on. -/
structure Host (m : Type → Type) where
  /-- The path names a directory, after following links. -/
  isDirectory : String → m Bool
  /-- The files below a path, in order of their names at every level; links below
  it are skipped. The first path that cannot be listed is an error. -/
  filesBelow : String → m (Except PathError (List String))
  read : String → m (Except FileError (Array UInt8))
  cores : m Nat
  /-- The nanoseconds since some moment in the past. -/
  clock : m Nat

end Backref
