/-
# A tree of files, directories and symbolic links

A `FileTree` lists what is at each path, a path being the list of its names from
the root. Relative paths start at its home, which is a directory, as is
everything on the way to it. A path given as text is resolved name by name:
blank names and `.` stay, `..` goes up, a link is replaced by its target, and
the path ends in an error as soon as a name is missing or lies below something
that is no directory. No more than `maxLinks` links are followed.

The files below a directory come in the order of their names at every level,
which is the lexicographic order of their paths. Links below the directory are
not followed and not listed.

Key definitions: `FileTree`, `FileTree.resolve`, `FileTree.read`,
`FileTree.isDirectory`, `FileTree.filesBelow`, `FileTree.host`.
-/
import Backref.Files.Host

namespace Backref

inductive Entry where
  | file (bytes : Array UInt8)
  | directory
  | link (target : String)
  /-- Something else that bytes can be read from. -/
  | device (bytes : Array UInt8)
  deriving Repr, DecidableEq

def Entry.isDirectory : Entry → Bool
  | directory => true
  | _ => false

def Entry.isFile : Entry → Bool
  | file _ => true
  | _ => false

/-- What is at each path. -/
structure FileTree where
  /-- Where relative paths start. -/
  home : List String
  /-- What is at the other paths; the home and what is on the way to it is left
  out. -/
  entries : List (List String × Entry)
  deriving Repr

namespace FileTree

/-- The most links one path may lead through. -/
def maxLinks : Nat := 40

/-- The longest name, in bytes. -/
def maxName : Nat := 255

/-- The longest path, in bytes. -/
def maxPath : Nat := 4095

def ofHome (home : List String) : FileTree := ⟨home, []⟩

/-- What is at a path, links not followed. -/
def lookup (t : FileTree) (path : List String) : Option Entry :=
  if path.isPrefixOf t.home then some .directory
  else (t.entries.find? fun e => e.1 == path).map (·.2)

def put (t : FileTree) (path : List String) (entry : Entry) : FileTree :=
  ⟨t.home, t.entries.filter (fun e => e.1 != path) ++ [(path, entry)]⟩

def names (path : String) : List String := path.splitOn "/"

/-- Where a path given as text starts, if relative paths start at `here`. -/
def startOf (here : List String) (path : String) : List String :=
  if path.startsWith "/" then [] else here

/-! ### Resolving a path -/

/-- Follow names from a path on. A link at the very end is followed only if
`followLast` is set; `links` more links may be followed. -/
def follow (t : FileTree) (followLast : Bool) (links : Nat) (here : List String) :
    List String → Except FileError (List String)
  | [] => .ok here
  | name :: rest =>
    match t.lookup here with
    | some .directory =>
      if name = "" ∨ name = "." then t.follow followLast links here rest
      else if name = ".." then t.follow followLast links here.dropLast rest
      else if maxName < name.utf8ByteSize then .error .nameTooLong
      else
        match t.lookup (here ++ [name]) with
        | none => .error .notFound
        | some (.link target) =>
          if rest = [] ∧ followLast = false then .ok (here ++ [name])
          else if target = "" then .error .notFound
          else
            match links with
            | 0 => .error .tooManyLinks
            | links + 1 =>
              t.follow followLast links (startOf here target) (names target ++ rest)
        | some _ => t.follow followLast links (here ++ [name]) rest
    | _ => .error .notADirectory
termination_by names => (links, names.length)

def resolve (t : FileTree) (followLast : Bool) (path : String) : Except FileError (List String) :=
  if path.contains '\x00' then .error .zeroByte
  else if path = "" then .error .notFound
  else if maxPath < path.utf8ByteSize then .error .nameTooLong
  else t.follow followLast maxLinks (startOf t.home path) (names path)

def find (t : FileTree) (path : String) : Except FileError Entry :=
  match t.resolve true path with
  | .error e => .error e
  | .ok here =>
    match t.lookup here with
    | none => .error .notFound
    | some entry => .ok entry

/-! ### Building a tree -/

/-- Go down from a path by names, and make a directory wherever there is nothing.
The answer is the path that is reached, and the tree. -/
def enter (t : FileTree) (here : List String) : List String → List String × FileTree
  | [] => (here, t)
  | name :: rest =>
    match t.follow true maxLinks here [name] with
    | .ok there => t.enter there rest
    | .error _ => (t.put (here ++ [name]) .directory).enter (here ++ [name]) rest

/-- A directory, and those it lies in. -/
def addDirectory (t : FileTree) (path : String) : FileTree :=
  (t.enter (startOf t.home path) (names path)).2

def add (t : FileTree) (path : String) (entry : Entry) : FileTree :=
  let (here, t) := t.enter (startOf t.home path) (names path).dropLast
  t.put (here ++ (names path).drop ((names path).length - 1)) entry

/-! ### Asking about a path -/

def isDirectory (t : FileTree) (path : String) : Bool :=
  match t.find path with
  | .ok .directory => true
  | _ => false

def read (t : FileTree) (path : String) : Except FileError (Array UInt8) :=
  match t.find path with
  | .ok (.file bytes) | .ok (.device bytes) => .ok bytes
  | .ok .directory => .error .isADirectory
  | .ok (.link _) => .error .tooManyLinks
  | .error e => .error e

/-- The path of something below a directory, or nothing if it is not below it. -/
def below? (directory path : List String) : Option (List String) :=
  if directory.isPrefixOf path ∧ path ≠ directory then some (path.drop directory.length) else none

/-- The paths of what is below a directory and wanted, seen from there, in
order. -/
def contents (t : FileTree) (wanted : Entry → Bool) (directory : List String) :
    List (List String) :=
  (t.entries.filterMap fun e => if wanted e.2 then below? directory e.1 else none).mergeSort
    fun x y => !decide (y < x)

def join (path : String) (names : List String) : String :=
  path ++ (if path.endsWith "/" then "" else "/") ++ "/".intercalate names

/-- The files below a directory that a text leads to. A directory below it whose
own path is too long cannot be listed. -/
def list (t : FileTree) (path : String) (directory : List String) :
    Except PathError (List String) :=
  match ((t.contents Entry.isDirectory directory).map (join path)).find? fun below =>
      maxPath < below.utf8ByteSize with
  | some below => .error ⟨below, .nameTooLong⟩
  | none => .ok ((t.contents Entry.isFile directory).map (join path))

/-- The files below a path. A link given as the path itself is followed to a
directory, but a link to a file lists nothing; a file lists itself, and a device
lists nothing. -/
def filesBelow (t : FileTree) (path : String) : Except PathError (List String) :=
  match t.resolve false path with
  | .error cause => .error ⟨path, cause⟩
  | .ok here =>
    match t.lookup here with
    | some .directory => t.list path here
    | some (.file _) => .ok [path]
    | some (.device _) => .ok []
    | some (.link _) =>
      match t.resolve true path with
      | .error cause => .error ⟨path, cause⟩
      | .ok there => if t.lookup there = some .directory then t.list path there else .ok []
    | none => .error ⟨path, .notFound⟩

def host (t : FileTree) (cores : Nat) : Host Id where
  isDirectory := t.isDirectory
  filesBelow := t.filesBelow
  read := t.read
  cores := cores
  clock := (0 : Nat)

end FileTree

end Backref
