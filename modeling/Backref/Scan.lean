/-
# A scan parses its input block by block

The input is cut into blocks of one size, the last one shorter if need be. Each
block is parsed on its own, with its own window and chain, so the result does
not depend on how many workers share the blocks; the counters are merged in the
order of the blocks. A scan can be asked to verify itself: then every block is
rebuilt from its tokens and compared.

Key definitions: `Scan.Options`, `Scan.blocks`, `Scan.block`, `Scan`, `scan`.
Key theorems: `Scan.length_blocks`.
-/
import Backref.Parse.Basic
import Backref.Token.Expand

namespace Backref

namespace Scan

structure Options where
  level : Nat := levelLimits.standard
  windowBits : Nat := windowBitsLimits.standard
  blockSize : Nat := blockSizeLimits.standard
  /-- The workers asked for; zero asks for one a core. -/
  workers : Nat := workerLimits.standard
  comparator : Comparator := .standard
  /-- Rebuild every block from its tokens and compare. -/
  verify : Bool := false
  deriving Repr, DecidableEq

def Options.parseOptions (o : Options) : Parse.Options where
  level := o.level
  windowBits := o.windowBits
  comparator := o.comparator

/-! ### What can fail -/

inductive BlockError where
  | parse (cause : Parse.Error)
  | expand (cause : Token.ExpandError)
  /-- Its tokens expand to something else. -/
  | differs
  deriving Repr, DecidableEq

inductive Error where
  | refused (cause : ConfigError)
  | block (index : Nat) (cause : BlockError)
  | overflow
  deriving Repr, DecidableEq

def Error.config? : Error → Option ConfigError
  | refused cause => some cause
  | block _ (.parse cause) => cause.config?
  | _ => none

def Error.message : Error → String
  | refused cause => cause.message
  | block index (.parse cause) => s!"block {index}: {cause.message}"
  | block index (.expand cause) => s!"block {index}: {cause.message}"
  | block index .differs => s!"block {index}: reconstructed data differs from input"
  | overflow => "a counter is too large"

/-! ### Blocks -/

def blocks (size : Nat) (data : Array UInt8) : List (Array UInt8) :=
  (List.range ((data.size + (size - 1)) / size)).map fun i =>
    data.extract (i * size) ((i + 1) * size)

/-- Parse one block and, if asked, check that it is rebuilt. -/
def block (o : Options) (data : Array UInt8) : Except BlockError Stats :=
  match parse data o.parseOptions with
  | .error cause => .error (.parse cause)
  | .ok parsed =>
    if o.verify then
      match Token.expand parsed.tokens.toList with
      | .error cause => .error (.expand cause)
      | .ok rebuilt => if rebuilt = data then .ok parsed.stats else .error .differs
    else .ok parsed.stats

/-- The counters of every block; `index` is the number of the first. -/
def parseBlocks (o : Options) (index : Nat) : List (Array UInt8) → Except Error (List Stats)
  | [] => .ok []
  | data :: rest =>
    match block o data with
    | .error cause => .error (.block index cause)
    | .ok stats =>
      match parseBlocks o (index + 1) rest with
      | .error e => .error e
      | .ok more => .ok (stats :: more)

theorem length_blocks (size : Nat) (data : Array UInt8) :
    (blocks size data).length = (data.size + (size - 1)) / size := by
  simp [blocks]

end Scan

structure Scan where
  bytes : Nat
  perBlock : List Stats
  stats : Stats
  /-- Every block was rebuilt and compared. -/
  verified : Bool

def Scan.blockCount (s : Scan) : Nat := s.perBlock.length

/-- Scan the input: level, window size and block size are checked first, in this
order. -/
def scan (data : Array UInt8) (o : Scan.Options) : Except Scan.Error Scan :=
  match checkLevel o.level with
  | .error e => .error (.refused e)
  | .ok _ =>
    match checkWindowBits o.windowBits with
    | .error e => .error (.refused e)
    | .ok _ =>
      match checkBlockSize o.blockSize with
      | .error e => .error (.refused e)
      | .ok size =>
        match Scan.parseBlocks o 0 (Scan.blocks size data) with
        | .error e => .error e
        | .ok perBlock =>
          match Stats.merge? perBlock with
          | none => .error .overflow
          | some stats =>
            .ok { bytes := data.size, perBlock, stats, verified := o.verify }

end Backref
