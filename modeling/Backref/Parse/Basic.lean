/-
# A parse turns a block of bytes into tokens

The level chooses the loop. The result is the tokens, which expand to the block
again, and the counters of how they were found. A parse fails only for its
settings or for a block that 32-bit positions cannot address.

Key definitions: `Parsed`, `Parse.Error`, `parse`.
-/
import Backref.Parse.Greedy
import Backref.Parse.Lazy

namespace Backref

structure Parsed where
  tokens : Array Token
  stats : Stats

namespace Parse

inductive Error where
  | refused (cause : ConfigError)
  | tableTooLarge (hashBits : Nat)
  deriving Repr, DecidableEq

def Error.config? : Error → Option ConfigError
  | refused cause => some cause
  | tableTooLarge _ => none

def Error.message : Error → String
  | refused cause => cause.message
  | tableTooLarge hashBits => s!"a hash table of {hashBits} bits is too large"

/-- The journal of a block that is stored: every byte is a literal. -/
def stored (s : Setup) : Journal := s.window.data.foldl Journal.emitLiteral .empty

def journal (hashBits : Nat) (s : Setup) : Journal :=
  match s.effort.strategy with
  | .stored => stored s
  | .greedy => (Greedy.run s (Greedy.start hashBits s)).journal
  | .lazy => Lazy.flush s (Lazy.run s (Lazy.start hashBits s))

end Parse

/-- Parse a block: level and window size are checked before the block's length,
and the size of the hash table last. -/
def parse (data : Array UInt8) (o : Parse.Options) : Except Parse.Error Parsed :=
  match checkLevel o.level with
  | .error e => .error (.refused e)
  | .ok _ =>
    match Window.ofData data o.windowBits with
    | .error e => .error (.refused e)
    | .ok window =>
      if hashBitsLimits.Admits o.hashBits then
        let journal := Parse.journal o.hashBits (.ofOptions window o)
        .ok ⟨journal.tokens, journal.tally.stats⟩
      else .error (.tableTooLarge o.hashBits)

end Backref
