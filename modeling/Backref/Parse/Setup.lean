/-
# What a parse knows from the start, and the moves both loops share

A parse is set up with a window, a row of effort and a comparator. From then on
each loop makes the same moves: arrive at a position (which indexes it, if
enough bytes lie ahead to hash it), search for the position, note the search,
emit a token, and index the positions under a copy. A `Journal` keeps the tokens
emitted and the tally of searches and tokens.

Key definitions: `Parse.Options`, `Parse.Setup`, `Parse.Setup.arrive`,
`Parse.Setup.search`, `Parse.Setup.indexable`, `Parse.Journal`.
Key theorems: `Parse.Journal.tokens_emit`, `Parse.Setup.mem_indexable`.
-/
import Backref.Search.Longest
import Backref.Stats.Tally

namespace Backref.Parse

structure Options where
  level : Nat := levelLimits.standard
  windowBits : Nat := windowBitsLimits.standard
  hashBits : Nat := hashBitsLimits.standard
  comparator : Comparator := .standard
  deriving Repr, DecidableEq

/-! ### The journal -/

structure Journal where
  tokens : Array Token
  tally : Tally

namespace Journal

def empty : Journal := ⟨#[], .empty⟩

def emit (j : Journal) (token : Token) : Journal :=
  match j with
  | ⟨tokens, tally⟩ => ⟨tokens.push token, tally.recordToken token⟩

/-- A search was made, if there is an outcome. -/
def note (j : Journal) : Option Search.Outcome → Journal
  | none => j
  | some outcome =>
    match j with
    | ⟨tokens, tally⟩ => ⟨tokens, tally.recordSearch outcome.position.isSome⟩

def emitLiteral (j : Journal) (byte : UInt8) : Journal := j.emit (.literal byte)

/-- A copy, of a length and distance that fit in 16 bits. -/
def emitCopy (j : Journal) (length distance : Nat) : Journal :=
  j.emit (.copy length.toUInt16 distance.toUInt16)

@[simp] theorem tokens_empty : empty.tokens = #[] := rfl

@[simp] theorem tokens_emit (j : Journal) (token : Token) :
    (j.emit token).tokens = j.tokens.push token := rfl

@[simp] theorem tokens_note (j : Journal) (outcome : Option Search.Outcome) :
    (j.note outcome).tokens = j.tokens := by
  cases outcome <;> rfl

theorem coveredAll_emit (j : Journal) (token : Token) :
    Token.coveredAll (j.emit token).tokens.toList =
      Token.coveredAll j.tokens.toList + token.covered := by
  rw [tokens_emit, Array.toList_push, Token.covered_append, Token.coveredAll_cons,
    Token.coveredAll_nil, Nat.add_zero]

end Journal

/-! ### The setup -/

structure Setup where
  window : Window
  effort : Effort
  params : Search.Params
  comparator : Comparator

namespace Setup

def ofOptions (window : Window) (o : Options) : Setup where
  window := window
  effort := Effort.ofLevel o.level
  params := Search.Params.ofLevel o.level window.reach 0
  comparator := o.comparator

def byteAt (s : Setup) (pos : Nat) : UInt8 := s.window.data.getD pos 0

/-- The positions from `first` up to, and without, `stop` that have enough bytes
ahead to be indexed. -/
def indexable (s : Setup) (first stop : Nat) : List Nat :=
  (List.range' first (stop - first)).filter fun pos => minMatch ≤ s.window.lookahead pos

def index (s : Setup) (chain : HashChain) (positions : List Nat) : HashChain :=
  chain.insertAll s.window.guarded positions

/-- Arrive at a position: index it if enough bytes lie ahead. The answer is the
newest earlier position of its bucket, or `noPosition`. -/
def arrive (s : Setup) (chain : HashChain) (pos : Nat) : Nat × HashChain :=
  if minMatch ≤ s.window.lookahead pos then chain.insert s.window.guarded pos
  else (noPosition, chain)

def inReach (s : Setup) (pos head : Nat) : Bool :=
  head != noPosition && pos - head ≤ s.window.reach

/-- The longest match for a position, for a caller who holds one of length
`carried`. -/
def search (s : Setup) (chain : HashChain) (pos head carried : Nat) : Search.Outcome :=
  Search.longest s.comparator s.window.guarded chain.view pos head
    ((s.params.withLookahead (s.window.lookahead pos)).withCarried carried)

theorem mem_indexable {s : Setup} {first stop pos : Nat} :
    pos ∈ s.indexable first stop ↔
      first ≤ pos ∧ pos < stop ∧ minMatch ≤ s.window.lookahead pos := by
  simp only [indexable, List.mem_filter, List.mem_range'_1, decide_eq_true_eq]
  omega

end Setup

end Backref.Parse
