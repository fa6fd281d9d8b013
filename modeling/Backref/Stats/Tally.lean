/-
# A tally counts searches and tokens as they happen

A parse reports two kinds of events: a search was made, and a token was emitted.
The tally counts each as it comes and pushes the canonical bytes of each token
into a digest. What it reports at the end depends on the tokens and on the
searches alone, not on how they were interleaved.

Key definitions: `Event`, `Tally`, `Tally.record`, `Tally.stats`, `fingerprint`.
Key theorems: `Tally.digest_recordToken`.
-/
import Backref.Stats.Basic
import Backref.Token.Basic

namespace Backref

/-- The digest of the canonical bytes of a list of tokens. -/
def fingerprint (tokens : List Token) : UInt64 :=
  Digest.ofBytes fingerprintSeed (Token.encodeAll tokens)

inductive Event where
  /-- A search was made; did it find a new position? -/
  | search (improved : Bool)
  | token (token : Token)
  deriving Repr, DecidableEq

@[ext]
structure Tally where
  counters : Stats
  digest : Digest

namespace Tally

def empty : Tally := ⟨{}, .empty fingerprintSeed⟩

def recordSearch (t : Tally) (improved : Bool) : Tally :=
  { t with counters :=
      { t.counters with
        searches := t.counters.searches + 1
        improved := if improved then t.counters.improved + 1 else t.counters.improved } }

def recordToken (t : Tally) (token : Token) : Tally :=
  match t, token with
  | ⟨counters, digest⟩, .literal byte =>
    ⟨{ counters with literals := counters.literals + 1, bytes := counters.bytes + 1 },
      digest.append [0, byte]⟩
  | ⟨counters, digest⟩, .copy length distance =>
    ⟨{ counters with
        copies := counters.copies + 1
        bytes := counters.bytes + length.toNat
        copiedBytes := counters.copiedBytes + length.toNat
        longest := max counters.longest length.toNat },
      digest.append [1, Token.lowByte length, Token.highByte length, Token.lowByte distance,
        Token.highByte distance]⟩

def record (t : Tally) : Event → Tally
  | .search improved => t.recordSearch improved
  | .token token => t.recordToken token

def recordAll (t : Tally) (events : List Event) : Tally := events.foldl record t

def stats (t : Tally) : Stats := { t.counters with fingerprint := t.digest.value }

/-- The bytes that `recordToken` digests are those that `Token.encode` writes. -/
theorem digest_recordToken (t : Tally) (token : Token) :
    (t.recordToken token).digest = t.digest.append token.encode := by
  cases token with
  | literal byte => simp only [recordToken, Token.encode]
  | copy length distance => simp only [recordToken, Token.encode]

end Tally

def Stats.ofEvents (events : List Event) : Stats := (Tally.empty.recordAll events).stats

end Backref
