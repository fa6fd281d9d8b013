/-
# The counters of one parse, and their sum over blocks

`Stats` holds what a parse reports: how many bytes, literals and copies it made,
how many bytes the copies cover, how often it searched and with what success,
the longest copy, and the fingerprint of the tokens. Blocks are merged in order:
counters add up, the longest copy is the longest of any block, and the merged
fingerprint digests the fingerprints of the blocks. Counters are 64-bit numbers,
so a sum that passes the greatest of them has no value.

Key definitions: `Stats`, `Stats.meanLength`, `Stats.coverage`, `Stats.merge?`.
Key theorems: `addCounter?_eq_some_iff`.
-/
import Backref.Digest
import Backref.Number.Binary64

namespace Backref

def fingerprintSeed : UInt64 := 0

def maxCounter : Nat := 2 ^ 64 - 1

def addCounter? (a b : Nat) : Option Nat := if a + b ≤ maxCounter then some (a + b) else none

theorem addCounter?_eq_some_iff {a b n : Nat} :
    addCounter? a b = some n ↔ a + b ≤ maxCounter ∧ n = a + b := by
  unfold addCounter?
  split
  · simp_all [eq_comm]
  · simp only [reduceCtorEq, false_iff]; omega

def wordBytes (word : UInt64) : List UInt8 :=
  ([0, 8, 16, 24, 32, 40, 48, 56] : List UInt64).map fun shift => (word >>> shift).toUInt8

structure Stats where
  bytes : Nat := 0
  literals : Nat := 0
  copies : Nat := 0
  copiedBytes : Nat := 0
  searches : Nat := 0
  /-- Searches that found a new position. -/
  improved : Nat := 0
  longest : Nat := 0
  fingerprint : UInt64 := 0
  deriving Repr, DecidableEq

namespace Stats

/-- A share of a whole in percent, zero of an empty whole. -/
def percent (part whole : Nat) : Binary64 :=
  if whole = 0 then .ofNat 0 else .ofNat 100 * .ofNat part / .ofNat whole

/-- The mean length of the copies, zero if there are none. -/
def meanLength (s : Stats) : Binary64 :=
  if s.copies = 0 then .ofNat 0 else .ofNat s.copiedBytes / .ofNat s.copies

def coverage (s : Stats) : Binary64 := percent s.copiedBytes s.bytes

def add? (total part : Stats) : Option Stats := do
  let bytes ← addCounter? total.bytes part.bytes
  let literals ← addCounter? total.literals part.literals
  let copies ← addCounter? total.copies part.copies
  let copiedBytes ← addCounter? total.copiedBytes part.copiedBytes
  let searches ← addCounter? total.searches part.searches
  let improved ← addCounter? total.improved part.improved
  some
    { bytes, literals, copies, copiedBytes, searches, improved
      longest := max total.longest part.longest
      fingerprint := total.fingerprint }

/-- The digest of the fingerprints of several blocks, in order. -/
def mergedFingerprint (parts : List Stats) : UInt64 :=
  Digest.ofBytes fingerprintSeed (parts.flatMap fun part => wordBytes part.fingerprint)

def merge? (parts : List Stats) : Option Stats :=
  (parts.foldlM add? {}).map fun total => { total with fingerprint := mergedFingerprint parts }

end Stats

end Backref
