/-
# A 64-bit digest that is fed one byte at a time

The digest is XXH64. Every 32 bytes form a stripe, whose four words stir four
lanes; what is left at the end is absorbed by eight, by four and by single
bytes, and the result is scrambled so that every input bit reaches every output
bit. The digest of a list of bytes is the state after pushing each of them, so
digesting in pieces and digesting the concatenation are the same thing.

Key definitions: `Digest`, `Digest.push`, `Digest.append`, `Digest.value`,
`Digest.ofBytes`.
Key theorems: `Digest.append_append`.
-/
import Backref.Bytes.View

namespace Backref

structure Digest where
  seed : UInt64
  lane1 : UInt64
  lane2 : UInt64
  lane3 : UInt64
  lane4 : UInt64
  total : UInt64
  /-- The bytes since the last whole stripe. -/
  pending : Array UInt8

namespace Digest

/-! ### The constants and the mixing steps -/

/-- The first of the five multipliers, all of them prime. -/
def prime1 : UInt64 := 0x9E3779B185EBCA87

def prime2 : UInt64 := 0xC2B2AE3D27D4EB4F

def prime3 : UInt64 := 0x165667B19E3779F9

def prime4 : UInt64 := 0x85EBCA77C2B2AE63

def prime5 : UInt64 := 0x27D4EB2F165667C5

def rotate (word : UInt64) (bits : UInt64) : UInt64 := (word <<< bits) ||| (word >>> (64 - bits))

/-- A lane after one word of a stripe. -/
def stir (lane word : UInt64) : UInt64 := rotate (lane + word * prime2) 31 * prime1

/-- The result after taking in one lane. -/
def merge (hash lane : UInt64) : UInt64 := (hash ^^^ stir 0 lane) * prime1 + prime4

def scramble (hash : UInt64) : UInt64 :=
  let hash := (hash ^^^ (hash >>> 33)) * prime2
  let hash := (hash ^^^ (hash >>> 29)) * prime3
  hash ^^^ (hash >>> 32)

/-- The result after the bytes that fill no stripe: words first, then a half
word, then single bytes. -/
def absorb (hash : UInt64) (rest : View) : UInt64 :=
  if 8 ≤ rest.size then
    absorb (rotate (hash ^^^ stir 0 (rest.littleEndian 0 8)) 27 * prime1 + prime4) (rest.drop 8)
  else if 4 ≤ rest.size then
    absorb (rotate (hash ^^^ rest.littleEndian 0 4 * prime1) 23 * prime2 + prime3) (rest.drop 4)
  else if 1 ≤ rest.size then
    absorb (rotate (hash ^^^ rest.littleEndian 0 1 * prime5) 11 * prime1) (rest.drop 1)
  else hash
termination_by rest.size
decreasing_by all_goals rw [View.size_drop]; omega

/-! ### Pushing bytes -/

def empty (seed : UInt64) : Digest where
  seed := seed
  lane1 := seed + prime1 + prime2
  lane2 := seed + prime2
  lane3 := seed
  lane4 := seed - prime1
  total := 0
  pending := #[]

/-- The digest after one more byte. -/
def push (d : Digest) (byte : UInt8) : Digest :=
  let pending := d.pending.push byte
  let total := d.total + 1
  if pending.size < 32 then { d with total, pending }
  else
    let stripe := View.ofArray pending
    { d with
      lane1 := stir d.lane1 (stripe.littleEndian 0 8)
      lane2 := stir d.lane2 (stripe.littleEndian 8 8)
      lane3 := stir d.lane3 (stripe.littleEndian 16 8)
      lane4 := stir d.lane4 (stripe.littleEndian 24 8)
      total
      pending := #[] }

def append (d : Digest) (bytes : List UInt8) : Digest := bytes.foldl push d

def value (d : Digest) : UInt64 :=
  let hash :=
    if d.total < 32 then d.seed + prime5
    else
      merge (merge (merge (merge
        (rotate d.lane1 1 + rotate d.lane2 7 + rotate d.lane3 12 + rotate d.lane4 18)
        d.lane1) d.lane2) d.lane3) d.lane4
  scramble (absorb (hash + d.total) (View.ofArray d.pending))

def ofBytes (seed : UInt64) (bytes : List UInt8) : UInt64 := ((empty seed).append bytes).value

theorem append_append (d : Digest) (xs ys : List UInt8) :
    d.append (xs ++ ys) = (d.append xs).append ys :=
  List.foldl_append

end Digest

end Backref
