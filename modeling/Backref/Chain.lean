/-
# Earlier positions with the same hash form a chain

`Links` is the read-only table a search follows: the link of a position, folded
into the table by a mask, is the position before it in the same bucket, and zero
ends the chain. `HashChain` keeps such a table up to date. It hashes the three
bytes at a position by three steps of a rolling hash, keeps the newest position
of every bucket in use, and links each new position to the one that was newest before.
Bytes past the end of the data hash as zero.

Key definitions: `Links`, `Links.next?`, `Links.walk`, `HashChain`,
`HashChain.hashAt`, `HashChain.insert`, `HashChain.insertAll`.
Key theorems: `HashChain.hashAt_le`, `HashChain.hashAt_congr`, `HashChain.insert_fst`,
`HashChain.headOf_insert`, `HashChain.insertAll_append`.
-/
import Std.Data.TreeMap
import Backref.Limits

namespace Backref

/-! ### The table a search follows -/

/-- A table of links and the mask that folds a position into it. -/
structure Links where
  table : Array Nat
  mask : Nat

/-- The position before `pos` in its bucket; `none` if the table has no such
entry. -/
@[inline] def Links.next? (l : Links) (pos : Nat) : Option Nat := l.table[pos &&& l.mask]?

/-- The positions before `pos` in its bucket, newest first, at most so many of
them. -/
def Links.walk (l : Links) (pos : Nat) : Nat → List Nat
  | 0 => []
  | n + 1 =>
    match l.next? pos with
    | none => []
    | some next => if next = noPosition then [] else next :: l.walk next n

/-! ### The tables that are kept up to date -/

/-- The newest position of every bucket, and the link of every position. -/
structure HashChain where
  /-- The newest position of each bucket that has one. -/
  heads : Std.TreeMap Nat Nat
  links : Array Nat
  hashMask : Nat
  hashShift : Nat
  windowMask : Nat
  size_links : links.size = windowMask + 1

namespace HashChain

/-- Empty tables for `2 ^ hashBits` buckets and a window of `2 ^ windowBits`
positions. A hash has no more than 32 bits, and three shifts of `hashShift` push
the oldest byte out of it. -/
def empty (windowBits hashBits : Nat) : HashChain where
  heads := ∅
  links := Array.replicate (2 ^ windowBits - 1 + 1) noPosition
  hashMask := 2 ^ min hashBits 32 - 1
  hashShift := (hashBits + (minMatch - 1)) / minMatch
  windowMask := 2 ^ windowBits - 1
  size_links := Array.size_replicate

/-- Empty tables, if the hash table has a size that can be addressed. -/
def empty? (windowBits hashBits : Nat) : Option HashChain :=
  if hashBitsLimits.Admits hashBits then some (empty windowBits hashBits) else none

def view (c : HashChain) : Links := ⟨c.links, c.windowMask⟩

/-- The byte at a position as the hash sees it: zero past the end. -/
def byteAt (bytes : Array UInt8) (pos : Nat) : Nat := (bytes[pos]?.getD 0).toNat

/-- One step of the rolling hash, in 32 bits. -/
def roll (c : HashChain) (hash byte : Nat) : Nat :=
  (((hash <<< c.hashShift) % 2 ^ 32) ^^^ byte) &&& c.hashMask

/-- The bucket of the three bytes at a position. -/
def hashAt (c : HashChain) (bytes : Array UInt8) (pos : Nat) : Nat :=
  c.roll (c.roll (c.roll 0 (byteAt bytes pos)) (byteAt bytes (pos + 1))) (byteAt bytes (pos + 2))

theorem roll_le (c : HashChain) (hash byte : Nat) : c.roll hash byte ≤ c.hashMask :=
  Nat.and_le_right

theorem hashAt_le (c : HashChain) (bytes : Array UInt8) (pos : Nat) :
    c.hashAt bytes pos ≤ c.hashMask :=
  roll_le c _ _

/-- Positions that share three bytes share a bucket. -/
theorem hashAt_congr {c : HashChain} {a b : Array UInt8} {p q : Nat}
    (h : ∀ k < minMatch, a[p + k]? = b[q + k]?) : c.hashAt a p = c.hashAt b q := by
  have h0 : a[p]? = b[q]? := h 0 (by decide)
  have h1 := h 1 (by decide)
  have h2 := h 2 (by decide)
  simp only [hashAt, byteAt, h0, h1, h2]

theorem slot_lt_size (c : HashChain) (pos : Nat) : pos &&& c.windowMask < c.links.size := by
  have : pos &&& c.windowMask ≤ c.windowMask := Nat.and_le_right
  rw [c.size_links]; omega

/-- The newest position in the bucket of the bytes at `pos`. -/
def headOf (c : HashChain) (bytes : Array UInt8) (pos : Nat) : Nat :=
  c.heads.getD (c.hashAt bytes pos) noPosition

/-- Put a position at the front of its bucket; the answer is the position that
was there before. -/
def insert (c : HashChain) (bytes : Array UInt8) (pos : Nat) : Nat × HashChain :=
  let hash := c.hashAt bytes pos
  let slot := pos &&& c.windowMask
  have hs : slot < c.links.size := c.slot_lt_size pos
  match c with
  | ⟨heads, links, hashMask, hashShift, windowMask, sizeLinks⟩ =>
    let head := heads.getD hash noPosition
    (head,
      ⟨heads.insert hash pos, links.set slot head, hashMask, hashShift, windowMask,
        (Array.size_set _).trans sizeLinks⟩)

def insertAll (c : HashChain) (bytes : Array UInt8) (positions : List Nat) : HashChain :=
  positions.foldl (fun c pos => (c.insert bytes pos).2) c

def clear (c : HashChain) : HashChain where
  heads := ∅
  links := Array.replicate (c.windowMask + 1) noPosition
  hashMask := c.hashMask
  hashShift := c.hashShift
  windowMask := c.windowMask
  size_links := Array.size_replicate

theorem insert_fst (c : HashChain) (bytes : Array UInt8) (pos : Nat) :
    (c.insert bytes pos).1 = c.headOf bytes pos := rfl

/-- An inserted position is the head of its bucket, and no other head changes. -/
theorem headOf_insert (c : HashChain) (bytes : Array UInt8) (pos other : Nat) :
    (c.insert bytes pos).2.headOf bytes other =
      if c.hashAt bytes pos = c.hashAt bytes other then pos else c.headOf bytes other := by
  change (c.heads.insert (c.hashAt bytes pos) pos).getD (c.hashAt bytes other) noPosition = _
  rw [Std.TreeMap.getD_insert]
  simp [headOf]

/-- The bytes tell an insertion nothing but the bucket. -/
theorem insert_congr {c : HashChain} {a b : Array UInt8} {pos : Nat}
    (h : c.hashAt a pos = c.hashAt b pos) : c.insert a pos = c.insert b pos := by
  obtain ⟨heads, links, hashMask, hashShift, windowMask, sizeLinks⟩ := c
  simp only [insert, h]

theorem insertAll_congr {a b : Array UInt8} {positions : List Nat}
    (h : ∀ p ∈ positions, ∀ c : HashChain, c.hashAt a p = c.hashAt b p) (c : HashChain) :
    c.insertAll a positions = c.insertAll b positions := by
  induction positions generalizing c with
  | nil => rfl
  | cons p ps ih =>
    have hps : ∀ q ∈ ps, ∀ c : HashChain, c.hashAt a q = c.hashAt b q :=
      fun q hq => h q (List.mem_cons_of_mem _ hq)
    rw [insertAll, List.foldl_cons, insert_congr (h p List.mem_cons_self c)]
    exact ih hps _

theorem insertAll_append (c : HashChain) (bytes : Array UInt8) (ps qs : List Nat) :
    c.insertAll bytes (ps ++ qs) = (c.insertAll bytes ps).insertAll bytes qs :=
  List.foldl_append

end HashChain

end Backref
