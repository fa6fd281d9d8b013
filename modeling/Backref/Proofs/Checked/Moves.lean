/-
# Arriving, indexing and looking never fault on a chain of earlier positions

The bytes ahead of a position are a difference, a hash shifts a 32-bit word and
addresses a table of `2 ^ hashBits` buckets, a position is folded into the table of
links, and a head is compared by its distance. On a chain whose heads are not ahead of
the position each of these moves answers what the plain one does, and leaves such a
chain behind.

Key definitions: `HashChain.Within`, `Checked.insert`, `Checked.arrive`,
`Checked.index`, `Checked.look`.
Key theorems: `HashChain.within_empty`, `Checked.insert_eq`, `Checked.arrive_eq`,
`Checked.index_eq`, `Checked.look_eq`.
-/
import Backref.Parse.Setup
import Backref.Proofs.Buckets
import Backref.Proofs.Checked.Search

namespace Backref

/-! ### Chains -/

/-- A chain that was built for some bytes by inserting positions up to `pos`: its hash
shifts within 32 bits and addresses `2 ^ hashBits` buckets, and no head is ahead of
the position. -/
structure HashChain.Within (c : HashChain) (hashBits : Nat) (bytes : Array UInt8) (pos : Nat) :
    Prop where
  shift_lt : c.hashShift < 32
  mask_lt : c.hashMask < 2 ^ hashBits
  head_le : ∀ other, c.headOf bytes other ≤ pos

namespace HashChain

variable {c : HashChain} {hashBits pos : Nat} {bytes : Array UInt8}

theorem within_empty (windowBits : Nat) (bytes : Array UInt8)
    (h : hashBitsLimits.Admits hashBits) : (empty windowBits hashBits).Within hashBits bytes 0 := by
  have hle : hashBits ≤ 60 := h.2
  refine ⟨?_, ?_, fun other => ?_⟩
  · simp only [empty, minMatch]
    omega
  · have hpos := Nat.two_pow_pos (min hashBits 32)
    have hpow : 2 ^ min hashBits 32 ≤ 2 ^ hashBits :=
      Nat.pow_le_pow_right Nat.two_pos (Nat.min_le_left _ _)
    simp only [empty]
    omega
  · rw [headOf_empty]
    exact Nat.le_refl 0

namespace Within

theorem mono (h : c.Within hashBits bytes pos) {next : Nat} (hle : pos ≤ next) :
    c.Within hashBits bytes next :=
  ⟨h.shift_lt, h.mask_lt, fun other => Nat.le_trans (h.head_le other) hle⟩

theorem insert (h : c.Within hashBits bytes pos) {p : Nat} (hp : p ≤ pos) :
    (c.insert bytes p).2.Within hashBits bytes pos := by
  refine ⟨h.shift_lt, h.mask_lt, fun other => ?_⟩
  rw [headOf_insert]
  split
  · exact hp
  · exact h.head_le other

theorem insertAll (h : c.Within hashBits bytes pos) {positions : List Nat}
    (hp : ∀ p ∈ positions, p ≤ pos) : (c.insertAll bytes positions).Within hashBits bytes pos := by
  induction positions generalizing c with
  | nil => exact h
  | cons p ps ih =>
    rw [HashChain.insertAll, List.foldl_cons]
    exact ih (h.insert (hp p List.mem_cons_self)) fun q hq => hp q (List.mem_cons_of_mem _ hq)

theorem hashAt_lt (h : c.Within hashBits bytes pos) (p : Nat) :
    c.hashAt bytes p < 2 ^ hashBits :=
  Nat.lt_of_le_of_lt (c.hashAt_le bytes p) h.mask_lt

end Within

end HashChain

namespace Checked

def roll (c : HashChain) (hash byte : Nat) : Checked Nat := do
  require (c.hashShift < 32) (.shiftTooFar c.hashShift 32)
  .ok (c.roll hash byte)

def hashAt (c : HashChain) (bytes : Array UInt8) (pos : Nat) : Checked Nat := do
  let second ← add maxOffset pos 1
  let third ← add maxOffset pos 2
  let hash ← roll c 0 (HashChain.byteAt bytes pos)
  let hash ← roll c hash (HashChain.byteAt bytes second)
  roll c hash (HashChain.byteAt bytes third)

def insert (hashBits : Nat) (c : HashChain) (bytes : Array UInt8) (pos : Nat) :
    Checked (Nat × HashChain) := do
  let hash ← hashAt c bytes pos
  require (hash < 2 ^ hashBits) (.outOfBounds hash (2 ^ hashBits))
  let slot := pos &&& c.windowMask
  require (slot < c.links.size) (.outOfBounds slot c.links.size)
  .ok (c.insert bytes pos)

theorem hashAt_eq {c : HashChain} (h : c.hashShift < 32) (bytes : Array UInt8) {pos : Nat}
    (hpos : pos + 2 ≤ maxOffset) : hashAt c bytes pos = .ok (c.hashAt bytes pos) := by
  have hroll (hash byte : Nat) : roll c hash byte = .ok (c.roll hash byte) := by
    rw [roll, require_eq_ok h, ok_bind]
  have hsecond : pos + 1 ≤ maxOffset := by omega
  simp only [hashAt, add_eq_ok hsecond, add_eq_ok hpos, hroll, ok_bind]
  rfl

theorem insert_eq {hashBits : Nat} {c : HashChain} {bytes : Array UInt8} {pos p : Nat}
    (h : c.Within hashBits bytes pos) (hp : p + 2 ≤ maxOffset) :
    insert hashBits c bytes p = .ok (c.insert bytes p) := by
  rw [insert, hashAt_eq h.shift_lt bytes hp, ok_bind, require_eq_ok (h.hashAt_lt p), ok_bind]
  simp only
  rw [require_eq_ok (c.slot_lt_size p), ok_bind]

end Checked

/-! ### Arriving, looking and indexing -/

namespace Parse.Setup

variable {s : Setup} {chain : HashChain} {hashBits pos : Nat}

theorem size_add_two_le (s : Setup) : s.window.size + 2 ≤ Checked.maxOffset := by
  have hsize : s.window.size ≤ maxPosition - guardSize := s.window.size_le
  simp only [maxPosition] at hsize
  simp only [Checked.maxOffset]
  omega

theorem arrive_fst_le (h : chain.Within hashBits s.window.guarded pos) (p : Nat) :
    (s.arrive chain p).1 ≤ pos := by
  rw [arrive]
  split
  · exact h.head_le p
  · exact Nat.zero_le pos

theorem within_arrive (h : chain.Within hashBits s.window.guarded pos) {p : Nat} (hp : p ≤ pos) :
    (s.arrive chain p).2.Within hashBits s.window.guarded pos := by
  rw [arrive]
  split
  · exact h.insert hp
  · exact h

/-- Indexing a list of positions starts with arriving at the first. -/
theorem index_filter_cons (s : Setup) (chain : HashChain) (p : Nat) (ps : List Nat) :
    s.index chain ((p :: ps).filter fun pos => minMatch ≤ s.window.lookahead pos) =
      s.index (s.arrive chain p).2 (ps.filter fun pos => minMatch ≤ s.window.lookahead pos) := by
  rw [List.filter_cons, arrive]
  by_cases hahead : minMatch ≤ s.window.lookahead p
  · rw [if_pos (decide_eq_true hahead), if_pos hahead]
    rfl
  · rw [if_neg (mt of_decide_eq_true hahead), if_neg hahead]

theorem within_index (h : chain.Within hashBits s.window.guarded pos) {first stop : Nat}
    (hstop : stop ≤ pos) :
    (s.index chain (s.indexable first stop)).Within hashBits s.window.guarded pos := by
  refine h.insertAll fun p hp => ?_
  have hlt := (mem_indexable.mp hp).2.1
  omega

end Parse.Setup

namespace Checked

open Parse

def reach (bits : Nat) : Checked Nat := do
  let span ← power bits
  sub span minLookahead

def arrive (hashBits : Nat) (s : Setup) (chain : HashChain) (pos : Nat) :
    Checked (Nat × HashChain) := do
  let ahead ← sub s.window.size pos
  if minMatch ≤ ahead then insert hashBits chain s.window.guarded pos
  else .ok (noPosition, chain)

def index (hashBits : Nat) (s : Setup) (chain : HashChain) (first stop : Nat) :
    Checked HashChain :=
  (List.range' first (stop - first)).foldlM (fun chain pos => do
    let arrived ← arrive hashBits s chain pos
    .ok arrived.2) chain

def inReach (s : Setup) (pos head : Nat) : Checked Bool :=
  if head = noPosition then .ok false
  else do
    let distance ← sub pos head
    let farthest ← reach s.window.bits
    .ok (distance ≤ farthest)

/-- The search at a position, if it is wanted and there is a candidate in reach. -/
def look (s : Setup) (chain : HashChain) (pos head carried : Nat) (wanted : Bool) :
    Checked (Option Search.Outcome) := do
  let near ← inReach s pos head
  if near && wanted then do
    let outcome ← longest s.comparator s.window.guarded chain.view pos head
      ((s.params.withLookahead (s.window.lookahead pos)).withCarried carried)
    .ok (some outcome)
  else .ok none

theorem reach_eq {bits : Nat} (h : windowBitsLimits.Admits bits) :
    reach bits = .ok (Backref.reach bits) := by
  have hle : bits ≤ 15 := h.2
  have hspan : 2 ^ 9 ≤ 2 ^ bits := Nat.pow_le_pow_right Nat.two_pos h.1
  have hroom : minLookahead ≤ 2 ^ bits := Nat.le_trans (by decide) hspan
  rw [reach, power_eq_ok (by omega), ok_bind, sub_eq_ok hroom]
  rfl

section

variable {s : Setup} {chain : HashChain} {hashBits pos head : Nat}

theorem arrive_eq (h : chain.Within hashBits s.window.guarded pos) {p : Nat}
    (hp : p ≤ s.window.size) : arrive hashBits s chain p = .ok (s.arrive chain p) := by
  have hroom := s.size_add_two_le
  rw [arrive, sub_eq_ok hp, ok_bind, insert_eq h (by omega), Setup.arrive]
  change (if minMatch ≤ s.window.lookahead p then _ else _) = _
  split <;> rfl

/-- Indexing position by position is indexing those that have enough bytes ahead. -/
theorem index_eq (h : chain.Within hashBits s.window.guarded pos) {first stop : Nat}
    (hstop : stop ≤ pos) (hpos : pos ≤ s.window.size) :
    index hashBits s chain first stop = .ok (s.index chain (s.indexable first stop)) := by
  rw [index, Setup.indexable]
  have hrange : ∀ p ∈ List.range' first (stop - first), p ≤ pos := by
    intro p hp
    have := List.mem_range'_1.mp hp
    omega
  generalize List.range' first (stop - first) = positions at hrange
  induction positions generalizing chain with
  | nil => rfl
  | cons p ps ih =>
    have hp : p ≤ pos := hrange p List.mem_cons_self
    have hps : ∀ q ∈ ps, q ≤ pos := fun q hq => hrange q (List.mem_cons_of_mem _ hq)
    rw [List.foldlM_cons, arrive_eq h (Nat.le_trans hp hpos), ok_bind, ok_bind,
      ih (Setup.within_arrive h hp) hps, s.index_filter_cons]

theorem inReach_eq (h : head ≤ pos) : inReach s pos head = .ok (s.inReach pos head) := by
  rw [inReach, Setup.inReach]
  by_cases hnone : head = noPosition
  · rw [if_pos hnone]
    simp [hnone]
  · rw [if_neg hnone, sub_eq_ok h, ok_bind, reach_eq s.window.bits_admitted, ok_bind]
    simp [hnone, Window.reach]

/-- Looking at a position never faults: the head is not ahead of it, and no search
faults. -/
theorem look_eq (h : head ≤ pos) (carried : Nat) (wanted : Bool) :
    look s chain pos head carried wanted =
      .ok (if s.inReach pos head && wanted then some (s.search chain pos head carried)
        else none) := by
  rw [look, inReach_eq h, ok_bind, longest_eq, ok_bind]
  split <;> rfl

end

end Checked

end Backref
