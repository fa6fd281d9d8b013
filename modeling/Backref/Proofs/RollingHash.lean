/-
# The hash of a position rolls along to the next one

The bucket of a position is found by three steps of the rolling hash over its bytes,
started from zero. It need not be found from the start each time. A step moves what two
hashes differ in up by the shift, and three shifts reach past the mask, so after three
steps nothing is left of the hash they started from. Hence one step from the hash of a
position, over the byte three places on, is the hash of the next position, and a hash
that is rolled along the bytes is at every position the hash of that position.

Key definitions: `HashChain.SameBelow`, `HashChain.rolled`.
Key theorems: `HashChain.SameBelow.roll`, `HashChain.foldl_roll_eq`,
`HashChain.rolled_eq_hashAt`, `HashChain.hashAt_eq_rolling`.
-/
import Mathlib.Algebra.Order.Floor.Div
import Backref.Proofs.Buckets

namespace Backref.HashChain

/-- Two hashes have the same bits below `n`. -/
def SameBelow (n hash hash' : Nat) : Prop := ∀ i < n, hash.testBit i = hash'.testBit i

/-- The hash that is rolled along the bytes, from that of the first position on: each step
takes in the byte behind those the hash has seen. -/
def rolled (c : HashChain) (bytes : Array UInt8) : Nat → Nat
  | 0 => c.hashAt bytes 0
  | pos + 1 => c.roll (c.rolled bytes pos) (byteAt bytes (pos + minMatch))

variable {c : HashChain} {n hash hash' : Nat}

/-! ### One step -/

/-- A bit of the next hash is one of the byte and one of the hash, a shift farther down. -/
theorem testBit_roll (hash byte i : Nat) :
    (c.roll hash byte).testBit i =
      (((decide (i < 32) && (decide (c.hashShift ≤ i) && hash.testBit (i - c.hashShift))) ^^
        byte.testBit i) && c.hashMask.testBit i) := by
  rw [roll, Nat.testBit_and, Nat.testBit_xor, Nat.testBit_mod_two_pow, Nat.testBit_shiftLeft]

/-- **A step moves what two hashes differ in up by the shift.** -/
theorem SameBelow.roll (h : SameBelow n hash hash') (byte : Nat) :
    SameBelow (c.hashShift + n) (c.roll hash byte) (c.roll hash' byte) := by
  intro i hi
  rw [testBit_roll, testBit_roll]
  by_cases hshift : c.hashShift ≤ i
  · rw [h (i - c.hashShift) (by omega)]
  · -- below the shift there is nothing of the hash, only the byte
    simp [hshift]

theorem SameBelow.eq (h : SameBelow n hash hash') (hlt : hash < 2 ^ n) (hlt' : hash' < 2 ^ n) :
    hash = hash' := by
  apply Nat.eq_of_testBit_eq
  intro i
  rcases Nat.lt_or_ge i n with hi | hi
  · exact h i hi
  · have hpow : 2 ^ n ≤ 2 ^ i := Nat.pow_le_pow_right (by decide) hi
    rw [Nat.testBit_lt_two_pow (Nat.lt_of_lt_of_le hlt hpow),
      Nat.testBit_lt_two_pow (Nat.lt_of_lt_of_le hlt' hpow)]

/-! ### Several steps -/

theorem SameBelow.foldl_roll (h : SameBelow n hash hash') (bytes : List Nat) :
    SameBelow (bytes.length * c.hashShift + n) (bytes.foldl c.roll hash)
      (bytes.foldl c.roll hash') := by
  induction bytes generalizing n hash hash' with
  | nil => simpa using h
  | cons byte bytes ih =>
    rw [List.length_cons, Nat.succ_mul, Nat.add_assoc]
    exact ih (h.roll byte)

theorem foldl_roll_le {bytes : List Nat} (h : bytes ≠ []) (hash : Nat) :
    bytes.foldl c.roll hash ≤ c.hashMask := by
  obtain ⟨before, last, rfl⟩ := List.eq_nil_or_concat' bytes |>.resolve_left h
  rw [List.foldl_concat]
  exact roll_le c _ _

/-- **Three steps forget the hash they start from**, if three shifts reach past the mask. -/
theorem foldl_roll_eq (hmask : c.hashMask < 2 ^ (minMatch * c.hashShift)) {bytes : List Nat}
    (hlen : minMatch ≤ bytes.length) (hash hash' : Nat) :
    bytes.foldl c.roll hash = bytes.foldl c.roll hash' := by
  have hsame : SameBelow (bytes.length * c.hashShift) (bytes.foldl c.roll hash)
      (bytes.foldl c.roll hash') :=
    SameBelow.foldl_roll (n := 0) (fun i hi => absurd hi (Nat.not_lt_zero i)) bytes
  have hne : bytes ≠ [] := List.ne_nil_of_length_pos (Nat.lt_of_lt_of_le (by decide) hlen)
  have hpow : 2 ^ (minMatch * c.hashShift) ≤ 2 ^ (bytes.length * c.hashShift) :=
    Nat.pow_le_pow_right (by decide) (Nat.mul_le_mul_right _ hlen)
  have hlt (start : Nat) : bytes.foldl c.roll start < 2 ^ (bytes.length * c.hashShift) :=
    Nat.lt_of_le_of_lt (foldl_roll_le hne start) (Nat.lt_of_lt_of_le hmask hpow)
  exact hsame.eq (hlt hash) (hlt hash')

/-! ### The hashes of all positions -/

/-- One step from the hash of a position is the hash of the next: it is the third over the
bytes there, and has forgotten the byte that was left behind. -/
theorem roll_hashAt (hmask : c.hashMask < 2 ^ (minMatch * c.hashShift)) (bytes : Array UInt8)
    (pos : Nat) :
    c.roll (c.hashAt bytes pos) (byteAt bytes (pos + minMatch)) = c.hashAt bytes (pos + 1) := by
  let ahead := [byteAt bytes (pos + 1), byteAt bytes (pos + 2), byteAt bytes (pos + 3)]
  have hlen : minMatch ≤ ahead.length := Nat.le_refl 3
  calc c.roll (c.hashAt bytes pos) (byteAt bytes (pos + minMatch))
    _ = ahead.foldl c.roll (c.roll 0 (byteAt bytes pos)) := rfl
    _ = ahead.foldl c.roll 0 := foldl_roll_eq hmask hlen _ _
    _ = c.hashAt bytes (pos + 1) := rfl

theorem rolled_eq_hashAt (hmask : c.hashMask < 2 ^ (minMatch * c.hashShift))
    (bytes : Array UInt8) (pos : Nat) : c.rolled bytes pos = c.hashAt bytes pos := by
  induction pos with
  | zero => rfl
  | succ pos ih => rw [rolled, ih, roll_hashAt hmask]

/-! ### The mask and the shift of a table -/

/-- Insertions change neither the mask nor the shift. -/
theorem mask_shift_insertAll (written : Array UInt8) (ps : List Nat) :
    (c.insertAll written ps).hashMask = c.hashMask ∧
      (c.insertAll written ps).hashShift = c.hashShift := by
  induction ps using List.reverseRecOn with
  | nil => exact ⟨rfl, rfl⟩
  | append_singleton ps p ih => rw [insertAll_concat]; exact ih

/-- Three shifts of a third of the bits, rounded up, reach past all of them. -/
theorem hashMask_empty_lt (windowBits hashBits : Nat) :
    (empty windowBits hashBits).hashMask <
      2 ^ (minMatch * (empty windowBits hashBits).hashShift) := by
  have hbits : min hashBits 32 ≤ minMatch * ((hashBits + (minMatch - 1)) / minMatch) := by
    rw [minMatch]; omega
  calc 2 ^ min hashBits 32 - 1 < 2 ^ min hashBits 32 := Nat.sub_one_lt (Nat.two_pow_pos _).ne'
    _ ≤ 2 ^ (minMatch * ((hashBits + (minMatch - 1)) / minMatch)) :=
      Nat.pow_le_pow_right (by decide) hbits

/-- **The rolling hash is the hash of every position**, in any table that has been built by
insertions: the shift is a third of the bits, rounded up, the mask keeps the bits, one step in
32 bits leads from a position to the next, and all the steps from the first position on lead to
each. Bytes past the end are zero. -/
theorem hashAt_eq_rolling {windowBits hashBits : Nat} {written : Array UInt8} {ps : List Nat}
    (hbits : hashBits ≤ 31) (hc : c = (empty windowBits hashBits).insertAll written ps)
    (bytes : Array UInt8) :
    c.hashShift = hashBits ⌈/⌉ 3 ∧ c.hashMask = 2 ^ hashBits - 1 ∧
      (∀ pos, (((c.hashAt bytes pos <<< c.hashShift) % 2 ^ 32) ^^^ byteAt bytes (pos + 3)) &&&
        c.hashMask = c.hashAt bytes (pos + 1)) ∧
      ∀ pos, c.rolled bytes pos = c.hashAt bytes pos := by
  obtain ⟨hmask, hshift⟩ : c.hashMask = (empty windowBits hashBits).hashMask ∧
      c.hashShift = (empty windowBits hashBits).hashShift := hc ▸ mask_shift_insertAll written ps
  have hlt : c.hashMask < 2 ^ (minMatch * c.hashShift) := by
    rw [hmask, hshift]
    exact hashMask_empty_lt windowBits hashBits
  refine ⟨?_, ?_, roll_hashAt hlt bytes, rolled_eq_hashAt hlt bytes⟩
  · rw [hshift, Nat.ceilDiv_eq_add_pred_div]
    rfl
  · rw [hmask, empty, Nat.min_eq_left (by omega)]

/-- Buckets of 31 bits: three shifts by 11 push a byte past 32 bits, and the byte past the end of
the data is zero. -/
theorem hashAt_eq_rolling_widest :
    let bytes : Array UInt8 := #[255, 254, 253, 252]
    let c := (empty 9 31).insertAll bytes [0, 1]
    31 ≤ 31 ∧ c = (empty 9 31).insertAll bytes [0, 1] ∧ c.hashAt bytes 0 = 1070067965 ∧
      (((1070067965 <<< 11) % 2 ^ 32) ^^^ 252) &&& (2 ^ 31 - 1) = c.hashAt bytes 1 ∧
      c.hashAt bytes 2 = 1061675008 ∧ c.rolled bytes 2 = 1061675008 := by
  intro bytes c
  have hfirst : c.hashAt bytes 0 = 1070067965 := by decide +kernel
  have hpast : c.hashAt bytes 2 = 1061675008 := by decide +kernel
  have hbits : 31 ≤ 31 := Nat.le_refl 31
  have hc : c = (empty 9 31).insertAll bytes [0, 1] := rfl
  obtain ⟨-, -, hstep, hrolled⟩ := hashAt_eq_rolling hbits hc bytes
  refine ⟨hbits, hc, hfirst, ?_, hpast, (hrolled 2).trans hpast⟩
  rw [← hfirst]
  exact hstep 0

end Backref.HashChain
