/-
# Every setting has a range, and a value outside it is refused by name

The lengths a back-reference can have are fixed by the DEFLATE format: three to
258 bytes. Everything a user may choose (the compression level, the size of the
window as a power of two, the size of a block, the number of workers) has a
least, a standard and a greatest value, collected here as `Limits`. A value
outside its range becomes a `ConfigError`, which carries the value itself, so
that the message can quote it.

Key definitions: `minMatch`, `maxMatch`, `minLookahead`, `Limits`, `ConfigError`,
`checkLevel`, `checkWindowBits`, `checkBlockSize`.
Key theorems: `checkLevel_eq_ok_iff`, `checkWindowBits_eq_ok_iff`,
`checkBlockSize_eq_ok_iff`.
-/
-- a power of a number has one form, whatever other modules know of powers
attribute [default_instance high, instance (high)] instPowNat

namespace Backref

/-! ### Fixed by the format -/

def minMatch : Nat := 3

def maxMatch : Nat := 258

/-- The bytes a compressor keeps buffered ahead of the current position; a
distance is kept this far below the size of the window. -/
def minLookahead : Nat := maxMatch + minMatch + 1

def wordSize : Nat := 8

/-- The zero bytes kept behind the data of a window, so that a word read near
the end stays inside it. -/
def guardSize : Nat := 2 * wordSize

/-- Below this level a search gives up at the first candidate that does not
improve on the best one so far. -/
def patientLevel : Nat := 5

/-- A run of exactly `minMatch` bytes farther back than this is dropped by the
lazy parse: it would cost more than the literals it replaces. -/
def tooFar : Nat := 4096

/-- Positions are 32-bit numbers; this is the greatest of them. -/
def maxPosition : Nat := 2 ^ 32 - 1

/-- The end of a chain: no earlier position. -/
def noPosition : Nat := 0

/-! ### Chosen by the user -/

structure Limits where
  least : Nat
  standard : Nat
  greatest : Nat
  deriving Repr, DecidableEq

def Limits.Admits (l : Limits) (n : Nat) : Prop := l.least ≤ n ∧ n ≤ l.greatest

instance (l : Limits) (n : Nat) : Decidable (l.Admits n) :=
  inferInstanceAs (Decidable (_ ∧ _))

def levelLimits : Limits := ⟨1, 6, 9⟩

def windowBitsLimits : Limits := ⟨9, 15, 15⟩

/-- Sizes of the independent blocks: a block and its guard bytes are addressed
by 32-bit positions. -/
def blockSizeLimits : Limits := ⟨4096, 1048576, maxPosition - guardSize⟩

/-- Worker counts; zero asks for one worker a core. -/
def workerLimits : Limits := ⟨0, 0, 200⟩

/-- Sizes of the hash table, as powers of two. An entry takes four bytes, and a
table takes fewer than `2 ^ 63` of them. -/
def hashBitsLimits : Limits := ⟨0, 15, 60⟩

/-- The workers a request stands for: one a core if it is zero, and never more
than the limit. -/
def resolveWorkers (cores requested : Nat) : Nat :=
  if requested = 0 then min (max cores 1) workerLimits.greatest
  else min requested workerLimits.greatest

/-! ### Refusals -/

/-- Why a configuration is refused; each cause carries the offending value. -/
inductive ConfigError where
  | level (value : Nat)
  | windowBits (value : Nat)
  | blockSize (value : Nat)
  /-- The greatest distance is zero or more than the window can hold. -/
  | maxDistance (value : Nat)
  | niceLength (value : Nat)
  | inputSize (value : Nat)
  deriving Repr, DecidableEq

namespace ConfigError

/-- The short name under which logs list the cause. -/
def name : ConfigError → String
  | level _ => "ERROR_levelInvalid"
  | windowBits _ => "ERROR_windowBitsInvalid"
  | blockSize _ => "ERROR_blockSizeInvalid"
  | maxDistance _ => "ERROR_maxDistanceInvalid"
  | niceLength _ => "ERROR_niceMatchInvalid"
  | inputSize _ => "ERROR_inputTooLarge"

def message : ConfigError → String
  | level n => s!"compression level {n} is out of range"
  | windowBits n => s!"window bits {n} is out of range"
  | blockSize n => s!"block size {n} is out of range"
  | maxDistance n => s!"max distance {n} is not usable"
  | niceLength n => s!"nice match threshold {n} must be positive"
  | inputSize n => s!"input of {n} bytes exceeds 32-bit positions"

end ConfigError

def checkLevel (level : Nat) : Except ConfigError Nat :=
  if levelLimits.Admits level then .ok level else .error (.level level)

def checkWindowBits (bits : Nat) : Except ConfigError Nat :=
  if windowBitsLimits.Admits bits then .ok bits else .error (.windowBits bits)

def checkBlockSize (size : Nat) : Except ConfigError Nat :=
  if blockSizeLimits.Admits size then .ok size else .error (.blockSize size)

theorem checkLevel_eq_ok_iff {level n : Nat} :
    checkLevel level = .ok n ↔ levelLimits.Admits level ∧ n = level := by
  unfold checkLevel
  split <;> simp_all [eq_comm]

theorem checkWindowBits_eq_ok_iff {bits n : Nat} :
    checkWindowBits bits = .ok n ↔ windowBitsLimits.Admits bits ∧ n = bits := by
  unfold checkWindowBits
  split <;> simp_all [eq_comm]

theorem checkBlockSize_eq_ok_iff {size n : Nat} :
    checkBlockSize size = .ok n ↔ blockSizeLimits.Admits size ∧ n = size := by
  unfold checkBlockSize
  split <;> simp_all [eq_comm]

end Backref
