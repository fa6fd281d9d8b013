/-
# A checked computation faults where plain numbers would hide a mistake

On natural numbers a difference stops at zero, a sum has no limit and a read past
the end gives a default. A checked computation makes each of these a `Fault`, and so
it does with a failed assertion and a loop that does not end. A checked function that
answers `.ok` with the value of the plain one says that no step of the plain one
relies on such a convention.

Key definitions: `Fault`, `Checked`, `Checked.require`, `Checked.sub`, `Checked.add`,
`Checked.get`.
Key theorems: `bind_eq_ok_iff`, `Checked.require_eq_ok_iff`, `Checked.sub_eq_ok_iff`,
`Checked.add_eq_ok_iff`, `Checked.get_eq_ok_iff`.
-/
import Backref.Limits

namespace Backref

inductive Fault where
  | negative (minuend subtrahend : Nat)
  | tooGreat (n limit : Nat)
  | outOfBounds (index size : Nat)
  /-- A shift by the width of the word or more. -/
  | shiftTooFar (amount width : Nat)
  /-- The first difference of two equal words is asked for. -/
  | equalWords
  /-- A copy that the format or the window does not allow. -/
  | badCopy (length distance : Nat)
  | noBudget
  /-- An iteration does not move forward within the block. -/
  | stuck (before after : Nat)
  /-- A loop goes on after as many iterations as the block has bytes. -/
  | endless
  deriving Repr, DecidableEq

abbrev Checked (α : Type) := Except Fault α

namespace Checked

/-- The greatest size and offset of a 64-bit machine. -/
def maxOffset : Nat := 2 ^ 64 - 1

def require (p : Prop) [Decidable p] (fault : Fault) : Checked Unit :=
  if p then .ok () else .error fault

def atMost (limit n : Nat) : Checked Unit := require (n ≤ limit) (.tooGreat n limit)

def sub (a b : Nat) : Checked Nat := do
  require (b ≤ a) (.negative a b)
  .ok (a - b)

def add (limit a b : Nat) : Checked Nat := do
  atMost limit (a + b)
  .ok (a + b)

def get {α : Type} (xs : Array α) (i : Nat) : Checked α :=
  match xs[i]? with
  | some x => .ok x
  | none => .error (.outOfBounds i xs.size)

/-- The power of two by a shift in a 64-bit word. -/
def power (bits : Nat) : Checked Nat := do
  require (bits < 64) (.shiftTooFar bits 64)
  .ok (2 ^ bits)

@[simp] theorem ok_bind {α β : Type} (a : α) (f : α → Checked β) :
    (Except.ok a >>= f) = f a := rfl

@[simp] theorem error_bind {α β : Type} (fault : Fault) (f : α → Checked β) :
    (Except.error fault >>= f) = .error fault := rfl

end Checked

theorem bind_eq_ok_iff {ε α β : Type} {x : Except ε α} {f : α → Except ε β} {b : β} :
    (x >>= f) = .ok b ↔ ∃ a, x = .ok a ∧ f a = .ok b := by
  cases x with
  | error e => simp [bind, Except.bind]
  | ok a => simp [bind, Except.bind]

namespace Checked

/-! ### When a check passes -/

theorem require_eq_ok_iff {p : Prop} [Decidable p] {fault : Fault} :
    require p fault = .ok () ↔ p := by
  unfold require
  split <;> simp_all

theorem sub_eq_ok_iff {a b n : Nat} : sub a b = .ok n ↔ b ≤ a ∧ n = a - b := by
  by_cases h : b ≤ a
  · simp [sub, require, h, eq_comm]
  · simp [sub, require, h]

theorem add_eq_ok_iff {limit a b n : Nat} :
    add limit a b = .ok n ↔ a + b ≤ limit ∧ n = a + b := by
  by_cases h : a + b ≤ limit
  · simp [add, atMost, require, h, eq_comm]
  · simp [add, atMost, require, h]

theorem get_eq_ok_iff {α : Type} {xs : Array α} {i : Nat} {x : α} :
    get xs i = .ok x ↔ xs[i]? = some x := by
  unfold get
  split <;> simp_all

theorem require_eq_ok {p : Prop} [Decidable p] (h : p) (fault : Fault) :
    require p fault = .ok () :=
  require_eq_ok_iff.mpr h

theorem atMost_eq_ok {limit n : Nat} (h : n ≤ limit) : atMost limit n = .ok () :=
  require_eq_ok h _

theorem sub_eq_ok {a b : Nat} (h : b ≤ a) : sub a b = .ok (a - b) := sub_eq_ok_iff.mpr ⟨h, rfl⟩

theorem add_eq_ok {limit a b : Nat} (h : a + b ≤ limit) : add limit a b = .ok (a + b) :=
  add_eq_ok_iff.mpr ⟨h, rfl⟩

theorem power_eq_ok {bits : Nat} (h : bits < 64) : power bits = .ok (2 ^ bits) := by
  rw [power, require_eq_ok h, ok_bind]

end Checked

end Backref
