/-
# A window is a block of data with zero bytes behind it

A window holds one block of data and `guardSize` zero bytes past its end, so
that a word read near the end stays inside. Its size, as a power of two, bounds
how far back a match may lie: the reach is the size less the bytes that must
stay buffered ahead.

Key definitions: `reach`, `reach?`, `Window`, `Window.ofData`.
Key theorems: `reach?_eq_some`, `Window.ofData_eq_ok_iff`, `Window.getElem?_guarded`.
-/
import Backref.Limits

namespace Backref

/-- The farthest distance usable in a window of `2 ^ bits` bytes. -/
def reach (bits : Nat) : Nat := 2 ^ bits - minLookahead

/-- The reach as a 32-bit number, for any number of bits. There is none when the
size is no 64-bit number or does not hold the lookahead. -/
def reach? (bits : Nat) : Option Nat :=
  if bits < 64 ∧ minLookahead ≤ 2 ^ bits then some (reach bits % 2 ^ 32) else none

/-- Every window size on offer has a reach, and it is a 32-bit number. -/
theorem reach?_eq_some {bits : Nat} (h : windowBitsLimits.Admits bits) :
    reach? bits = some (reach bits) := by
  obtain ⟨h1, h2⟩ := h
  simp only [windowBitsLimits] at h1 h2
  have : bits = 9 ∨ bits = 10 ∨ bits = 11 ∨ bits = 12 ∨ bits = 13 ∨ bits = 14 ∨ bits = 15 := by
    omega
  rcases this with rfl | rfl | rfl | rfl | rfl | rfl | rfl <;> decide

structure Window where
  data : Array UInt8
  /-- The size of the window, as a power of two. -/
  bits : Nat
  /-- The block and the zero bytes behind it. -/
  guarded : Array UInt8
  bits_admitted : windowBitsLimits.Admits bits
  size_le : data.size ≤ maxPosition - guardSize
  guarded_eq : guarded = data ++ Array.replicate guardSize 0

namespace Window

/-- The window of a block; refused if the size is out of range or the block is
too long for 32-bit positions. -/
def ofData (data : Array UInt8) (bits : Nat) : Except ConfigError Window :=
  if hb : windowBitsLimits.Admits bits then
    if hs : data.size ≤ maxPosition - guardSize then
      .ok ⟨data, bits, data ++ Array.replicate guardSize 0, hb, hs, rfl⟩
    else .error (.inputSize data.size)
  else .error (.windowBits bits)

def size (w : Window) : Nat := w.data.size

def isEmpty (w : Window) : Bool := w.data.isEmpty

/-- The bytes from a position to the end of the block. -/
def lookahead (w : Window) (pos : Nat) : Nat := w.data.size - pos

def span (w : Window) : Nat := 2 ^ w.bits

def mask (w : Window) : Nat := w.span - 1

def reach (w : Window) : Nat := Backref.reach w.bits

theorem ofData_eq_ok_iff {data : Array UInt8} {bits : Nat} {w : Window} :
    ofData data bits = .ok w ↔ w.data = data ∧ w.bits = bits := by
  constructor
  · intro h
    unfold ofData at h
    split at h
    · split at h
      · cases h; exact ⟨rfl, rfl⟩
      · cases h
    · cases h
  · rintro ⟨rfl, rfl⟩
    obtain ⟨data, bits, guarded, hb, hs, hg⟩ := w
    subst hg
    simp only [ofData, hb, hs, dite_true]

theorem size_guarded (w : Window) : w.guarded.size = w.size + guardSize := by
  rw [w.guarded_eq]; simp [size]

/-- The guarded bytes are the data, then zeros. -/
theorem getElem?_guarded (w : Window) (k : Nat) :
    w.guarded[k]? =
      if k < w.data.size then w.data[k]?
      else if k < w.data.size + guardSize then some 0 else none := by
  rw [w.guarded_eq, Array.getElem?_append]
  by_cases h : k < w.data.size
  · rw [if_pos h, if_pos h]
  · rw [if_neg h, if_neg h, Array.getElem?_replicate]
    by_cases h2 : k < w.data.size + guardSize
    · rw [if_pos h2, if_pos (by omega)]
    · rw [if_neg h2, if_neg (by omega)]

end Window

end Backref
