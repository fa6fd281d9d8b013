/-
# The bytes of an array from an offset on

A search compares the bytes at one position with the bytes at another, so it
looks at the same array from two offsets. A `View` is an array and an offset; a
read past the end of the array is `none`, never a fault. Two bytes, or a whole
word, are read in little-endian order, and only if all of them are there.

Key definitions: `View`, `View.get?`, `View.pair?`, `View.word?`.
Key theorems: `View.get?_eq_none_iff`, `View.getElem?_toList`.
-/
import Backref.Limits

namespace Backref

/-- An array of bytes, seen from an offset on. -/
structure View where
  bytes : Array UInt8
  start : Nat

namespace View

def ofArray (bytes : Array UInt8) : View := ⟨bytes, 0⟩

def size (v : View) : Nat := v.bytes.size - v.start

def drop (v : View) (n : Nat) : View := ⟨v.bytes, v.start + n⟩

def toList (v : View) : List UInt8 := v.bytes.toList.drop v.start

@[inline] def get? (v : View) (k : Nat) : Option UInt8 := v.bytes[v.start + k]?

/-- The two bytes at an offset as a 16-bit number, the first one least
significant, if both are there. -/
@[inline] def pair? (v : View) (k : Nat) : Option UInt16 :=
  match v.get? k, v.get? (k + 1) with
  | some lo, some hi => some (lo.toUInt16 ||| (hi.toUInt16 <<< 8))
  | _, _ => none

/-- The number whose `n` least significant bytes are the bytes at an offset;
bytes past the end count as zero. -/
def littleEndian (v : View) (k : Nat) : Nat → UInt64
  | 0 => 0
  | n + 1 => ((v.get? k).getD 0).toUInt64 ||| (littleEndian v (k + 1) n <<< 8)

/-- The machine word at an offset, the first byte least significant, if all of its
bytes are there. -/
def word? (v : View) (k : Nat) : Option UInt64 :=
  if k + wordSize ≤ v.size then some (v.littleEndian k wordSize) else none

theorem size_drop (v : View) (n : Nat) : (v.drop n).size = v.size - n := by
  simp only [size, drop]; omega

theorem get?_eq_none_iff (v : View) (k : Nat) : v.get? k = none ↔ v.size ≤ k := by
  simp only [get?, size, Array.getElem?_eq_none_iff]; omega

theorem getElem?_toList (v : View) (k : Nat) : v.toList[k]? = v.get? k := by
  simp [toList, get?]

theorem drop_toList_of_get? {v : View} {k : Nat} {x : UInt8} (h : v.get? k = some x) :
    v.toList.drop k = x :: v.toList.drop (k + 1) := by
  rw [← getElem?_toList] at h
  obtain ⟨hk, rfl⟩ := List.getElem?_eq_some_iff.mp h
  exact List.drop_eq_getElem_cons hk

theorem drop_toList_of_get?_eq_none {v : View} {k : Nat} (h : v.get? k = none) :
    v.toList.drop k = [] := by
  rw [← getElem?_toList] at h
  exact List.drop_eq_nil_of_le (List.getElem?_eq_none_iff.mp h)

theorem length_toList (v : View) : v.toList.length = v.size := by
  simp [toList, size]

end View

end Backref
