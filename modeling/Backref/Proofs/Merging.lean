/-
# A merge adds up, unless a total is too great

Merging the counters of several blocks adds them up one block after the other and has no
value as soon as one sum is no counter. The sums only grow, so that happens exactly if one
of the six totals is too great, wherever among the blocks it is passed. The totals are the
same in any order of the blocks; the merged fingerprint, which digests the fingerprints of
the blocks in order, is not.

Key definitions: `Stats.plus`, `Stats.total`, `Stats.Fits`.
Key theorems: `ofDigits_wordBytes`, `Stats.add?_eq`, `Stats.foldlM_add?`,
`Stats.merge?_eq`, `Stats.merge?_eq_none_iff`, `Stats.merge?_perm`, `Stats.total_append`.
-/
import Mathlib.Algebra.BigOperators.Group.List.Basic
import Mathlib.Algebra.GroupWithZero.Nat
import Mathlib.Data.Nat.Digits.Defs
import Mathlib.Tactic.MkIffOfInductiveProp
import Backref.Stats.Basic

namespace Backref

theorem toNat_byte {word shift : UInt64} (h : shift.toNat < 64) :
    (word >>> shift).toUInt8.toNat = word.toNat / 2 ^ shift.toNat % 256 := by
  rw [UInt64.toNat_toUInt8, UInt64.toNat_shiftRight, Nat.mod_eq_of_lt h,
    Nat.shiftRight_eq_div_pow]

/-- The bytes of a word are its digits to the base 256, the least significant first. -/
theorem ofDigits_wordBytes (word : UInt64) :
    (wordBytes word).length = 8 ∧
      Nat.ofDigits 256 ((wordBytes word).map UInt8.toNat) = word.toNat := by
  have hword := word.toNat_lt
  refine ⟨rfl, ?_⟩
  simp (disch := decide) only [wordBytes, List.map_cons, List.map_nil, Nat.ofDigits_cons,
    Nat.ofDigits_nil, toNat_byte]
  simp
  omega

namespace Stats

/-- The counters of two blocks together, however great. -/
def plus (a b : Stats) : Stats where
  bytes := a.bytes + b.bytes
  literals := a.literals + b.literals
  copies := a.copies + b.copies
  copiedBytes := a.copiedBytes + b.copiedBytes
  searches := a.searches + b.searches
  improved := a.improved + b.improved
  longest := max a.longest b.longest
  fingerprint := a.fingerprint

def total (parts : List Stats) : Stats where
  bytes := (parts.map (·.bytes)).sum
  literals := (parts.map (·.literals)).sum
  copies := (parts.map (·.copies)).sum
  copiedBytes := (parts.map (·.copiedBytes)).sum
  searches := (parts.map (·.searches)).sum
  improved := (parts.map (·.improved)).sum
  longest := (parts.map (·.longest)).foldl max 0
  fingerprint := mergedFingerprint parts

/-- The six counters that are added up are 64-bit numbers. -/
@[mk_iff]
structure Fits (s : Stats) : Prop where
  bytes : s.bytes ≤ maxCounter
  literals : s.literals ≤ maxCounter
  copies : s.copies ≤ maxCounter
  copiedBytes : s.copiedBytes ≤ maxCounter
  searches : s.searches ≤ maxCounter
  improved : s.improved ≤ maxCounter

instance (s : Stats) : Decidable s.Fits := decidable_of_iff _ (fits_iff s).symm

theorem Fits.of_plus {a b : Stats} (h : (a.plus b).Fits) : a.Fits where
  bytes := Nat.le_trans (Nat.le_add_right _ _) h.bytes
  literals := Nat.le_trans (Nat.le_add_right _ _) h.literals
  copies := Nat.le_trans (Nat.le_add_right _ _) h.copies
  copiedBytes := Nat.le_trans (Nat.le_add_right _ _) h.copiedBytes
  searches := Nat.le_trans (Nat.le_add_right _ _) h.searches
  improved := Nat.le_trans (Nat.le_add_right _ _) h.improved

theorem Fits.of_foldl {parts : List Stats} {a : Stats} (h : (parts.foldl plus a).Fits) :
    a.Fits := by
  induction parts generalizing a with
  | nil => exact h
  | cons part rest ih => exact (ih h).of_plus

/-- One more block is added exactly if all six sums are counters. -/
theorem add?_eq (a b : Stats) : a.add? b = if (a.plus b).Fits then some (a.plus b) else none := by
  by_cases hfits : (a.plus b).Fits
  · obtain ⟨h1, h2, h3, h4, h5, h6⟩ := hfits
    rw [if_pos ⟨h1, h2, h3, h4, h5, h6⟩]
    simp only [plus] at h1 h2 h3 h4 h5 h6
    simp [add?, addCounter?, h1, h2, h3, h4, h5, h6, plus]
  · rw [if_neg hfits]
    refine Option.eq_none_iff_forall_not_mem.mpr fun c hc => hfits ?_
    simp only [add?, Option.mem_def, Option.bind_eq_bind, Option.bind_eq_some_iff,
      addCounter?_eq_some_iff] at hc
    obtain ⟨_, ⟨h1, -⟩, _, ⟨h2, -⟩, _, ⟨h3, -⟩, _, ⟨h4, -⟩, _, ⟨h5, -⟩, _, ⟨h6, -⟩, -⟩ := hc
    exact ⟨h1, h2, h3, h4, h5, h6⟩

/-- Adding block after block has a value exactly if all six totals are counters. -/
theorem foldlM_add? (parts : List Stats) {a : Stats} (h : a.Fits) :
    parts.foldlM add? a =
      if (parts.foldl plus a).Fits then some (parts.foldl plus a) else none := by
  induction parts generalizing a with
  | nil => rw [List.foldlM_nil, List.foldl_nil, if_pos h]; rfl
  | cons part rest ih =>
    rw [List.foldlM_cons, List.foldl_cons, add?_eq]
    by_cases hfits : (a.plus part).Fits
    · rw [if_pos hfits]
      exact ih hfits
    · rw [if_neg hfits, if_neg (mt Fits.of_foldl hfits)]
      rfl

theorem foldl_plus (parts : List Stats) (a : Stats) :
    parts.foldl plus a =
      { bytes := a.bytes + (parts.map (·.bytes)).sum
        literals := a.literals + (parts.map (·.literals)).sum
        copies := a.copies + (parts.map (·.copies)).sum
        copiedBytes := a.copiedBytes + (parts.map (·.copiedBytes)).sum
        searches := a.searches + (parts.map (·.searches)).sum
        improved := a.improved + (parts.map (·.improved)).sum
        longest := (parts.map (·.longest)).foldl max a.longest
        fingerprint := a.fingerprint } := by
  induction parts generalizing a with
  | nil => rfl
  | cons part rest ih =>
    rw [List.foldl_cons, ih]
    simp [plus, Nat.add_assoc]

/-- **A merge adds up, unless a total is too great.** -/
theorem merge?_eq (parts : List Stats) :
    merge? parts = if (total parts).Fits then some (total parts) else none := by
  have hzero : ({} : Stats).Fits := by decide
  have htotal : { parts.foldl plus {} with fingerprint := mergedFingerprint parts } =
      total parts := by
    rw [foldl_plus, total]
    simp
  have hfits : (parts.foldl plus {}).Fits ↔ (total parts).Fits := by
    rw [← htotal, fits_iff, fits_iff]
  rw [merge?, foldlM_add? parts hzero]
  by_cases h : (parts.foldl plus {}).Fits
  · rw [if_pos h, if_pos (hfits.mp h), Option.map_some, htotal]
  · rw [if_neg h, if_neg (mt hfits.mpr h), Option.map_none]

/-- A merge has no value exactly if one of the six totals is no counter. -/
theorem merge?_eq_none_iff (parts : List Stats) :
    merge? parts = none ↔
      maxCounter < (parts.map (·.bytes)).sum ∨ maxCounter < (parts.map (·.literals)).sum ∨
        maxCounter < (parts.map (·.copies)).sum ∨ maxCounter < (parts.map (·.copiedBytes)).sum ∨
        maxCounter < (parts.map (·.searches)).sum ∨ maxCounter < (parts.map (·.improved)).sum := by
  have hnone : merge? parts = none ↔ ¬(total parts).Fits := by
    rw [merge?_eq]
    split <;> simp_all
  rw [hnone, fits_iff]
  simp only [total]
  omega

/-! ### The order of the blocks, and blocks behind others -/

/-- In another order only the fingerprint changes. -/
theorem total_perm {parts others : List Stats} (h : parts.Perm others) :
    total others = { total parts with fingerprint := mergedFingerprint others } := by
  have hsum (f : Stats → Nat) : (others.map f).sum = (parts.map f).sum := (h.map f).sum_eq.symm
  have hlongest : (others.map (·.longest)).foldl max 0 = (parts.map (·.longest)).foldl max 0 :=
    (h.map _).foldl_op_eq.symm
  simp only [total, hsum, hlongest]

theorem merge?_perm {parts others : List Stats} (h : parts.Perm others) :
    merge? others =
      (merge? parts).map fun s => { s with fingerprint := mergedFingerprint others } := by
  have hfits : (total others).Fits ↔ (total parts).Fits := by
    rw [total_perm h, fits_iff, fits_iff]
  rw [merge?_eq, merge?_eq]
  by_cases hparts : (total parts).Fits
  · rw [if_pos hparts, if_pos (hfits.mpr hparts), Option.map_some, total_perm h]
  · rw [if_neg hparts, if_neg (mt hfits.mp hparts), Option.map_none]

theorem total_append (parts others : List Stats) :
    total (parts ++ others) =
      { (total parts).plus (total others) with
        fingerprint := mergedFingerprint (parts ++ others) } := by
  have hlongest (xs ys : List Nat) :
      (xs ++ ys).foldl max 0 = max (xs.foldl max 0) (ys.foldl max 0) := by
    have hassoc : ys.foldl max (max (xs.foldl max 0) 0) = max (xs.foldl max 0) (ys.foldl max 0) :=
      List.foldl_assoc
    rwa [Nat.max_zero, ← List.foldl_append] at hassoc
  simp only [total, plus, List.map_append, List.sum_append, hlongest]

end Stats

end Backref
