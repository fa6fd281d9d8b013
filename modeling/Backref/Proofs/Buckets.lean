/-
# Inside the window a chain is exact

A chain that is built by inserting increasing positions has forgotten nothing of
the last window: its head for a hash is the last position inserted with that hash,
and the link of a position less than a window behind the last one is the last
position inserted before it with the same hash. Older links may be overwritten,
for the slots are shared by positions a whole window apart. So a walk from a live
position meets, newest first, every position of its bucket down to the floor.

Key definitions: `HashChain.bucket`, `HashChain.earlier`.
Key theorems: `HashChain.headOf_insertAll`, `HashChain.next?_insertAll`,
`HashChain.candidates_insertAll`.
-/
import Mathlib.Data.List.Induction
import Backref.Proofs.Plain

namespace Backref.HashChain

/-- The positions of a list that have the hash, last first. -/
def bucket (c : HashChain) (bytes : Array UInt8) (positions : List Nat) (hash : Nat) : List Nat :=
  (positions.filter fun p => c.hashAt bytes p = hash).reverse

/-- The positions of a list that lie before `pos` and have its hash, last first. -/
def earlier (c : HashChain) (bytes : Array UInt8) (positions : List Nat) (pos : Nat) : List Nat :=
  c.bucket bytes (positions.filter (· < pos)) (c.hashAt bytes pos)

variable {c : HashChain} {bytes : Array UInt8} {ps : List Nat}

/-! ### One insertion -/

theorem hashAt_insert (pos other : Nat) :
    (c.insert bytes pos).2.hashAt bytes other = c.hashAt bytes other := rfl

theorem windowMask_insert (pos : Nat) : (c.insert bytes pos).2.windowMask = c.windowMask := rfl

theorem next?_insert (pos other : Nat) :
    (c.insert bytes pos).2.view.next? other =
      if pos &&& c.windowMask = other &&& c.windowMask then some (c.headOf bytes pos)
      else c.view.next? other := by
  change (c.links.set (pos &&& c.windowMask) (c.headOf bytes pos) (c.slot_lt_size pos))[
    other &&& c.windowMask]? = _
  rw [Array.getElem?_set]
  rfl

/-- Positions less than a window apart have different slots. -/
theorem slot_ne {bits p q : Nat} (h1 : q < p) (h2 : p < q + 2 ^ bits) :
    p &&& (2 ^ bits - 1) ≠ q &&& (2 ^ bits - 1) := by
  rw [Nat.and_two_pow_sub_one_eq_mod, Nat.and_two_pow_sub_one_eq_mod]
  intro h
  have hzero := Nat.sub_mod_eq_zero_of_mod_eq h
  rw [Nat.mod_eq_of_lt (by omega)] at hzero
  omega

/-! ### All insertions -/

theorem insertAll_concat (pos : Nat) :
    c.insertAll bytes (ps ++ [pos]) = ((c.insertAll bytes ps).insert bytes pos).2 :=
  c.insertAll_append bytes ps [pos]

theorem hashAt_insertAll (other : Nat) :
    (c.insertAll bytes ps).hashAt bytes other = c.hashAt bytes other := by
  induction ps using List.reverseRecOn with
  | nil => rfl
  | append_singleton ps p ih => rw [insertAll_concat, hashAt_insert, ih]

theorem windowMask_insertAll : (c.insertAll bytes ps).windowMask = c.windowMask := by
  induction ps using List.reverseRecOn with
  | nil => rfl
  | append_singleton ps p ih => rw [insertAll_concat, windowMask_insert, ih]

theorem bucket_concat (pos hash : Nat) :
    c.bucket bytes (ps ++ [pos]) hash =
      if c.hashAt bytes pos = hash then pos :: c.bucket bytes ps hash
      else c.bucket bytes ps hash := by
  by_cases h : c.hashAt bytes pos = hash <;> simp [bucket, h]

/-- **The head of a bucket is the last position inserted into it.** -/
theorem headOf_insertAll (pos : Nat) :
    (c.insertAll bytes ps).headOf bytes pos =
      (c.bucket bytes ps (c.hashAt bytes pos)).headD (c.headOf bytes pos) := by
  induction ps using List.reverseRecOn with
  | nil => rfl
  | append_singleton ps p ih =>
    rw [insertAll_concat, headOf_insert, hashAt_insertAll, hashAt_insertAll, bucket_concat, ih]
    split <;> rfl

theorem earlier_concat {pos p : Nat} (h : pos ≤ p) :
    c.earlier bytes (ps ++ [p]) pos = c.earlier bytes ps pos := by
  have hnot : (decide (p < pos)) = false := decide_eq_false (Nat.not_lt.mpr h)
  rw [earlier, earlier, List.filter_append, List.filter_singleton, hnot, cond_false,
    List.append_nil]

theorem headOf_empty (windowBits hashBits pos : Nat) :
    (empty windowBits hashBits).headOf bytes pos = noPosition :=
  Std.TreeMap.getD_emptyc

theorem next?_empty (windowBits hashBits pos : Nat) :
    (empty windowBits hashBits).view.next? pos = some noPosition := by
  have hslot := (empty windowBits hashBits).slot_lt_size pos
  exact (Array.getElem?_eq_getElem hslot).trans (congrArg some (Array.getElem_replicate _))

/-- **A link is the last position inserted before into the same bucket**, as long as
its slot has not been used again. -/
theorem next?_insertAll {windowBits hashBits : Nat} {pos : Nat} (hsorted : ps.Pairwise (· < ·))
    (hpos : pos ∈ ps) (hlive : ∀ p ∈ ps, p < pos + 2 ^ windowBits) :
    ((empty windowBits hashBits).insertAll bytes ps).view.next? pos =
      some (((empty windowBits hashBits).earlier bytes ps pos).headD noPosition) := by
  induction ps using List.reverseRecOn with
  | nil => cases hpos
  | append_singleton ps p ih =>
    obtain ⟨hps, -, hlast⟩ := List.pairwise_append.mp hsorted
    have hlast : ∀ q ∈ ps, q < p := fun q hq => hlast q hq p (List.mem_singleton.mpr rfl)
    have hmask : ((empty windowBits hashBits).insertAll bytes ps).windowMask =
        2 ^ windowBits - 1 := windowMask_insertAll
    rw [insertAll_concat, next?_insert, hmask]
    rcases List.mem_append.mp hpos with hmem | hmem
    · have hlt := hlast pos hmem
      have hwindow := hlive p (List.mem_append_right _ (List.mem_singleton.mpr rfl))
      rw [if_neg (slot_ne hlt hwindow), earlier_concat (Nat.le_of_lt hlt),
        ih hps hmem fun q hq => hlive q (List.mem_append_left _ hq)]
    · obtain rfl := List.mem_singleton.mp hmem
      have hall : ps.filter (· < pos) = ps :=
        List.filter_eq_self.mpr fun q hq => by simpa using hlast q hq
      rw [if_pos rfl, headOf_insertAll, headOf_empty, earlier_concat (Nat.le_refl pos), earlier,
        hall]

/-! ### A walk along the links -/

theorem mem_earlier {pos p : Nat} :
    p ∈ c.earlier bytes ps pos ↔ p ∈ ps ∧ p < pos ∧ c.hashAt bytes p = c.hashAt bytes pos := by
  simp only [earlier, bucket, List.mem_reverse, List.mem_filter, decide_eq_true_eq, and_assoc]

theorem of_earlier_eq_cons {pos r : Nat} {rest : List Nat} (h : c.earlier bytes ps pos = r :: rest) :
    r ∈ ps ∧ r < pos ∧ c.hashAt bytes r = c.hashAt bytes pos :=
  mem_earlier.mp (h ▸ List.mem_cons_self)

/-- Behind the first earlier position of a bucket come those before it. -/
theorem earlier_eq_cons {pos r : Nat} {rest : List Nat} (hsorted : ps.Pairwise (· < ·))
    (h : c.earlier bytes ps pos = r :: rest) : rest = c.earlier bytes ps r := by
  obtain ⟨hmem, hlt, hhash⟩ := of_earlier_eq_cons h
  have hdesc : (r :: rest).Pairwise (· > ·) := by
    rw [← h, earlier, bucket, List.pairwise_reverse]
    exact (hsorted.filter _).filter _
  have hrest : rest = (r :: rest).filter (· < r) := by
    rw [List.filter_cons, if_neg (by simp)]
    exact (List.filter_eq_self.mpr fun q hq => by
      simpa using (List.pairwise_cons.mp hdesc).1 q hq).symm
  rw [hrest, ← h, earlier, earlier, bucket, bucket, List.filter_reverse, List.filter_filter,
    List.filter_filter, List.filter_filter, hhash]
  congr 1
  refine List.filter_congr fun q _ => ?_
  by_cases hq : q < r
  · simp [hq, Nat.lt_trans hq hlt]
  · simp [hq]

/-- Above a floor lie the first earlier position of a bucket and those before it, or none if
the first lies below. -/
theorem filter_earlier {pos r floor : Nat} {rest : List Nat} (hsorted : ps.Pairwise (· < ·))
    (h : c.earlier bytes ps pos = r :: rest) :
    (c.earlier bytes ps pos).filter (floor < ·) =
      if floor < r then r :: (c.earlier bytes ps r).filter (floor < ·) else [] := by
  obtain rfl := earlier_eq_cons hsorted h
  rw [h, List.filter_cons]
  by_cases hr : floor < r
  · rw [if_pos (by simpa using hr), if_pos hr]
  · have hnone : ∀ q ∈ c.earlier bytes ps r, ¬ floor < q := by
      intro q hq
      have := (mem_earlier.mp hq).2.1
      omega
    rw [if_neg (by simpa using hr), if_neg hr, List.filter_eq_nil_iff.mpr (by simpa using hnone)]

/-- **A walk from a live position meets every position of its bucket above the
floor**, newest first. -/
theorem candidates_insertAll {windowBits hashBits floor current : Nat}
    (hsorted : ps.Pairwise (· < ·)) (hfloor : ∀ p ∈ ps, p ≤ floor + 2 ^ windowBits) (budget : Nat) :
    ∀ {pos : Nat}, pos ∈ ps → (∀ p ∈ ps, p < pos + 2 ^ windowBits) → pos ≤ current →
      ((empty windowBits hashBits).insertAll bytes ps).view.candidates floor current budget pos =
        (pos :: ((empty windowBits hashBits).earlier bytes ps pos).filter (floor < ·)).take
          budget := by
  induction budget with
  | zero => intros; rfl
  | succ n ih =>
    intro pos hpos hlive hle
    rw [Links.candidates, Links.link?, next?_insertAll hsorted hpos hlive, List.take_succ_cons]
    congr 1
    rcases hearlier : (empty windowBits hashBits).earlier bytes ps pos with _ | ⟨r, rest⟩
    · simp [Option.filter, noPosition]
    · obtain ⟨hmem, hlt, -⟩ := of_earlier_eq_cons hearlier
      rw [← hearlier, filter_earlier hsorted hearlier, hearlier, List.headD_cons,
        Option.filter_some]
      by_cases hr : floor < r
      · have hcond : (decide (floor < r ∧ r < current)) = true := by
          rw [decide_eq_true_eq]; omega
        rw [if_pos hcond, if_pos hr]
        refine ih hmem (fun p hp => ?_) (by omega)
        have := hfloor p hp
        omega
      · rw [if_neg (by simp [hr]), if_neg hr, List.take_nil]

end Backref.HashChain
