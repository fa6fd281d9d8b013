/-
# The chain answers with the greatest position of a bucket

What a chain knows of increasing positions can be said without the chain: the head of
a bucket, and the link of a position that is still in the window of the last one, are
the greatest positions of the bucket inserted before, and zero stands for none, which
position zero cannot be told from. A walk along the links from a position in the
window, up to zero or to the first position that has left the window, lists exactly
the earlier positions of the bucket that are in the window, nearest first.

Key definitions: `HashChain.newest`, `HashChain.recent`.
Key theorems: `HashChain.newest_eq_headD`, `HashChain.walk_insertAll`,
`HashChain.exact_in_window`.
-/
import Backref.Proofs.Buckets

namespace Backref

theorem Links.walk_succ {l : Links} {pos next : Nat} (h : l.next? pos = some next) (n : Nat) :
    l.walk pos (n + 1) = if next = noPosition then [] else next :: l.walk next n := by
  rw [Links.walk, h]

namespace HashChain

/-- The greatest of some positions that has the hash, zero if none has it. -/
def newest (c : HashChain) (bytes : Array UInt8) (positions : List Nat) (hash : Nat) : Nat :=
  ((positions.filter fun p => c.hashAt bytes p = hash).max?).getD noPosition

/-- The positions of a list that lie before `pos` and have its hash, are not zero and lie
less than a window behind `last`, the last first. -/
def recent (c : HashChain) (bytes : Array UInt8) (windowBits : Nat) (positions : List Nat)
    (last pos : Nat) : List Nat :=
  (positions.filter fun p => p < pos ∧ c.hashAt bytes p = c.hashAt bytes pos ∧
    p ≠ noPosition ∧ last - p < 2 ^ windowBits).reverse

variable {c : HashChain} {bytes : Array UInt8} {ps : List Nat}

/-! ### The greatest position -/

theorem newest_eq_headD (hsorted : ps.Pairwise (· < ·)) (hash : Nat) :
    c.newest bytes ps hash = (c.bucket bytes ps hash).headD noPosition := by
  have hdesc : (c.bucket bytes ps hash).Pairwise (· > ·) :=
    List.pairwise_reverse.mpr (hsorted.filter _)
  have hmem {p : Nat} : p ∈ c.bucket bytes ps hash ↔
      p ∈ ps.filter fun p => c.hashAt bytes p = hash := List.mem_reverse
  rcases hbucket : c.bucket bytes ps hash with _ | ⟨r, rest⟩
  · have hnone : (ps.filter fun p => c.hashAt bytes p = hash) = [] :=
      List.reverse_eq_nil_iff.mp hbucket
    rw [newest, hnone]
    rfl
  · rw [hbucket] at hdesc hmem
    have hmax : (ps.filter fun p => c.hashAt bytes p = hash).max? = some r := by
      refine List.max?_eq_some_iff.mpr ⟨hmem.mp List.mem_cons_self, fun p hp => ?_⟩
      rcases List.mem_cons.mp (hmem.mpr hp) with rfl | hp
      · exact Nat.le_refl _
      · exact Nat.le_of_lt ((List.pairwise_cons.mp hdesc).1 p hp)
    rw [newest, hmax]
    rfl

/-! ### A walk that ends at the edge of the window -/

/-- Being in the window of the last position is lying above a floor. -/
theorem recent_eq_filter_earlier {windowBits last : Nat} (hlast : ∀ p ∈ ps, p ≤ last) (pos : Nat) :
    c.recent bytes windowBits ps last pos =
      (c.earlier bytes ps pos).filter (last - 2 ^ windowBits < ·) := by
  rw [recent, earlier, bucket, List.filter_reverse, List.filter_filter, List.filter_filter]
  congr 1
  refine List.filter_congr fun p hp => ?_
  have hle := hlast p hp
  have hwindow := Nat.two_pow_pos windowBits
  have hedge : last - 2 ^ windowBits < p ↔ p ≠ noPosition ∧ last - p < 2 ^ windowBits := by
    simp only [noPosition]
    omega
  by_cases hlt : p < pos <;> by_cases hhash : c.hashAt bytes p = c.hashAt bytes pos <;>
    simp [hlt, hhash, hedge]

/-- **A walk from a position in the window lists the earlier ones of its bucket there**, up
to the first that has left the window. -/
theorem walk_insertAll {windowBits hashBits last : Nat} (hsorted : ps.Pairwise (· < ·))
    (hlast : ∀ p ∈ ps, p ≤ last) (n : Nat) :
    ∀ {pos : Nat}, pos ∈ ps → last - pos < 2 ^ windowBits →
      ((((empty windowBits hashBits).insertAll bytes ps).view.walk pos n).takeWhile
          fun p => last - p < 2 ^ windowBits) =
        ((empty windowBits hashBits).recent bytes windowBits ps last pos).take n := by
  induction n with
  | zero => intros; rfl
  | succ n ih =>
    intro pos hpos hwindow
    have hlive : ∀ p ∈ ps, p < pos + 2 ^ windowBits := by
      intro p hp
      have := hlast p hp
      omega
    have hnext : ((empty windowBits hashBits).insertAll bytes ps).view.next? pos =
        some (((empty windowBits hashBits).earlier bytes ps pos).headD noPosition) :=
      next?_insertAll hsorted hpos hlive
    rw [recent_eq_filter_earlier hlast]
    rcases hearlier : (empty windowBits hashBits).earlier bytes ps pos with _ | ⟨r, rest⟩
    · rw [hearlier] at hnext
      rw [Links.walk_succ hnext]
      rfl
    · obtain ⟨hmem, -, -⟩ := of_earlier_eq_cons hearlier
      have hle := hlast r hmem
      rw [hearlier, List.headD_cons] at hnext
      rw [Links.walk_succ hnext, ← hearlier, filter_earlier hsorted hearlier]
      -- a link of zero ends the walk, and lies above no floor
      by_cases hzero : r = noPosition
      · have hbelow : ¬ last - 2 ^ windowBits < r := hzero ▸ Nat.not_lt_zero _
        rw [if_pos hzero, if_neg hbelow]
        rfl
      · have hpositive : 0 < r := Nat.pos_of_ne_zero hzero
        rw [if_neg hzero]
        by_cases hin : last - r < 2 ^ windowBits
        · rw [if_pos (by omega), List.takeWhile_cons_of_pos (by simpa using hin), ih hmem hin,
            recent_eq_filter_earlier hlast, List.take_succ_cons]
        · rw [if_neg (by omega), List.takeWhile_cons_of_neg (by simpa using hin)]
          rfl

/-! ### The chain inside the window -/

/-- **Inside the window the chain is exact.** Of increasing positions each insertion answers
with the greatest one before in its bucket; the head of a bucket is the greatest in it; the
link of a position in the window of the last one is the greatest before it in its bucket;
and a walk from there lists exactly the earlier ones of the bucket in the window, each once
and the nearest first. -/
theorem exact_in_window {windowBits hashBits last : Nat} (hsorted : ps.Pairwise (· < ·))
    (hlast : ps.getLast? = some last) :
    let c : HashChain := empty windowBits hashBits
    let chain : HashChain := c.insertAll bytes ps
    (∀ before p after, ps = before ++ p :: after →
      ((c.insertAll bytes before).insert bytes p).1 =
        c.newest bytes before (c.hashAt bytes p)) ∧
    (∀ pos, chain.headOf bytes pos = c.newest bytes ps (c.hashAt bytes pos)) ∧
    ∀ q ∈ ps, last - q < 2 ^ windowBits →
      chain.view.next? q = some (c.newest bytes (ps.filter (· < q)) (c.hashAt bytes q)) ∧
      (c.recent bytes windowBits ps last q).Pairwise (· > ·) ∧
      ∀ n, ((chain.view.walk q n).takeWhile fun p => last - p < 2 ^ windowBits) =
        (c.recent bytes windowBits ps last q).take n := by
  intro c chain
  obtain ⟨init, hinit⟩ := List.getLast?_eq_some_iff.mp hlast
  have hle : ∀ p ∈ ps, p ≤ last := by
    intro p hp
    rw [hinit, List.mem_append, List.mem_singleton] at hp
    rcases hp with hp | rfl
    · rw [hinit] at hsorted
      exact Nat.le_of_lt ((List.pairwise_append.mp hsorted).2.2 p hp last List.mem_cons_self)
    · exact Nat.le_refl _
  have hhead (qs : List Nat) (hqs : qs.Pairwise (· < ·)) (pos : Nat) :
      (c.insertAll bytes qs).headOf bytes pos = c.newest bytes qs (c.hashAt bytes pos) := by
    rw [headOf_insertAll, headOf_empty, newest_eq_headD hqs]
  refine ⟨?_, hhead ps hsorted, ?_⟩
  · rintro before p after rfl
    rw [insert_fst, hhead before (List.pairwise_append.mp hsorted).1]
  · intro q hq hwindow
    refine ⟨?_, List.pairwise_reverse.mpr (hsorted.filter _),
      fun n => walk_insertAll hsorted hle n hq hwindow⟩
    rw [next?_insertAll hsorted hq fun p hp => by have := hle p hp; omega,
      newest_eq_headD (hsorted.filter _)]
    rfl

/-- Positions with gaps in a window of four, all in one bucket. Slots are used again, so the
links beyond the window lead back into it. -/
theorem exact_in_window_reused :
    let ps : List Nat := [0, 1, 2, 4, 5, 7]
    let bytes : Array UInt8 := Array.replicate 10 3
    let c : HashChain := empty 2 8
    let chain : HashChain := c.insertAll bytes ps
    (ps.Pairwise (· < ·) ∧ ps.getLast? = some 7) ∧
      ((∀ before p after, ps = before ++ p :: after →
          ((c.insertAll bytes before).insert bytes p).1 =
            c.newest bytes before (c.hashAt bytes p)) ∧
        (∀ pos, chain.headOf bytes pos = c.newest bytes ps (c.hashAt bytes pos)) ∧
        ∀ q ∈ ps, 7 - q < 2 ^ 2 →
          chain.view.next? q = some (c.newest bytes (ps.filter (· < q)) (c.hashAt bytes q)) ∧
          (c.recent bytes 2 ps 7 q).Pairwise (· > ·) ∧
          ∀ n, ((chain.view.walk q n).takeWhile fun p => 7 - p < 2 ^ 2) =
            (c.recent bytes 2 ps 7 q).take n) ∧
      c.recent bytes 2 ps 7 7 = [5, 4] ∧ chain.view.walk 7 5 = [5, 4, 2, 1, 4] := by
  intro ps bytes c chain
  have hsorted : ps.Pairwise (· < ·) := by decide
  have hlast : ps.getLast? = some 7 := by decide
  exact ⟨⟨hsorted, hlast⟩, exact_in_window hsorted hlast, by decide +kernel, by decide +kernel⟩

end HashChain

end Backref
