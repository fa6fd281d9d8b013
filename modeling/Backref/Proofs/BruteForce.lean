/-
# With an unconstrained budget a search misses no match

The brute-force finder measures every position within reach, whatever its bucket,
and takes the nearest of those that share the most bytes. A chain into which every
position has been inserted, and a search that is patient, has a budget for the
whole window and a nice length that no match exceeds, find the same: positions
that share three bytes share a bucket, no link of the window is overwritten, and
shorter runs cannot beat what the caller holds.

Key definitions: `Search.reachable`, `Search.bruteForce`.
Key theorems: `Search.bestSeen_eq_bestOf`, `Search.candidates_eq_reachable`,
`Search.longest_eq_bruteForce`.
-/
import Mathlib.Data.List.Find
import Backref.Proofs.Buckets
import Backref.Proofs.Matches

namespace Backref

theorem hashAt_eq_of_lt_agreementAt {c : HashChain} {bytes : Array UInt8} {p q limit : Nat}
    (h : 2 < agreementAt bytes p q limit) : c.hashAt bytes q = c.hashAt bytes p := by
  refine HashChain.hashAt_congr fun k hk => ?_
  obtain ⟨x, hp, hq⟩ := (lt_agreementAt_iff.mp h).2 k (Nat.le_of_lt_succ hk)
  rw [hp, hq]

theorem HashChain.earlier_range_succ {c : HashChain} {bytes : Array UInt8} {pos : Nat} :
    c.earlier bytes (List.range (pos + 1)) pos =
      c.bucket bytes (List.range pos) (c.hashAt bytes pos) := by
  rw [List.range_succ, earlier_concat (Nat.le_refl pos), earlier,
    List.filter_eq_self.mpr fun p hp => by simpa using hp]

namespace Search

/-! ### Looking at every candidate -/

/-- A patient search, if no candidate is more than nice, misses nothing by ending
at a nice one. -/
theorem bestSeen_eq_bestOf {nice baseline : Nat} {lengths : List Nat} (hbase : baseline ≤ nice)
    (h : ∀ l ∈ lengths, l ≤ nice) :
    bestSeen nice true baseline lengths = bestOf baseline lengths := by
  induction lengths generalizing baseline with
  | nil => rfl
  | cons l ls ih =>
    have hl : l ≤ nice := h l List.mem_cons_self
    have hls : ∀ x ∈ ls, x ≤ nice := fun x hx => h x (List.mem_cons_of_mem _ hx)
    rw [bestSeen_cons, bestOf_cons]
    split
    · -- nothing beats a nice length
      rename_i hend
      have hnice : max baseline l = nice := by
        rcases hend with ⟨h1, h2⟩ | ⟨-, h2⟩
        · omega
        · cases h2
      rw [hnice]
      exact Nat.le_antisymm (le_bestOf _ _) (bestOf_le (Nat.le_refl _) hls)
    · exact ih (by omega) hls

/-- Candidates that do not beat the baseline can be left out. -/
theorem bestOf_map_filter {keep : Nat → Bool} {length : Nat → Nat} {positions : List Nat}
    {baseline : Nat} (h : ∀ p ∈ positions, baseline < length p → keep p = true) :
    bestOf baseline ((positions.filter keep).map length) =
      bestOf baseline (positions.map length) := by
  induction positions generalizing baseline with
  | nil => rfl
  | cons p ps ih =>
    have hps : ∀ q ∈ ps, max baseline (length p) < length q → keep q = true :=
      fun q hq hlt => h q (List.mem_cons_of_mem _ hq) (by omega)
    rw [List.filter_cons, List.map_cons, bestOf_cons, ← ih hps]
    split
    · rw [List.map_cons, bestOf_cons]
    · rename_i hkeep
      have hle : length p ≤ baseline :=
        Nat.le_of_not_lt fun hlt => hkeep (h p List.mem_cons_self hlt)
      rw [Nat.max_eq_left hle]

/-- A patient search over some of the positions, among them all that beat the
baseline, answers as one over all of them. -/
theorem bestSeen_filter {same : Nat → Bool} {positions : List Nat} {length length' : Nat → Nat}
    {nice baseline : Nat} (hbase : baseline ≤ nice) (hlength : ∀ q ∈ positions, length q = length' q)
    (hnice : ∀ q, length' q ≤ nice)
    (hkeep : ∀ q ∈ positions, baseline < length' q → same q = true) :
    let best := bestOf baseline (positions.map length')
    bestSeen nice true baseline ((positions.filter same).map length) = best ∧
      (baseline < best → ((positions.filter same).find? fun q => length q = best) =
        positions.find? fun q => length' q = best) := by
  intro best
  have hmap : (positions.filter same).map length = (positions.filter same).map length' :=
    List.map_congr_left fun q hq => hlength q (List.mem_of_mem_filter hq)
  refine ⟨?_, fun himp => ?_⟩
  · rw [hmap, bestSeen_eq_bestOf hbase ?_, bestOf_map_filter hkeep]
    intro l hl
    obtain ⟨q, -, rfl⟩ := List.mem_map.mp hl
    exact hnice q
  · rw [List.find?_filter]
    refine List.find?_congr fun q hq => ?_
    rw [hlength q hq]
    by_cases heq : length' q = best
    · simp [heq, hkeep q hq (heq ▸ himp)]
    · simp [heq]

/-! ### The positions within reach -/

/-- The positions that can be the start of a match: those within reach, but for the
first one, which ends every chain, and the head. The nearest comes first. -/
def reachable (w : Window) (pos head : Nat) : List Nat :=
  ((List.range pos).filter fun p => (1 ≤ p ∧ pos - w.reach < p) ∨ p = head).reverse

/-- The longest match by measuring every position within reach. -/
def bruteForce (w : Window) (pos head carried : Nat) : Outcome :=
  let cap := min maxMatch (w.lookahead pos)
  let length := fun p => agreementAt w.data pos p cap
  let best := bestOf (min carried cap) ((reachable w pos head).map length)
  ⟨best, if carried < best then (reachable w pos head).find? fun p => length p = best else none⟩

theorem mem_reachable {w : Window} {pos head p : Nat} :
    p ∈ reachable w pos head ↔ p < pos ∧ ((1 ≤ p ∧ pos - w.reach < p) ∨ p = head) := by
  simp only [reachable, List.mem_reverse, List.mem_filter, List.mem_range, decide_eq_true_eq]

theorem length_reachable_le {w : Window} {pos head : Nat} (hnear : pos - head ≤ w.reach) :
    (reachable w pos head).length ≤ w.reach := by
  have hnodup : (reachable w pos head).Nodup :=
    List.pairwise_reverse.mpr ((List.nodup_range.filter _).imp Ne.symm)
  have hsubset : reachable w pos head ⊆ List.range' (pos - w.reach) (pos - (pos - w.reach)) := by
    intro p hp
    obtain ⟨hlt, hp⟩ := mem_reachable.mp hp
    rw [List.mem_range'_1]
    omega
  have hle := hnodup.length_le_of_subset hsubset
  rw [List.length_range'] at hle
  omega

theorem cons_earlier_eq_filter {w : Window} {c : HashChain} {bytes : Array UInt8} {pos head : Nat}
    {rest : List Nat} (h : c.earlier bytes (List.range (pos + 1)) pos = head :: rest) :
    head :: (c.earlier bytes (List.range (pos + 1)) head).filter (pos - w.reach < ·) =
      (reachable w pos head).filter fun p => c.hashAt bytes p = c.hashAt bytes pos := by
  obtain rfl := HashChain.earlier_eq_cons List.pairwise_lt_range h
  have hhead : (c.earlier bytes (List.range (pos + 1)) pos).filter
        (fun p => (1 ≤ p ∧ pos - w.reach < p) ∨ p = head) =
      head :: (c.earlier bytes (List.range (pos + 1)) head).filter (pos - w.reach < ·) := by
    rw [h, List.filter_cons, if_pos (by simp)]
    congr 1
    refine List.filter_congr fun p hp => ?_
    have hlt := (HashChain.mem_earlier.mp hp).2.1
    simp only [decide_eq_decide]
    omega
  rw [← hhead, HashChain.earlier_range_succ, HashChain.bucket, reachable, List.filter_reverse,
    List.filter_reverse, List.filter_filter, List.filter_filter]
  congr 1
  refine List.filter_congr fun p _ => ?_
  exact Bool.and_comm _ _

/-! ### The search finds what brute force finds -/

section

variable {w : Window} {hashBits pos head : Nat}

/-- **The walk from the head looks at every position within reach that shares the
bucket**, nearest first. -/
theorem candidates_eq_reachable {rest : List Nat}
    (h : (HashChain.empty w.bits hashBits).earlier w.guarded (List.range (pos + 1)) pos =
      head :: rest) (hnear : pos - head ≤ w.reach) {budget : Nat} (hbudget : 2 ^ w.bits ≤ budget) :
    ((HashChain.empty w.bits hashBits).insertAll w.guarded
        (List.range (pos + 1))).view.candidates (pos - w.reach) pos budget head =
      (reachable w pos head).filter fun p =>
        (HashChain.empty w.bits hashBits).hashAt w.guarded p =
          (HashChain.empty w.bits hashBits).hashAt w.guarded pos := by
  obtain ⟨hmem, hlt, -⟩ := HashChain.of_earlier_eq_cons h
  have hreach : w.reach < 2 ^ w.bits := by
    have := Nat.two_pow_pos w.bits
    simp only [Window.reach, Backref.reach, minLookahead]
    omega
  have hfloor : ∀ p ∈ List.range (pos + 1), p ≤ pos - w.reach + 2 ^ w.bits := by
    intro p hp
    have := List.mem_range.mp hp
    omega
  have hlive : ∀ p ∈ List.range (pos + 1), p < head + 2 ^ w.bits := by
    intro p hp
    have := List.mem_range.mp hp
    omega
  rw [HashChain.candidates_insertAll List.pairwise_lt_range hfloor budget hmem hlive
    (Nat.le_of_lt hlt), cons_earlier_eq_filter h]
  refine List.take_of_length_le ?_
  calc ((reachable w pos head).filter _).length
      ≤ (reachable w pos head).length := List.length_filter_le _ _
    _ ≤ w.reach := length_reachable_le hnear
    _ ≤ budget := by omega

/-- The head that inserting a position answers with is the last earlier one of its
bucket. -/
theorem earlier_of_insert {chain : HashChain}
    (hinsert : ((HashChain.empty w.bits hashBits).insertAll w.guarded (List.range pos)).insert
      w.guarded pos = (head, chain)) (hhead : head ≠ noPosition) :
    ∃ rest, (HashChain.empty w.bits hashBits).earlier w.guarded (List.range (pos + 1)) pos =
      head :: rest := by
  have hfst := congrArg Prod.fst hinsert
  rw [HashChain.insert_fst, HashChain.headOf_insertAll, HashChain.headOf_empty,
    ← HashChain.earlier_range_succ] at hfst
  rcases h : (HashChain.empty w.bits hashBits).earlier w.guarded (List.range (pos + 1)) pos with
    _ | ⟨r, rest⟩
  · rw [h] at hfst
    exact absurd hfst.symm hhead
  · rw [h] at hfst
    obtain rfl : r = head := hfst
    exact ⟨rest, rfl⟩

/-- **With an unconstrained budget a search misses no match.** -/
theorem longest_eq_bruteForce (comparator : Comparator) {chain : HashChain} {p : Params}
    (hahead : minMatch ≤ w.lookahead pos)
    (hinsert : ((HashChain.empty w.bits hashBits).insertAll w.guarded (List.range pos)).insert
      w.guarded pos = (head, chain))
    (hhead : head ≠ noPosition) (hnear : pos - head ≤ w.reach) (hdist : p.maxDistance = w.reach)
    (hlook : p.lookahead = w.lookahead pos) (hlevel : patientLevel ≤ p.level)
    (hnice : min maxMatch (w.lookahead pos) ≤ p.niceLength) (hcarried : 2 ≤ p.carried)
    (hbudget : 2 ^ w.bits ≤ p.budget) :
    longest comparator w.guarded chain.view pos head p = bruteForce w pos head p.carried := by
  obtain ⟨rest, hearlier⟩ := earlier_of_insert hinsert hhead
  have hlt : head < pos := (HashChain.of_earlier_eq_cons hearlier).2.1
  have hchain : chain =
      (HashChain.empty w.bits hashBits).insertAll w.guarded (List.range (pos + 1)) := by
    rw [List.range_succ, HashChain.insertAll_concat, hinsert]
  have hbaseline : p.baseline = p.carried := Nat.max_eq_right (by omega)
  have hcap : p.cap = min maxMatch (w.lookahead pos) := by rw [Params.cap, hlook]
  have hfits : pos + p.cap ≤ w.size := by
    simp only [minMatch, Window.lookahead] at hahead
    simp only [hcap, Window.lookahead, Window.size]
    omega
  have hle : ∀ l ∈ (reachable w pos head).map fun q => agreementAt w.data pos q p.cap,
      l ≤ p.cap := by
    intro l hl
    obtain ⟨q, -, rfl⟩ := List.mem_map.mp hl
    exact agreementAt_le _ _ _ _
  rw [bruteForce, ← hcap]
  simp only
  by_cases hroom : p.cap ≤ p.baseline
  · -- no room to improve: both answer with the cap
    have hmin : min p.carried p.cap = p.cap := by omega
    have hbest := Nat.le_antisymm (bestOf_le (Nat.le_refl p.cap) hle) (le_bestOf p.cap _)
    rw [longest, if_pos (.inl hroom), hmin, hbest, if_neg (by omega), hbaseline, hmin]
    rfl
  · have hmin : min p.carried p.cap = p.carried := by omega
    have hpatient : (decide (patientLevel ≤ p.level)) = true := decide_eq_true hlevel
    rw [longest_eq_bestSeen comparator _ _ pos head p (by omega) hlt (by omega), hchain, hdist,
      candidates_eq_reachable hearlier hnear hbudget, hpatient, hbaseline, hmin,
      Nat.min_eq_right (hcap ▸ hnice)]
    have hlength : ∀ q ∈ reachable w pos head,
        agreementAt w.guarded pos q p.cap = agreementAt w.data pos q p.cap := fun q hq =>
      Window.agreementAt_guarded (Nat.le_of_lt (mem_reachable.mp hq).1) hfits
    have hkeep : ∀ q ∈ reachable w pos head, p.carried < agreementAt w.data pos q p.cap →
        (decide ((HashChain.empty w.bits hashBits).hashAt w.guarded q =
          (HashChain.empty w.bits hashBits).hashAt w.guarded pos)) = true := by
      intro q hq hlt
      rw [← hlength q hq] at hlt
      exact decide_eq_true (hashAt_eq_of_lt_agreementAt (Nat.lt_of_le_of_lt hcarried hlt))
    obtain ⟨hbest, hfind⟩ := bestSeen_filter (Nat.le_of_not_le (hbaseline ▸ hroom)) hlength
      (fun q => agreementAt_le _ _ _ _) hkeep
    simp only [hbest]
    congr 1
    split
    · exact hfind ‹_›
    · rfl

end

/-- The nearer of two positions shares three bytes and the farther one four. -/
theorem longest_eq_bruteForce_farther :
    let w : Window := ⟨#[0, 1, 2, 3, 4, 1, 2, 3, 5, 1, 2, 3, 4], 9, _, by decide, by decide, rfl⟩
    let inserted := ((HashChain.empty w.bits 15).insertAll w.guarded (List.range 9)).insert
      w.guarded 9
    let p : Params := ⟨512, 258, 258, w.reach, w.lookahead 9, 5, 2⟩
    (minMatch ≤ w.lookahead 9 ∧ inserted.1 ≠ noPosition ∧ 9 - inserted.1 ≤ w.reach ∧
        patientLevel ≤ p.level ∧ min maxMatch (w.lookahead 9) ≤ p.niceLength ∧ 2 ≤ p.carried ∧
        2 ^ w.bits ≤ p.budget) ∧
      longest .wordwise w.guarded inserted.2.view 9 inserted.1 p = bruteForce w 9 inserted.1 2 ∧
      bruteForce w 9 inserted.1 2 = ⟨4, some 1⟩ := by
  intro w inserted p
  have hhead : inserted.1 = 5 := by decide +kernel
  have hahead : minMatch ≤ w.lookahead 9 := by decide
  have hnear : 9 - inserted.1 ≤ w.reach := by rw [hhead]; decide
  have hbudget : 2 ^ w.bits ≤ p.budget := by decide
  refine ⟨⟨hahead, by rw [hhead]; decide, hnear, by decide, by decide, by decide, hbudget⟩,
    longest_eq_bruteForce .wordwise hahead (Prod.eta inserted).symm (by rw [hhead]; decide) hnear
      rfl rfl (by decide) (by decide) (by decide) hbudget, ?_⟩
  rw [hhead]
  decide +kernel

end Search

end Backref
