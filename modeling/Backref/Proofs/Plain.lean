/-
# A search answers what a plain look at its candidates answers

The candidates of a search are the head and the links behind it, as long as a
link lies above the floor and before the current position, and no more of them
than the budget. The plain search lists them and measures each one byte by byte.
It looks at them in order and stops behind the first that improves and is nice
enough or, at impatient levels, does not improve; its answer is the best length
among those it looked at, and the nearest candidate that has it. The probes of
the search, its comparators and its early exits change nothing of this.

Key definitions: `Links.candidates`, `Search.bestOf`, `Search.Ends`,
`Search.looks`, `Search.plain`.
Key theorems: `Search.looks_cons`, `Search.Hunt.walk_eq`, `Search.longest_eq_plain`.
-/
import Backref.Proofs.Round

namespace Backref

/-- The link of a position, if it lies above the floor and before the current
position. -/
def Links.link? (l : Links) (floor current pos : Nat) : Option Nat :=
  (l.next? pos).filter fun next => floor < next ∧ next < current

theorem lt_of_link? {l : Links} {floor current pos next : Nat}
    (h : l.link? floor current pos = some next) : next < current := by
  have := (Option.filter_eq_some_iff.mp h).2
  simp only [decide_eq_true_eq] at this
  exact this.2

/-- The positions a chain leads to from `pos`: `pos` itself and the links behind
it, at most so many of them. -/
def Links.candidates (l : Links) (floor current : Nat) : (budget pos : Nat) → List Nat
  | 0, _ => []
  | budget + 1, pos =>
    pos ::
      match l.link? floor current pos with
      | some next => l.candidates floor current budget next
      | none => []

namespace Search

/-! ### The plain search -/

def bestOf (baseline : Nat) (lengths : List Nat) : Nat := lengths.foldl max baseline

/-- A candidate of this length ends the walk: it improves on the best so far and
is nice enough, or it does not improve and the search is impatient. -/
def Ends (nice : Nat) (patient : Bool) (best length : Nat) : Prop :=
  (best < length ∧ nice ≤ length) ∨ (length ≤ best ∧ patient = false)

instance (nice : Nat) (patient : Bool) (best length : Nat) :
    Decidable (Ends nice patient best length) :=
  inferInstanceAs (Decidable (_ ∨ _))

/-- How many candidates are looked at, told by their lengths: up to the first that
ends the walk, or all of them. -/
def looks (nice : Nat) (patient : Bool) (baseline : Nat) (lengths : List Nat) : Nat :=
  match (List.range lengths.length).find? fun i =>
    Ends nice patient (bestOf baseline (lengths.take i)) (lengths.getD i 0) with
  | some i => i + 1
  | none => lengths.length

def bestSeen (nice : Nat) (patient : Bool) (baseline : Nat) (lengths : List Nat) : Nat :=
  bestOf baseline (lengths.take (looks nice patient baseline lengths))

/-- The longest match for the bytes at `current`, by measuring one candidate after
the other. -/
def plain (bytes : Array UInt8) (links : Links) (current head : Nat) (p : Params) : Outcome :=
  let cap := min maxMatch p.lookahead
  let baseline := max 1 p.carried
  if cap ≤ baseline ∨ current ≤ head ∨ p.maxDistance < current - head then
    ⟨min baseline cap, none⟩
  else
    let budget := max 1 (if p.goodLength ≤ baseline then p.chainBudget / 4 else p.chainBudget)
    let candidates := links.candidates (current - p.maxDistance) current budget head
    let length := fun candidate => agreementAt bytes current candidate cap
    let best :=
      bestSeen (min p.niceLength cap) (patientLevel ≤ p.level) baseline (candidates.map length)
    ⟨best, if baseline < best then candidates.find? fun c => length c = best else none⟩

/-! ### Looking at one candidate more -/

theorem bestOf_cons (baseline length : Nat) (lengths : List Nat) :
    bestOf baseline (length :: lengths) = bestOf (max baseline length) lengths := rfl

theorem le_bestOf (baseline : Nat) (lengths : List Nat) : baseline ≤ bestOf baseline lengths := by
  induction lengths generalizing baseline with
  | nil => exact Nat.le_refl _
  | cons l ls ih => exact Nat.le_trans (Nat.le_max_left _ _) (ih _)

/-- The first candidate ends the walk, or the walk goes on with the best of both. -/
theorem looks_cons (nice : Nat) (patient : Bool) (baseline length : Nat) (lengths : List Nat) :
    looks nice patient baseline (length :: lengths) =
      if Ends nice patient baseline length then 1
      else looks nice patient (max baseline length) lengths + 1 := by
  unfold looks
  rw [List.length_cons, List.range_succ_eq_map, List.find?_cons, List.find?_map]
  by_cases h : Ends nice patient baseline length
  · have h0 : Ends nice patient (bestOf baseline ((length :: lengths).take 0))
        ((length :: lengths).getD 0 0) := h
    rw [if_pos h, decide_eq_true h0]
  · have h0 : ¬ Ends nice patient (bestOf baseline ((length :: lengths).take 0))
        ((length :: lengths).getD 0 0) := h
    rw [if_neg h, decide_eq_false h0]
    simp only [Function.comp_def, Nat.succ_eq_add_one, List.take_succ_cons, bestOf_cons,
      List.getD_cons_succ]
    rcases (List.range lengths.length).find? _ with _ | i <;> rfl

theorem bestOf_le {baseline n : Nat} {lengths : List Nat} (hbase : baseline ≤ n)
    (h : ∀ l ∈ lengths, l ≤ n) : bestOf baseline lengths ≤ n := by
  induction lengths generalizing baseline with
  | nil => exact hbase
  | cons l ls ih =>
    exact ih (Nat.max_le.mpr ⟨hbase, h l List.mem_cons_self⟩) fun x hx =>
      h x (List.mem_cons_of_mem _ hx)

theorem bestSeen_le {nice baseline n : Nat} {patient : Bool} {lengths : List Nat}
    (hbase : baseline ≤ n) (h : ∀ l ∈ lengths, l ≤ n) :
    bestSeen nice patient baseline lengths ≤ n :=
  bestOf_le hbase fun l hl => h l (List.mem_of_mem_take hl)

theorem bestSeen_cons (nice : Nat) (patient : Bool) (baseline length : Nat)
    (lengths : List Nat) :
    bestSeen nice patient baseline (length :: lengths) =
      if Ends nice patient baseline length then max baseline length
      else bestSeen nice patient (max baseline length) lengths := by
  unfold bestSeen
  rw [looks_cons]
  split <;> rfl

theorem le_bestSeen (nice : Nat) (patient : Bool) (baseline : Nat) (lengths : List Nat) :
    baseline ≤ bestSeen nice patient baseline lengths :=
  le_bestOf _ _

/-! ### The walk is the plain search -/

namespace Hunt

/-- A candidate that is not before the current position ends the walk. -/
theorem walk_of_le {h : Hunt} (budget best : Nat) (position : Option Nat) {candidate : Nat}
    (hle : h.current ≤ candidate) : h.walk budget best position candidate = (best, position) := by
  cases budget with
  | zero => rfl
  | succ n => rw [walk, if_pos hle]

/-- One step of a walk: the candidate is kept if it improves, and the walk ends or
goes on with the link behind it. -/
theorem walk_succ {h : Hunt} (hcap : 2 ≤ h.cap) (n : Nat) {best candidate : Nat}
    (position : Option Nat) (hbest : 1 ≤ best) (hlt : candidate < h.current) :
    h.walk (n + 1) best position candidate =
      let kept := if best < h.shared candidate then some candidate else position
      if Ends h.nice h.patient best (h.shared candidate) then
        (max best (h.shared candidate), kept)
      else
        match h.links.link? h.floor h.current candidate with
        | some next => h.walk n (max best (h.shared candidate)) kept next
        | none => (max best (h.shared candidate), kept) := by
  rw [walk, if_neg (by omega), improve?_eq hbest hcap, Links.link?]
  by_cases himp : best < h.shared candidate
  · have hmax : max best (h.shared candidate) = h.shared candidate := by omega
    have hnot : ¬ h.shared candidate ≤ best := by omega
    simp only [himp, if_true, hmax, Ends, true_and, hnot, false_and, or_false]
    split
    · rfl
    · rcases h.links.next? candidate with _ | next
      · rfl
      · by_cases hfloor : h.floor < next <;> by_cases hnext : next < h.current <;>
          simp [hfloor, hnext, Option.filter, walk_of_le, Nat.le_of_not_lt]
  · have hmax : max best (h.shared candidate) = best := by omega
    have hle : h.shared candidate ≤ best := by omega
    simp only [himp, if_false, hmax, Ends, hle, true_and, false_and, false_or]
    rcases h.patient
    · rfl
    · rcases h.links.next? candidate with _ | next
      · rfl
      · by_cases hfloor : h.floor < next <;> by_cases hnext : next < h.current <;>
          simp [hfloor, hnext, Option.filter, walk_of_le, Nat.le_of_not_lt]

/-- **A walk finds the best length it looks at and the nearest candidate that has
it.** -/
theorem walk_eq {h : Hunt} (hcap : 2 ≤ h.cap) (budget : Nat) :
    ∀ {best : Nat} (position : Option Nat) {candidate : Nat}, 1 ≤ best → candidate < h.current →
      h.walk budget best position candidate =
        let candidates := h.links.candidates h.floor h.current budget candidate
        let found := bestSeen h.nice h.patient best (candidates.map h.shared)
        (found, if best < found then candidates.find? fun c => h.shared c = found
          else position) := by
  induction budget with
  | zero =>
    intro best position candidate _ _
    simp [walk, Links.candidates, bestSeen, bestOf]
  | succ n ih =>
    intro best position candidate hbest hlt
    rw [walk_succ hcap n position hbest hlt, Links.candidates]
    simp only [List.map_cons, bestSeen_cons, List.find?_cons]
    by_cases hend : Ends h.nice h.patient best (h.shared candidate)
    · simp only [hend, if_true]
      by_cases himp : best < h.shared candidate
      · simp [himp, Nat.max_eq_right (Nat.le_of_lt himp)]
      · simp [himp, Nat.max_eq_left (Nat.le_of_not_lt himp)]
    · simp only [hend, if_false]
      generalize hkept : (if best < h.shared candidate then some candidate else position) = kept
      generalize hrest : (match h.links.link? h.floor h.current candidate with
        | some next => h.links.candidates h.floor h.current n next
        | none => []) = rest
      have hgo : (match h.links.link? h.floor h.current candidate with
          | some next => h.walk n (max best (h.shared candidate)) kept next
          | none => (max best (h.shared candidate), kept)) =
          let found := bestSeen h.nice h.patient (max best (h.shared candidate)) (rest.map h.shared)
          (found, if max best (h.shared candidate) < found then
            rest.find? fun c => h.shared c = found else kept) := by
        subst hrest
        rcases hlink : h.links.link? h.floor h.current candidate with _ | next
        · simp [bestSeen, bestOf]
        · exact ih kept (by omega) (lt_of_link? hlink)
      rw [hgo]
      have hle := le_bestSeen h.nice h.patient (max best (h.shared candidate)) (rest.map h.shared)
      generalize bestSeen h.nice h.patient (max best (h.shared candidate)) (rest.map h.shared) =
        found at hle ⊢
      subst hkept
      -- the candidate is the nearest with the best length exactly if nothing behind it is better
      by_cases hmore : max best (h.shared candidate) < found
      · have hne : h.shared candidate ≠ found := by omega
        simp [hmore, hne, show best < found by omega]
      · obtain rfl : found = max best (h.shared candidate) := by omega
        by_cases himp : best < h.shared candidate
        · simp [himp, Nat.max_eq_right (Nat.le_of_lt himp)]
        · simp [himp, Nat.max_eq_left (Nat.le_of_not_lt himp)]

end Hunt

theorem Params.budget_eq (p : Params) :
    p.budget =
      max 1 (if p.goodLength ≤ max 1 p.carried then p.chainBudget / 4 else p.chainBudget) := by
  rw [Params.budget, Nat.shiftRight_eq_div_pow]
  rfl

/-- A search that has a candidate in reach and room to improve finds the best
length it looks at. -/
theorem longest_eq_bestSeen (comparator : Comparator) (bytes : Array UInt8) (links : Links)
    (current head : Nat) (p : Params) (hcap : p.baseline < p.cap) (hhead : head < current)
    (hdist : current - head ≤ p.maxDistance) :
    longest comparator bytes links current head p =
      let candidates := links.candidates (current - p.maxDistance) current p.budget head
      let length := fun candidate => agreementAt bytes current candidate p.cap
      let best := bestSeen (min p.niceLength p.cap) (patientLevel ≤ p.level) p.baseline
        (candidates.map length)
      ⟨best, if p.baseline < best then candidates.find? fun c => length c = best else none⟩ := by
  have hbase : 1 ≤ p.baseline := Nat.le_max_left _ _
  have hle : ∀ (n : Nat) (candidates : List Nat),
      bestSeen n (patientLevel ≤ p.level) p.baseline
        (candidates.map fun candidate => agreementAt bytes current candidate p.cap) ≤ p.cap := by
    intro n candidates
    refine bestSeen_le (by omega) fun l hl => ?_
    obtain ⟨c, _, rfl⟩ := List.mem_map.mp hl
    exact agreementAt_le _ _ _ _
  rw [longest_eq_walk comparator bytes links current head p hcap hhead hdist]
  simp only
  rw [Hunt.walk_eq (by simp only; omega) _ _ hbase hhead]
  simp only
  rw [Nat.min_eq_left]
  · rfl
  · exact hle _ _

/-- **The optimised search answers what the plain one answers**, on any bytes, any
links and any parameters, with either comparator. -/
theorem longest_eq_plain (comparator : Comparator) (bytes : Array UInt8) (links : Links)
    (current head : Nat) (p : Params) :
    longest comparator bytes links current head p = plain bytes links current head p := by
  by_cases h : p.cap ≤ p.baseline ∨ current ≤ head ∨ p.maxDistance < current - head
  · rw [longest, if_pos h]
    exact (if_pos h).symm
  · rw [longest_eq_bestSeen comparator bytes links current head p (by omega) (by omega) (by omega),
      Params.budget_eq]
    exact (if_neg h).symm

end Search

end Backref
