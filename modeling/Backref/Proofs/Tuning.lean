/-
# A change of its parameters changes the answer of a search in one direction

The parameters choose the candidates of a search, say how many of them it looks at, and clip
the lengths it measures. A patient search that is told of a longer match in the caller's hands
looks at the same candidates, so it answers the same match, or that nothing beats what the
caller holds. A search that is allowed more looks at all it looked at before, so its match is
no shorter. A search with fewer bytes ahead goes the same way until a match fills them, so its
answer is the other one, truncated.

Key definitions: `Search.Params.Cheaper`.
Key theorems: `Search.bestSeen_max`, `Search.bestSeen_mono`, `Search.bestSeen_map_min`,
`Search.longest_withCarried`, `Search.length_longest_mono`, `Search.longest_truncated`.
-/
import Backref.Proofs.Answer

namespace Backref

/-- A lower floor and a larger budget only add candidates behind those there are. -/
theorem Links.candidates_isPrefix (l : Links) {floor floor' current budget budget' : Nat}
    (hfloor : floor' ≤ floor) (hbudget : budget ≤ budget') (pos : Nat) :
    l.candidates floor current budget pos <+: l.candidates floor' current budget' pos := by
  induction budget generalizing budget' pos with
  | zero => exact List.nil_prefix
  | succ n ih =>
    obtain ⟨n', rfl⟩ : ∃ n', budget' = n' + 1 := ⟨budget' - 1, by omega⟩
    rw [candidates, candidates, List.prefix_cons_inj]
    cases hlink : l.link? floor current pos with
    | none => exact List.nil_prefix
    | some next =>
      obtain ⟨hnext, hbounds⟩ := Option.filter_eq_some_iff.mp hlink
      simp only [decide_eq_true_eq] at hbounds
      have hlink' : l.link? floor' current pos = some next := by
        apply Option.filter_eq_some_iff.mpr
        exact ⟨hnext, decide_eq_true ⟨by omega, hbounds.2⟩⟩
      rw [hlink']
      exact ih (by omega) next

namespace Search

/-! ### The best length of some candidates -/

theorem ends_iff_of_lt {nice best length : Nat} (h : best < nice) :
    Ends nice true best length ↔ nice ≤ length := by
  constructor
  · rintro (⟨-, hnice⟩ | ⟨-, hpatient⟩)
    · exact hnice
    · cases hpatient
  · intro hnice
    exact .inl ⟨Nat.lt_of_lt_of_le h hnice, hnice⟩

/-- **What is held only lifts what a patient search sees**, as long as it is not nice itself. -/
theorem bestSeen_max {nice low high : Nat} (hle : low ≤ high) (hnice : high < nice)
    (lengths : List Nat) :
    bestSeen nice true high lengths = max high (bestSeen nice true low lengths) := by
  induction lengths generalizing low high with
  | nil => exact (Nat.max_eq_left hle).symm
  | cons l ls ih =>
    have hlow : low < nice := Nat.lt_of_le_of_lt hle hnice
    rw [bestSeen_cons, bestSeen_cons]
    simp only [ends_iff_of_lt hnice, ends_iff_of_lt hlow]
    by_cases hl : nice ≤ l
    · rw [if_pos hl, if_pos hl]
      omega
    · have hlow' : max low l ≤ max high l := by omega
      have hhigh' : max high l < nice := by omega
      have hseen : max low l ≤ bestSeen nice true (max low l) ls := le_bestSeen _ _ _ _
      rw [if_neg hl, if_neg hl, ih hlow' hhigh']
      omega

theorem Ends.mono {nice nice' best length : Nat} {patient patient' : Bool}
    (h : Ends nice' patient' best length) (hnice : nice ≤ nice')
    (hpatient : patient = true → patient' = true) : Ends nice patient best length := by
  obtain ⟨himp, hlong⟩ | ⟨hshort, hfalse⟩ := h
  · exact .inl ⟨himp, Nat.le_trans hnice hlong⟩
  · refine .inr ⟨hshort, ?_⟩
    cases patient with
    | false => rfl
    | true => exact absurd (hpatient rfl) (by simp [hfalse])

/-- **A search that wants more and has more to look at sees no less.** -/
theorem bestSeen_mono {nice nice' : Nat} {patient patient' : Bool} {lengths lengths' : List Nat}
    (hmore : lengths <+: lengths') (hnice : nice ≤ nice')
    (hpatient : patient = true → patient' = true) (baseline : Nat) :
    bestSeen nice patient baseline lengths ≤ bestSeen nice' patient' baseline lengths' := by
  induction lengths generalizing baseline lengths' with
  | nil => exact le_bestSeen nice' patient' baseline lengths'
  | cons l ls ih =>
    obtain ⟨rest, rfl⟩ := hmore
    rw [List.cons_append, bestSeen_cons, bestSeen_cons]
    by_cases hend' : Ends nice' patient' baseline l
    · rw [if_pos hend', if_pos (hend'.mono hnice hpatient)]
    · rw [if_neg hend']
      by_cases hend : Ends nice patient baseline l
      · rw [if_pos hend]
        exact le_bestSeen nice' patient' (max baseline l) (ls ++ rest)
      · rw [if_neg hend]
        exact ih (List.prefix_append ls rest) (max baseline l)

/-- **Clipping the lengths clips what is seen**: the first length that is clipped improves and
is nice, so the walk ends there. -/
theorem bestSeen_map_min {cap nice baseline : Nat} {patient : Bool} (h : baseline < cap)
    (lengths : List Nat) :
    bestSeen (min cap nice) patient baseline (lengths.map (min cap)) =
      min cap (bestSeen nice patient baseline lengths) := by
  induction lengths generalizing baseline with
  | nil => exact (Nat.min_eq_right (Nat.le_of_lt h)).symm
  | cons l ls ih =>
    rw [List.map_cons, bestSeen_cons, bestSeen_cons]
    by_cases hl : l < cap
    · have hends : Ends (min cap nice) patient baseline l ↔ Ends nice patient baseline l := by
        unfold Ends
        rw [show min cap nice ≤ l ↔ nice ≤ l by omega]
      rw [Nat.min_eq_right (Nat.le_of_lt hl), ih (by omega)]
      simp only [hends]
      split
      · omega
      · rfl
    · have hmin : min cap l = cap := by omega
      have hend : Ends (min cap nice) patient baseline cap := .inl ⟨h, Nat.min_le_left _ _⟩
      have hseen : max baseline l ≤ bestSeen nice patient (max baseline l) ls := le_bestSeen _ _ _ _
      rw [hmin, if_pos hend]
      split <;> omega

variable {comparator : Comparator} {bytes : Array UInt8} {links : Links} {current head : Nat}
  {p q : Params}

/-! ### A longer match in the caller's hands -/

theorem Params.baseline_withCarried (n : Nat) : (p.withCarried n).baseline = max 1 n := rfl

/-- What the caller holds changes the candidates only if it is good. -/
theorem candidates_withCarried {m n : Nat}
    (hgood : p.goodLength ≤ max 1 m ↔ p.goodLength ≤ max 1 n) :
    candidates links current head (p.withCarried n) =
      candidates links current head (p.withCarried m) := by
  have hbudget : (p.withCarried n).budget = (p.withCarried m).budget := by
    simp only [Params.budget_eq, Params.withCarried, hgood]
  rw [candidates, candidates, hbudget]
  rfl

theorem best_withCarried_of_patient (hlevel : patientLevel ≤ p.level) (n : Nat) :
    best bytes links current head (p.withCarried n) =
      bestSeen (min p.niceLength p.cap) true (max 1 n)
        ((candidates links current head (p.withCarried n)).map fun c =>
          agreementAt bytes current c p.cap) := by
  rw [← decide_eq_true hlevel]
  rfl

/-- What the caller holds lifts what a patient search sees. -/
theorem best_withCarried (hlevel : patientLevel ≤ p.level) {m n : Nat} (hle : m ≤ n)
    (hnice : n < p.niceLength) (hgood : p.goodLength ≤ max 1 m ↔ p.goodLength ≤ max 1 n)
    (hroom : max 1 n < p.cap) :
    best bytes links current head (p.withCarried n) =
      max (max 1 n) (best bytes links current head (p.withCarried m)) := by
  rcases Nat.eq_zero_or_pos n with rfl | hpos
  · -- one byte may be nice already, but then neither search holds anything
    obtain rfl : m = 0 := Nat.le_zero.mp hle
    exact (Nat.max_eq_right baseline_le_best).symm
  · rw [best_withCarried_of_patient hlevel, best_withCarried_of_patient hlevel,
      candidates_withCarried hgood]
    apply bestSeen_max
    · omega
    · omega

/-- A search that cannot improve on what its caller holds finds nothing longer, whatever less
the caller holds. -/
theorem length_le_of_not_opens {m n : Nat} (hle : m ≤ n)
    (h : ¬ (p.withCarried n).Opens current head) :
    (longest comparator bytes links current head (p.withCarried m)).length ≤ max 1 n := by
  by_cases hroom : p.cap ≤ max 1 n
  · exact Nat.le_trans (longest_length_le comparator bytes links current head _) hroom
  · -- the head is out of reach, for either search
    have hout : ¬ (p.withCarried m).Opens current head := by
      rintro ⟨-, hreach⟩
      exact h ⟨Nat.lt_of_not_le hroom, hreach⟩
    rw [longest_of_not_opens hout, Params.baseline_withCarried]
    simp only
    omega

/-- **What the caller holds only filters the answer** of a patient search, as long as it is not
nice and both or neither are good: a match that beats it is found with or without it. -/
theorem longest_withCarried (comparator : Comparator) (bytes : Array UInt8) (links : Links)
    (current head : Nat) {p : Params} (hlevel : patientLevel ≤ p.level) {m n : Nat} (hle : m ≤ n)
    (hnice : n < p.niceLength) (hgood : p.goodLength ≤ max 1 m ↔ p.goodLength ≤ max 1 n) :
    let found := longest comparator bytes links current head (p.withCarried m)
    longest comparator bytes links current head (p.withCarried n) =
      if max 1 n < found.length then found
      else ⟨min (max 1 n) (min p.lookahead maxMatch), none⟩ := by
  intro found
  have hcap : min p.lookahead maxMatch = p.cap := Nat.min_comm _ _
  by_cases hopens : (p.withCarried n).Opens current head
  · have hroom : max 1 n < p.cap := hopens.1
    have hlow : (p.withCarried m).baseline ≤ max 1 n := by
      rw [Params.baseline_withCarried]
      omega
    have hfound : found = _ := longest_of_opens ⟨Nat.lt_of_le_of_lt hlow hroom, hopens.2⟩
    rw [longest_of_opens hopens, hfound, candidates_withCarried hgood,
      best_withCarried hlevel hle hnice hgood hroom, Params.baseline_withCarried, hcap]
    dsimp only
    by_cases hbeats : max 1 n < best bytes links current head (p.withCarried m)
    · rw [Nat.max_eq_right (Nat.le_of_lt hbeats), if_pos hbeats, if_pos hbeats,
        if_pos (Nat.lt_of_le_of_lt hlow hbeats)]
      rfl
    · rw [Nat.max_eq_left (Nat.le_of_not_lt hbeats), if_neg (Nat.lt_irrefl _), if_neg hbeats,
        Nat.min_eq_left (Nat.le_of_lt hroom)]
  · have hshort : found.length ≤ max 1 n := length_le_of_not_opens hle hopens
    rw [longest_of_not_opens hopens, if_neg (Nat.not_lt.mpr hshort), hcap]
    rfl

/-- Both searches find the run of five bytes, one of them by way of runs of two and three. -/
theorem longest_withCarried_farther :
    let bytes : Array UInt8 := #[9, 1, 2, 3, 4, 5, 8, 1, 2, 3, 7, 1, 2, 8, 1, 2, 3, 4, 5, 6]
    let links : Links := ⟨#[0, 0, 0, 0, 0, 0, 0, 1, 0, 0, 0, 7, 0, 0, 0, 0], 15⟩
    let p : Params := ⟨8, 8, 32, 512, 6, 5, 0⟩
    let found := longest .wordwise bytes links 14 11 (p.withCarried 0)
    (patientLevel ≤ p.level ∧ 0 ≤ 3 ∧ 3 < p.niceLength ∧
        (p.goodLength ≤ max 1 0 ↔ p.goodLength ≤ max 1 3)) ∧
      longest .wordwise bytes links 14 11 (p.withCarried 3) =
        (if max 1 3 < found.length then found
        else ⟨min (max 1 3) (min p.lookahead maxMatch), none⟩) ∧
      found = ⟨5, some 1⟩ := by
  intro bytes links p found
  have hlevel : patientLevel ≤ p.level := by decide
  have hnice : 3 < p.niceLength := by decide
  have hgood : p.goodLength ≤ max 1 0 ↔ p.goodLength ≤ max 1 3 := by decide
  refine ⟨⟨hlevel, Nat.zero_le 3, hnice, hgood⟩, ?_, by decide +kernel⟩
  exact longest_withCarried .wordwise bytes links 14 11 hlevel (Nat.zero_le 3) hnice hgood

/-- With a nice length of three bytes, a caller who holds three sees past the run that ends the
walk of one who holds nothing. -/
example :
    let bytes : Array UInt8 := #[9, 1, 2, 3, 4, 5, 8, 1, 2, 3, 7, 1, 2, 8, 1, 2, 3, 4, 5, 6]
    let links : Links := ⟨#[0, 0, 0, 0, 0, 0, 0, 1, 0, 0, 0, 7, 0, 0, 0, 0], 15⟩
    let p : Params := ⟨8, 8, 3, 512, 6, 5, 0⟩
    longest .wordwise bytes links 14 11 (p.withCarried 0) = ⟨3, some 7⟩ ∧
      longest .wordwise bytes links 14 11 (p.withCarried 3) = ⟨5, some 1⟩ := by
  decide +kernel

/-! ### More effort -/

/-- The first search is allowed at most what the second is: no more candidates, no farther back,
and no more reasons to go on. -/
structure Params.Cheaper (p q : Params) : Prop where
  chainBudget : p.chainBudget ≤ q.chainBudget
  goodLength : p.goodLength ≤ q.goodLength
  niceLength : p.niceLength ≤ q.niceLength
  maxDistance : p.maxDistance ≤ q.maxDistance
  level : p.level ≤ q.level
  lookahead : p.lookahead = q.lookahead
  carried : p.carried = q.carried

namespace Params.Cheaper

theorem cap_eq (h : p.Cheaper q) : p.cap = q.cap := by rw [cap, cap, h.lookahead]

theorem baseline_eq (h : p.Cheaper q) : p.baseline = q.baseline := by
  rw [baseline, baseline, h.carried]

/-- A lower bar for a good match quarters the budget earlier. -/
theorem budget_le (h : p.Cheaper q) : p.budget ≤ q.budget := by
  have hchain : p.chainBudget ≤ q.chainBudget := h.chainBudget
  have hgood : p.goodLength ≤ q.goodLength := h.goodLength
  rw [budget_eq, budget_eq, h.carried]
  split <;> split <;> omega

theorem opens (h : p.Cheaper q) (hp : p.Opens current head) : q.Opens current head := by
  obtain ⟨hroom, hhead, hdist⟩ := hp
  refine ⟨?_, hhead, Nat.le_trans hdist h.maxDistance⟩
  rwa [← h.baseline_eq, ← h.cap_eq]

theorem candidates_isPrefix (h : p.Cheaper q) :
    candidates links current head p <+: candidates links current head q :=
  links.candidates_isPrefix (Nat.sub_le_sub_left h.maxDistance current) h.budget_le head

theorem best_le (h : p.Cheaper q) :
    best bytes links current head p ≤ best bytes links current head q := by
  have hnice : min p.niceLength q.cap ≤ min q.niceLength q.cap := by
    have := h.niceLength
    omega
  have hpatient (hp : decide (patientLevel ≤ p.level) = true) :
      decide (patientLevel ≤ q.level) = true :=
    decide_eq_true (Nat.le_trans (of_decide_eq_true hp) h.level)
  rw [best, best, h.cap_eq, h.baseline_eq]
  exact bestSeen_mono (h.candidates_isPrefix.map _) hnice hpatient q.baseline

end Params.Cheaper

/-- **More effort never shortens the match.** -/
theorem length_longest_mono (comparator : Comparator) (bytes : Array UInt8) (links : Links)
    (current head : Nat) {p q : Params} (h : p.Cheaper q) :
    (longest comparator bytes links current head p).length ≤
      (longest comparator bytes links current head q).length := by
  by_cases hopens : p.Opens current head
  · rw [longest_of_opens hopens, longest_of_opens (h.opens hopens)]
    exact h.best_le
  · rw [longest_of_not_opens hopens]
    calc min p.baseline p.cap = min q.baseline q.cap := by rw [h.baseline_eq, h.cap_eq]
      _ ≤ (longest comparator bytes links current head q).length := min_baseline_cap_le_length

/-- A quartered budget ends the first search before the run of five bytes. -/
theorem length_longest_mono_quartered :
    let bytes : Array UInt8 := #[9, 1, 2, 3, 4, 5, 8, 1, 2, 3, 7, 1, 2, 8, 1, 2, 3, 4, 5, 6]
    let links : Links := ⟨#[0, 0, 0, 0, 0, 0, 0, 1, 0, 0, 0, 7, 0, 0, 0, 0], 15⟩
    let p : Params := ⟨8, 1, 4, 8, 6, 5, 0⟩
    let q : Params := ⟨8, 4, 258, 512, 6, 9, 0⟩
    p.Cheaper q ∧
      (longest .bytewise bytes links 14 11 p).length ≤
        (longest .bytewise bytes links 14 11 q).length ∧
      longest .bytewise bytes links 14 11 p = ⟨3, some 7⟩ ∧
      longest .bytewise bytes links 14 11 q = ⟨5, some 1⟩ := by
  intro bytes links p q
  have h : p.Cheaper q :=
    { chainBudget := by decide
      goodLength := by decide
      niceLength := by decide
      maxDistance := by decide
      level := by decide
      lookahead := rfl
      carried := rfl }
  exact ⟨h, length_longest_mono .bytewise bytes links 14 11 h, by decide +kernel,
    by decide +kernel⟩

/-! ### Fewer bytes ahead -/

theorem Params.cap_withLookahead (n : Nat) : (p.withLookahead n).cap = min maxMatch n := rfl

theorem Params.Opens.withLookahead_of_le {m n : Nat} (hle : m ≤ n)
    (h : (p.withLookahead m).Opens current head) : (p.withLookahead n).Opens current head := by
  obtain ⟨hroom, hreach⟩ := h
  rw [cap_withLookahead] at hroom
  refine ⟨Nat.lt_of_lt_of_le hroom ?_, hreach⟩
  rw [cap_withLookahead]
  omega

/-- A tighter cap only clips the lengths, and with them what is seen. -/
theorem best_withLookahead {m n : Nat} (hle : m ≤ n) (hroom : p.baseline < min maxMatch m) :
    best bytes links current head (p.withLookahead m) =
      min (min maxMatch m) (best bytes links current head (p.withLookahead n)) := by
  have hnice : min p.niceLength (min maxMatch m) =
      min (min maxMatch m) (min p.niceLength (min maxMatch n)) := by
    omega
  have hlengths : ((candidates links current head p).map fun c =>
        agreementAt bytes current c (min maxMatch m)) =
      ((candidates links current head p).map fun c =>
        agreementAt bytes current c (min maxMatch n)).map (min (min maxMatch m)) := by
    rw [List.map_map]
    apply List.map_congr_left
    intro c _
    rw [Function.comp_apply, ← agreementAt_min]
    congr 1
    omega
  show bestSeen (min p.niceLength (min maxMatch m)) (patientLevel ≤ p.level) p.baseline
    ((candidates links current head p).map fun c =>
      agreementAt bytes current c (min maxMatch m)) = _
  rw [hnice, hlengths, bestSeen_map_min hroom]
  rfl

/-- A length below the cap is the length of the same candidates under a tighter and a wider one. -/
theorem find?_withLookahead {m n length : Nat} (hle : m ≤ n) (hlength : length < min maxMatch m)
    (positions : List Nat) :
    (positions.find? fun c => agreementAt bytes current c (min maxMatch m) = length) =
      positions.find? fun c => agreementAt bytes current c (min maxMatch n) = length := by
  apply List.find?_congr
  intro c _
  have hcap : min maxMatch m = min (min maxMatch m) (min maxMatch n) := by omega
  rw [hcap, agreementAt_min]
  apply decide_eq_decide.mpr
  omega

/-- **Fewer bytes ahead only truncate the answer**: the length is that of the search with more
ahead, cut to the bytes there are, and a match that was shorter than these stays what it is. -/
theorem longest_truncated (comparator : Comparator) (bytes : Array UInt8) (links : Links)
    (current head : Nat) (p : Params) {m n : Nat} (hle : m ≤ n) :
    let short := longest comparator bytes links current head (p.withLookahead m)
    let long := longest comparator bytes links current head (p.withLookahead n)
    short.length = min (min m maxMatch) long.length ∧
      (long.length < min m maxMatch → short = long) := by
  intro short long
  rw [Nat.min_comm m maxMatch]
  by_cases hopens : (p.withLookahead m).Opens current head
  · have hroom : p.baseline < min maxMatch m := hopens.1
    have hshort : short = _ := longest_of_opens hopens
    have hlong : long = _ := longest_of_opens (hopens.withLookahead_of_le hle)
    rw [hshort, hlong, best_withLookahead hle hroom]
    refine ⟨rfl, fun hfits => ?_⟩
    dsimp only at hfits
    rw [Nat.min_eq_right (Nat.le_of_lt hfits), Params.cap_withLookahead,
      find?_withLookahead hle hfits]
    rfl
  · have hshort : short = ⟨min p.baseline (min maxMatch m), none⟩ := longest_of_not_opens hopens
    by_cases hfull : min maxMatch m ≤ p.baseline
    · -- what the caller holds fills the bytes ahead
      have hlong : min maxMatch m ≤ long.length :=
        calc min maxMatch m ≤ min p.baseline (min maxMatch n) := by omega
          _ = min (p.withLookahead n).baseline (p.withLookahead n).cap := rfl
          _ ≤ long.length := min_baseline_cap_le_length
      rw [hshort]
      exact ⟨by dsimp only; omega, fun hfits => absurd hlong (Nat.not_le.mpr hfits)⟩
    · have hout : ¬ (p.withLookahead n).Opens current head := fun ⟨_, hreach⟩ =>
        hopens ⟨Nat.lt_of_not_le hfull, hreach⟩
      have hlong : long = ⟨min p.baseline (min maxMatch n), none⟩ := longest_of_not_opens hout
      have hheld : min p.baseline (min maxMatch n) = min p.baseline (min maxMatch m) := by omega
      rw [hshort, hlong, hheld]
      exact ⟨by dsimp only; omega, fun _ => rfl⟩

/-- Three bytes ahead cut the run of five and end the walk at a nearer one; six do not cut it, and
more than six change nothing. -/
theorem longest_truncated_twice :
    let bytes : Array UInt8 := #[9, 1, 2, 3, 4, 5, 8, 1, 2, 3, 7, 1, 2, 8, 1, 2, 3, 4, 5, 6]
    let links : Links := ⟨#[0, 0, 0, 0, 0, 0, 0, 1, 0, 0, 0, 7, 0, 0, 0, 0], 15⟩
    let p : Params := ⟨8, 8, 258, 512, 0, 5, 0⟩
    let search := fun n => longest .wordwise bytes links 14 11 (p.withLookahead n)
    (3 ≤ 6 ∧ 6 ≤ 300) ∧ (search 3).length = min (min 3 maxMatch) (search 6).length ∧
      ((search 300).length < min 6 maxMatch ∧ search 6 = search 300) ∧
      search 3 = ⟨3, some 7⟩ ∧ search 300 = ⟨5, some 1⟩ := by
  intro bytes links p search
  have hfound : search 300 = ⟨5, some 1⟩ := by decide +kernel
  have hfits : (search 300).length < min 6 maxMatch := by rw [hfound]; decide
  obtain ⟨hlength, -⟩ := longest_truncated .wordwise bytes links 14 11 p (by decide : 3 ≤ 6)
  obtain ⟨-, hsame⟩ := longest_truncated .wordwise bytes links 14 11 p (by decide : 6 ≤ 300)
  exact ⟨by decide, hlength, ⟨hfits, hsame hfits⟩, by decide +kernel, hfound⟩

end Search

end Backref
