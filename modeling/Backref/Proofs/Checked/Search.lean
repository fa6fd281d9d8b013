/-
# A search never faults, whatever it is given

The checked search makes every check that its bytes, offsets and counts call for: the
probes start at the best length less one, the measure leaves out two bytes of the
greatest length, the comparators read bytes that have to be there and locate the first
difference of words that have to differ, and each candidate takes one of the budget.
It answers what the plain search answers, for any bytes, any links and any
parameters. It has the whole budget, so it does not rely on the end of a round either.

Key definitions: `Checked.agreement`, `Checked.improve`, `Checked.walk`,
`Checked.longest`.
Key theorems: `Checked.wordsFrom_eq`, `Checked.agreement_eq`, `Checked.walk_eq`,
`Checked.longest_eq`.
-/
import Backref.Proofs.Checked.Basic
import Backref.Proofs.Round

namespace Backref

theorem zeroBytes_le (word : UInt64) (n : Nat) : zeroBytes word n ≤ n := by
  induction n generalizing word with
  | zero => exact Nat.le_refl 0
  | succ n ih =>
    rw [zeroBytes]
    split
    · have := ih (word >>> 8)
      omega
    · exact Nat.zero_le _

namespace Checked

/-! ### Measuring -/

def byte (v : View) (k : Nat) : Checked UInt8 :=
  match v.get? k with
  | some x => .ok x
  | none => .error (.outOfBounds k v.size)

/-- The leading bytes two words share, which have to differ. -/
def commonBytes (difference : UInt64) : Checked Nat :=
  match commonBytes? difference with
  | some n => .ok n
  | none => .error .equalWords

def bytesFrom (a b : View) (k : Nat) : (left : Nat) → Checked Nat
  | 0 => .ok k
  | left + 1 => do
    let x ← byte a k
    let y ← byte b k
    if x = y then do
      atMost maxOffset (k + 1)
      bytesFrom a b (k + 1) left
    else .ok k

def wordsFrom (a b : View) (limit k : Nat) : Checked Nat :=
  if k < limit then
    match a.word? k, b.word? k with
    | some x, some y =>
      if x ^^^ y = 0 then do
        atMost maxOffset (k + wordSize)
        wordsFrom a b limit (k + wordSize)
      else do
        let n ← commonBytes (x ^^^ y)
        let stop ← add maxOffset k n
        .ok (min stop limit)
    | _, _ => bytesFrom a b k (limit - k)
  else .ok limit
termination_by limit - k
decreasing_by simp only [wordSize]; omega

/-- The agreement of two views, as a comparator measures it. Byte by byte it only
counts. -/
def agreement : Comparator → View → View → Nat → Checked Nat
  | .bytewise, a, b, limit => .ok (Bytewise.agreement a b limit)
  | .wordwise, a, b, limit => wordsFrom a b (min limit (min a.size b.size)) 0

theorem byte_eq_ok {v : View} {k : Nat} (h : k < v.size) :
    ∃ x, v.get? k = some x ∧ byte v k = .ok x := by
  have hsome : v.get? k ≠ none := fun hnone => absurd ((v.get?_eq_none_iff k).mp hnone) (by omega)
  obtain ⟨x, hx⟩ := Option.ne_none_iff_exists'.mp hsome
  exact ⟨x, hx, by rw [byte, hx]⟩

theorem bytesFrom_eq {a b : View} {k left : Nat} (ha : k + left ≤ a.size)
    (hb : k + left ≤ b.size) (hmax : k + left ≤ maxOffset) :
    bytesFrom a b k left = .ok (Bytewise.agreementFrom a b k left) := by
  induction left generalizing k with
  | zero => rfl
  | succ left ih =>
    obtain ⟨x, hx, hxok⟩ := byte_eq_ok (v := a) (k := k) (by omega)
    obtain ⟨y, hy, hyok⟩ := byte_eq_ok (v := b) (k := k) (by omega)
    have hnext : k + 1 ≤ maxOffset := by omega
    rw [bytesFrom, Bytewise.agreementFrom, hx, hy, hxok, hyok, ok_bind, ok_bind]
    simp only
    split
    · rw [atMost_eq_ok hnext, ok_bind]
      exact ih (by omega) (by omega) (by omega)
    · rfl

/-- Measuring by words never faults: a byte read on its own lies within both views,
and words are told apart only if they differ. -/
theorem wordsFrom_eq {a b : View} {limit k : Nat} (ha : limit ≤ a.size) (hb : limit ≤ b.size)
    (hmax : limit + wordSize ≤ maxOffset) :
    wordsFrom a b limit k = .ok (Wordwise.agreementFrom a b limit k) := by
  fun_induction Wordwise.agreementFrom a b limit k with
  | case1 k hlt x y hx hy hnone ih =>
    have hsame : x ^^^ y = 0 := commonBytes?_eq_none_iff.mp hnone
    rw [wordsFrom, if_pos hlt, hx, hy]
    simp only
    rw [if_pos hsame, atMost_eq_ok (by omega), ok_bind, ih]
  | case2 k hlt x y hx hy n hsome =>
    obtain ⟨hdiffer, rfl⟩ := commonBytes?_eq_some_iff.mp hsome
    have hcommon : zeroBytes (x ^^^ y) 8 ≤ wordSize := zeroBytes_le _ _
    rw [wordsFrom, if_pos hlt, hx, hy]
    simp only
    rw [if_neg hdiffer, commonBytes, hsome, ok_bind, add_eq_ok (by omega), ok_bind]
  | case3 k hlt hnone =>
    rw [wordsFrom, if_pos hlt]
    split
    · rename_i x y hx hy
      exact absurd hy (hnone x y hx)
    · exact bytesFrom_eq (by omega) (by omega) (by omega)
  | case4 k hge => rw [wordsFrom, if_neg hge]

theorem agreement_eq (c : Comparator) (a b : View) {limit : Nat}
    (hmax : limit + wordSize ≤ maxOffset) :
    agreement c a b limit = .ok (c.agreement a b limit) := by
  cases c with
  | bytewise => rfl
  | wordwise => exact wordsFrom_eq (by omega) (by omega) (by omega)

/-! ### One candidate -/

def measure (h : Search.Hunt) (candidate : Nat) : Checked Nat := do
  let rest ← sub h.cap 2
  let shared ← agreement h.comparator ⟨h.bytes, h.current + 2⟩ ⟨h.bytes, candidate + 2⟩ rest
  add maxOffset 2 shared

def improve (h : Search.Hunt) (best candidate : Nat) : Checked (Option Nat) := do
  let last ← sub best 1
  let scan : View := ⟨h.bytes, h.current⟩
  let other : View := ⟨h.bytes, candidate⟩
  if Search.Hunt.samePair other scan last && Search.Hunt.samePair other scan 0 then do
    let length ← measure h candidate
    .ok (if best < length then some length else none)
  else .ok none

theorem measure_eq {h : Search.Hunt} (hcap : 2 ≤ h.cap) (hmax : h.cap ≤ maxMatch)
    (candidate : Nat) : measure h candidate = .ok (h.measure candidate) := by
  have hshort : h.cap - 2 + 8 ≤ maxOffset := by
    simp only [maxMatch, maxOffset] at *
    omega
  have hle : h.comparator.agreement ⟨h.bytes, h.current + 2⟩ ⟨h.bytes, candidate + 2⟩ (h.cap - 2)
      ≤ h.cap - 2 := by
    rw [Comparator.agreement_eq]
    exact agreement_le _ _ _
  rw [measure, sub_eq_ok hcap, ok_bind, agreement_eq _ _ _ hshort, ok_bind,
    add_eq_ok (by omega)]
  rfl

theorem improve_eq {h : Search.Hunt} {best candidate : Nat} (hbest : 1 ≤ best)
    (hcap : 2 ≤ h.cap) (hmax : h.cap ≤ maxMatch) :
    improve h best candidate = .ok (h.improve? best candidate) := by
  rw [improve, sub_eq_ok hbest, ok_bind, Search.Hunt.improve?]
  simp only
  split
  · rw [measure_eq hcap hmax, ok_bind]
  · rfl

/-! ### The walk -/

/-- The best length and position after a candidate of which `longer` is known. -/
def seen (longer : Option Nat) (best : Nat) (position : Option Nat) (candidate : Nat) :
    Nat × Option Nat :=
  match longer with
  | some length => (length, some candidate)
  | none => (best, position)

/-- The walk goes on after a candidate: it improves and is not nice yet, or the walk is
patient. -/
def goesOn (h : Search.Hunt) : (longer : Option Nat) → Bool
  | some length => length < h.nice
  | none => h.patient

def linked (h : Search.Hunt) (candidate : Nat) : Option Nat :=
  (h.links.next? candidate).filter (h.floor < ·)

/-- The best length and position after looking at a candidate and at those that its
link leads to. Each takes one of the budget, which must not be used up. -/
def walk (h : Search.Hunt) : (budget best : Nat) → (position : Option Nat) →
    (candidate : Nat) → Checked (Nat × Option Nat)
  | 0, _, _, _ => .error .noBudget
  | budget + 1, best, position, candidate =>
    if h.current ≤ candidate then .ok (best, position)
    else do
      let longer ← improve h best candidate
      let found := seen longer best position candidate
      if goesOn h longer && budget ≠ 0 then
        match linked h candidate with
        | some next => walk h budget found.1 found.2 next
        | none => .ok found
      else .ok found

/-- One candidate of the plain walk, in the same terms. -/
theorem walk_of_lt {h : Search.Hunt} {candidate : Nat} (hlt : candidate < h.current)
    (budget best : Nat) (position : Option Nat) :
    h.walk (budget + 1) best position candidate =
      if goesOn h (h.improve? best candidate) then
        match linked h candidate with
        | some next =>
          h.walk budget (seen (h.improve? best candidate) best position candidate).1
            (seen (h.improve? best candidate) best position candidate).2 next
        | none => seen (h.improve? best candidate) best position candidate
      else seen (h.improve? best candidate) best position candidate := by
  rw [Search.Hunt.walk, if_neg (Nat.not_le.mpr hlt), linked]
  rcases hnext : h.links.next? candidate with _ | next
  · rcases h.improve? best candidate with _ | length
    · rcases h.patient <;> simp [seen]
    · simp [seen]
  · by_cases hfloor : h.floor < next
    · rcases h.improve? best candidate with _ | length
      · simp [goesOn, seen, hfloor, Option.filter]
      · by_cases hnice : length < h.nice
        · simp [goesOn, seen, hfloor, Option.filter, hnice, Nat.not_le.mpr hnice]
        · simp [goesOn, seen, hnice, Nat.le_of_not_lt hnice]
    · rcases h.improve? best candidate with _ | length
      · rcases h.patient <;> simp [seen, hfloor, Option.filter]
      · simp [seen, hfloor, Option.filter]

theorem lt_of_improve? {h : Search.Hunt} {best candidate length : Nat}
    (hlonger : h.improve? best candidate = some length) : best < length := by
  unfold Search.Hunt.improve? at hlonger
  simp only at hlonger
  split at hlonger
  · split at hlonger
    · rename_i hlt
      rwa [Option.some.inj hlonger] at hlt
    · cases hlonger
  · cases hlonger

theorem one_le_seen {h : Search.Hunt} {best : Nat} (hbest : 1 ≤ best) (position : Option Nat)
    (candidate : Nat) : 1 ≤ (seen (h.improve? best candidate) best position candidate).1 := by
  rcases hlonger : h.improve? best candidate with _ | length
  · exact hbest
  · exact Nat.le_trans hbest (Nat.le_of_lt (lt_of_improve? hlonger))

/-- A walk never faults: the best length is at least one, and a walk that has used up
its budget goes no further. -/
theorem walk_eq {h : Search.Hunt} (hcap : 2 ≤ h.cap) (hmax : h.cap ≤ maxMatch) (budget : Nat) :
    ∀ {best : Nat} (position : Option Nat) (candidate : Nat), 1 ≤ best →
      walk h (budget + 1) best position candidate =
        .ok (h.walk (budget + 1) best position candidate) := by
  induction budget with
  | zero =>
    intro best position candidate hbest
    rcases Nat.lt_or_ge candidate h.current with hlt | hge
    · rw [walk, if_neg (Nat.not_le.mpr hlt), improve_eq hbest hcap hmax, ok_bind, walk_of_lt hlt]
      rcases goesOn h (h.improve? best candidate)
      · rfl
      · rcases linked h candidate with _ | next <;> rfl
    · rw [walk, Search.Hunt.walk, if_pos hge, if_pos hge]
  | succ n ih =>
    intro best position candidate hbest
    rcases Nat.lt_or_ge candidate h.current with hlt | hge
    · rw [walk, if_neg (Nat.not_le.mpr hlt), improve_eq hbest hcap hmax, ok_bind, walk_of_lt hlt]
      rcases goesOn h (h.improve? best candidate)
      · rfl
      · rcases linked h candidate with _ | next
        · rfl
        · exact ih _ next (one_le_seen hbest position candidate)
    · rw [walk, Search.Hunt.walk, if_pos hge, if_pos hge]

/-! ### The search -/

def hunt (comparator : Comparator) (bytes : Array UInt8) (links : Links) (current : Nat)
    (p : Search.Params) : Search.Hunt where
  comparator := comparator
  bytes := bytes
  links := links
  current := current
  cap := p.cap
  nice := min p.niceLength p.cap
  floor := current - p.maxDistance
  patient := patientLevel ≤ p.level

def longest (comparator : Comparator) (bytes : Array UInt8) (links : Links)
    (current head : Nat) (p : Search.Params) : Checked Search.Outcome :=
  let unchanged : Search.Outcome := .unchanged (min p.baseline p.cap)
  if p.cap ≤ p.baseline ∨ current ≤ head then .ok unchanged
  else do
    let distance ← sub current head
    if p.maxDistance < distance then .ok unchanged
    else do
      let found ← walk (hunt comparator bytes links current p) p.budget p.baseline none head
      .ok ⟨min found.1 p.cap, found.2⟩

/-- **A search never faults**, and the checked search answers what the plain one
does. -/
theorem longest_eq (comparator : Comparator) (bytes : Array UInt8) (links : Links)
    (current head : Nat) (p : Search.Params) :
    longest comparator bytes links current head p =
      .ok (Search.longest comparator bytes links current head p) := by
  have hbaseline : 1 ≤ p.baseline := Nat.le_max_left _ _
  have hmax : p.cap ≤ maxMatch := Nat.min_le_left _ _
  rw [longest]
  by_cases hstop : p.cap ≤ p.baseline ∨ current ≤ head
  · have hstop' : p.cap ≤ p.baseline ∨ current ≤ head ∨ p.maxDistance < current - head := by
      omega
    rw [if_pos hstop, Search.longest, if_pos hstop']
  · rw [if_neg hstop, sub_eq_ok (by omega), ok_bind]
    by_cases hfar : p.maxDistance < current - head
    · rw [if_pos hfar, Search.longest, if_pos (.inr (.inr hfar))]
    · have hcap : 2 ≤ (hunt comparator bytes links current p).cap := by
        simp only [hunt]
        omega
      obtain ⟨n, hn⟩ : ∃ n, p.budget = n + 1 :=
        Nat.exists_eq_add_one_of_ne_zero (Nat.ne_of_gt (Nat.le_max_left _ _))
      rw [if_neg hfar, Search.longest_eq_walk comparator bytes links current head p (by omega)
        (by omega) (by omega), hn, walk_eq hcap hmax n none head hbaseline]
      rfl

end Checked

end Backref
