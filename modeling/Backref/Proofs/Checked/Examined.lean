/-
# A search looks at no more candidates than its budget

The search as a loop that is not told when to stop: each iteration looks at one candidate
and writes it down, takes one of the budget, and goes on unless the budget is used up, a
match is nice or the chain ends. The pair of bytes that the next candidate has to share is
read once and read again only when the best length has grown; where it cannot be read no
candidate could improve, so the search ends there. Each iteration that goes on leaves a
budget that is not used up and is one less, so the loop ends after as many candidates as
there was budget, even if the links go in a circle, and none of its differences is
negative. The candidates it looks at are the head and the links behind it, in order.

Key definitions: `Checked.Progress`, `Checked.step`, `Checked.pursue`, `Checked.search`,
`Checked.Last`, `Checked.Onward`.
Key theorems: `Search.Hunt.walk_of_unread`, `Checked.step_cases`, `Checked.pursue_eq`,
`Checked.search_eq`, `Checked.search_within_budget`.
-/
import Backref.Proofs.Checked.Search
import Backref.Proofs.Plain

namespace Backref

/-! ### Bytes that cannot be read -/

namespace Search.Hunt

variable {h : Hunt} {best : Nat}

def scan (h : Hunt) : View := ⟨h.bytes, h.current⟩

/-- No candidate improves if a pair of bytes it would have to share cannot be read. -/
theorem improve?_of_unread (hunread : h.scan.pair? 0 = none ∨ h.scan.pair? (best - 1) = none)
    (candidate : Nat) : h.improve? best candidate = none := by
  have hsame (k : Nat) (hk : h.scan.pair? k = none) :
      samePair ⟨h.bytes, candidate⟩ h.scan k = false := by
    rw [samePair, hk]
    cases View.pair? ⟨h.bytes, candidate⟩ k <;> rfl
  rw [improve?]
  rcases hunread with h0 | hlast
  · rw [show (⟨h.bytes, h.current⟩ : View) = h.scan from rfl, hsame 0 h0, Bool.and_false]
    rfl
  · rw [show (⟨h.bytes, h.current⟩ : View) = h.scan from rfl, hsame _ hlast, Bool.false_and]
    rfl

/-- So a walk finds nothing new. -/
theorem walk_of_unread (hunread : h.scan.pair? 0 = none ∨ h.scan.pair? (best - 1) = none)
    (position : Option Nat) (budget : Nat) :
    ∀ candidate, h.walk budget best position candidate = (best, position) := by
  induction budget with
  | zero => exact fun _ => rfl
  | succ n ih =>
    intro candidate
    rw [walk, improve?_of_unread hunread]
    split
    · rfl
    · cases h.patient with
      | false => rfl
      | true =>
        rcases h.links.next? candidate with _ | next
        · rfl
        · simp only [ih next, ite_self]

end Search.Hunt

namespace Checked

/-! ### The loop -/

structure Progress where
  best : Nat
  /-- The two bytes at the offset `best - 1`, which a candidate has to share. -/
  probe : UInt16
  position : Option Nat
  candidate : Nat
  /-- The candidates that may still be looked at. -/
  budget : Nat
  /-- The candidates looked at, in order. -/
  examined : List Nat

/-- The length of a candidate, if it is more than the best so far; `start` and `probe` are
the pairs of bytes that it has to share first. -/
def probed (h : Search.Hunt) (start probe : UInt16) (best candidate : Nat) :
    Checked (Option Nat) := do
  let last ← sub best 1
  let other : View := ⟨h.bytes, candidate⟩
  if other.pair? last = some probe ∧ other.pair? 0 = some start then do
    let length ← measure h candidate
    .ok (if best < length then some length else none)
  else .ok none

def advance (h : Search.Hunt) (st : Progress) : Checked (Bool × Progress) := do
  let budget ← sub st.budget 1
  if budget = 0 then .ok (false, { st with budget })
  else
    match linked h st.candidate with
    | some next => .ok (true, { st with budget, candidate := next })
    | none => .ok (false, { st with budget })

/-- Keep the candidate if it is longer, and go on: unless it is nice, or no pair can be read
there any more, or it is not longer and the search is impatient. -/
def settle (h : Search.Hunt) (st : Progress) : (longer : Option Nat) → Checked (Bool × Progress)
  | some length =>
    let st := { st with best := length, position := some st.candidate }
    if h.nice ≤ length then .ok (false, st)
    else do
      let last ← sub length 1
      match h.scan.pair? last with
      | some probe => advance h { st with probe }
      | none => .ok (false, st)
  | none => if h.patient then advance h st else .ok (false, st)

/-- The candidate is written down. -/
def Progress.looked (st : Progress) : Progress :=
  { st with examined := st.examined ++ [st.candidate] }

/-- One iteration: does the loop go on, and from where? -/
def step (h : Search.Hunt) (start : UInt16) (st : Progress) : Checked (Bool × Progress) :=
  if h.current ≤ st.candidate then .ok (false, st)
  else do
    let longer ← probed h start st.probe st.best st.candidate
    settle h st.looked longer

def pursue (h : Search.Hunt) (start : UInt16) : (rounds : Nat) → Progress → Checked Progress
  | 0, _ => .error .endless
  | rounds + 1, st => do
    let next ← step h start st
    if next.1 then pursue h start rounds next.2 else .ok next.2

/-- The search from a head that lies before the current position and near enough, and the
candidates looked at for it. The loop must not go on for longer than the whole chain
budget, quartered or not. -/
def follow (h : Search.Hunt) (p : Search.Params) (head : Nat) :
    Checked (Search.Outcome × List Nat) := do
  let last ← sub p.baseline 1
  match h.scan.pair? 0, h.scan.pair? last with
  | some start, some probe => do
    let st ← pursue h start (p.chainBudget + 1) ⟨p.baseline, probe, none, head, p.budget, []⟩
    .ok (⟨min st.best h.cap, st.position⟩, st.examined)
  | _, _ => .ok (.unchanged (min p.baseline h.cap), [])

/-- The longest match for the bytes at `current`, starting from the candidate `head`, and
the candidates looked at for it. -/
def search (comparator : Comparator) (bytes : Array UInt8) (links : Links)
    (current head : Nat) (p : Search.Params) : Checked (Search.Outcome × List Nat) :=
  let unchanged : Search.Outcome := .unchanged (min p.baseline p.cap)
  if p.cap ≤ p.baseline ∨ current ≤ head then .ok (unchanged, [])
  else do
    let distance ← sub current head
    if p.maxDistance < distance then .ok (unchanged, [])
    else follow (hunt comparator bytes links current p) p head

/-! ### One iteration -/

/-- What every iteration relies on: there is a best length, its probe is the pair of bytes
there, and the budget is not used up. -/
structure Ready (h : Search.Hunt) (st : Progress) : Prop where
  one_le_best : 1 ≤ st.best
  probe_eq : h.scan.pair? (st.best - 1) = some st.probe
  one_le_budget : 1 ≤ st.budget

theorem Ready.exists_budget {h : Search.Hunt} {st : Progress} (hready : Ready h st) :
    ∃ n, st.budget = n + 1 :=
  Nat.exists_eq_add_one_of_ne_zero (Nat.ne_of_gt hready.one_le_budget)

/-- The best length and position of the plain walk from where a search stands. -/
def outlook (h : Search.Hunt) (st : Progress) : Nat × Option Nat :=
  h.walk st.budget st.best st.position st.candidate

section

variable {h : Search.Hunt} {start : UInt16} {st : Progress}

theorem samePair_eq {a b : View} {k : Nat} {pair : UInt16} (hb : b.pair? k = some pair) :
    Search.Hunt.samePair a b k = decide (a.pair? k = some pair) := by
  rw [Search.Hunt.samePair, hb]
  rcases a.pair? k with _ | x
  · rfl
  · simp only [Option.some.injEq]
    rfl

theorem probed_eq (hcap : 2 ≤ h.cap) (hmax : h.cap ≤ maxMatch)
    (hstart : h.scan.pair? 0 = some start) (hready : Ready h st) :
    probed h start st.probe st.best st.candidate = .ok (h.improve? st.best st.candidate) := by
  rw [← improve_eq hready.one_le_best hcap hmax, probed, improve,
    sub_eq_ok hready.one_le_best, ok_bind, ok_bind]
  simp only [show (⟨h.bytes, h.current⟩ : View) = h.scan from rfl, samePair_eq hstart,
    samePair_eq hready.probe_eq, Bool.and_eq_true, decide_eq_true_eq]

/-- What the plain walk finds behind the candidate of an iteration that goes on. -/
def beyond (h : Search.Hunt) (st : Progress) : Nat × Option Nat :=
  match linked h st.candidate with
  | some next => h.walk (st.budget - 1) st.best st.position next
  | none => (st.best, st.position)

/-- Going on takes one of the budget: that ends the search if nothing is left of it or the
chain ends, and otherwise there is some left for the linked candidate. -/
theorem advance_cases (hready : Ready h st) :
    (∃ last, advance h st = .ok (false, last) ∧ (last.best, last.position) = beyond h st ∧
      last.examined = st.examined) ∨
    ∃ next, advance h st = .ok (true, next) ∧ Ready h next ∧ outlook h next = beyond h st ∧
      next.budget + 1 = st.budget ∧ linked h st.candidate = some next.candidate ∧
      next.examined = st.examined := by
  obtain ⟨hbest, hprobe, hbudget⟩ := hready
  rw [advance, sub_eq_ok hbudget, ok_bind, beyond]
  by_cases hused : st.budget - 1 = 0
  · rw [if_pos hused, hused]
    refine .inl ⟨_, rfl, ?_, rfl⟩
    rcases linked h st.candidate with _ | next <;> rfl
  · rw [if_neg hused]
    rcases hlinked : linked h st.candidate with _ | next
    · exact .inl ⟨_, rfl, rfl, rfl⟩
    · exact .inr ⟨_, rfl, ⟨hbest, hprobe, by simp only; omega⟩, rfl, by simp only; omega, rfl, rfl⟩

/-- An iteration that is the last: what was to be found is found. -/
structure Last (h : Search.Hunt) (st last : Progress) : Prop where
  found : (last.best, last.position) = outlook h st
  examined_eq : last.examined =
    st.examined ++ if st.candidate < h.current then [st.candidate] else []

/-- An iteration that goes on: what is to be found is the same, and one of the budget is
gone. -/
structure Onward (h : Search.Hunt) (st next : Progress) : Prop where
  ready : Ready h next
  outlook_eq : outlook h next = outlook h st
  budget_eq : next.budget + 1 = st.budget
  before : st.candidate < h.current
  linked_eq : linked h st.candidate = some next.candidate
  examined_eq : next.examined = st.examined ++ [st.candidate]

def Settled (h : Search.Hunt) (st : Progress) (answer : Checked (Bool × Progress)) : Prop :=
  (∃ last, answer = .ok (false, last) ∧ Last h st last) ∨
    ∃ next, answer = .ok (true, next) ∧ Onward h st next

/-- An iteration that has looked at its candidate and advances from there. -/
theorem settled_advance {seen : Progress} (hready : Ready h seen)
    (hbefore : st.candidate < h.current) (hcandidate : seen.candidate = st.candidate)
    (hbudget : seen.budget = st.budget) (hexamined : seen.examined = st.examined ++ [st.candidate])
    (hbeyond : beyond h seen = outlook h st) : Settled h st (advance h seen) := by
  rcases advance_cases hready with ⟨last, hlast, hfound, hsame⟩ |
    ⟨next, hnext, hnextReady, houtlook, hone, hlinked, hsame⟩
  · refine .inl ⟨last, hlast, hfound.trans hbeyond, ?_⟩
    rw [hsame, hexamined, if_pos hbefore]
  · exact .inr ⟨next, hnext, hnextReady, houtlook.trans hbeyond, hone.trans hbudget, hbefore,
      hcandidate ▸ hlinked, hsame.trans hexamined⟩

theorem settled_stop {seen : Progress} (hbefore : st.candidate < h.current)
    (hfound : (seen.best, seen.position) = outlook h st)
    (hexamined : seen.examined = st.examined ++ [st.candidate]) :
    Settled h st (.ok (false, seen)) :=
  .inl ⟨seen, rfl, hfound, by rw [hexamined, if_pos hbefore]⟩

theorem outlook_eq (hready : Ready h st) (hbefore : st.candidate < h.current) :
    outlook h st =
      match h.improve? st.best st.candidate with
      | some length =>
        if h.nice ≤ length then (length, some st.candidate)
        else beyond h { st with best := length, position := some st.candidate }
      | none => if h.patient then beyond h st else (st.best, st.position) := by
  obtain ⟨n, hn⟩ := hready.exists_budget
  rw [outlook, hn, walk_of_lt hbefore]
  rcases h.improve? st.best st.candidate with _ | length
  · simp only [goesOn, seen, beyond, hn, Nat.add_sub_cancel]
    rfl
  · simp only [goesOn, seen, beyond, decide_eq_true_eq]
    by_cases hnice : h.nice ≤ length
    · rw [if_neg (by omega), if_pos hnice]
    · rw [if_pos (by omega), if_neg hnice]
      rfl

theorem settled_of_none (hready : Ready h st) (hbefore : st.candidate < h.current)
    (hlonger : h.improve? st.best st.candidate = none) :
    Settled h st (settle h st.looked none) := by
  have houtlook := outlook_eq hready hbefore
  simp only [hlonger] at houtlook
  rw [settle]
  by_cases hpatient : h.patient = true
  · rw [if_pos hpatient] at houtlook ⊢
    exact settled_advance ⟨hready.one_le_best, hready.probe_eq, hready.one_le_budget⟩ hbefore rfl
      rfl rfl houtlook.symm
  · rw [if_neg hpatient] at houtlook ⊢
    exact settled_stop hbefore houtlook.symm rfl

theorem settled_of_some {length : Nat} (hready : Ready h st) (hbefore : st.candidate < h.current)
    (hlonger : h.improve? st.best st.candidate = some length) :
    Settled h st (settle h st.looked (some length)) := by
  have hlength : 1 ≤ length :=
    Nat.le_trans hready.one_le_best (Nat.le_of_lt (lt_of_improve? hlonger))
  have houtlook := outlook_eq hready hbefore
  simp only [hlonger] at houtlook
  rw [settle]
  by_cases hnice : h.nice ≤ length
  · rw [if_pos hnice] at houtlook ⊢
    exact settled_stop hbefore houtlook.symm rfl
  · rw [if_neg hnice] at houtlook ⊢
    rw [sub_eq_ok hlength, ok_bind]
    rcases hprobe : h.scan.pair? (length - 1) with _ | probe
    · -- without a probe nothing behind the candidate could improve
      refine settled_stop hbefore ?_ rfl
      rw [houtlook, beyond]
      rcases linked h st.candidate with _ | next
      · rfl
      · exact (Search.Hunt.walk_of_unread (.inr hprobe) _ _ _).symm
    · exact settled_advance ⟨hlength, hprobe, hready.one_le_budget⟩ hbefore rfl rfl rfl
        houtlook.symm

/-- **One iteration never faults**, and it is the last one or goes on. -/
theorem step_cases (hcap : 2 ≤ h.cap) (hmax : h.cap ≤ maxMatch)
    (hstart : h.scan.pair? 0 = some start) (hready : Ready h st) :
    Settled h st (step h start st) := by
  rw [step]
  rcases Nat.lt_or_ge st.candidate h.current with hbefore | hbehind
  · rw [if_neg (Nat.not_le.mpr hbefore), probed_eq hcap hmax hstart hready, ok_bind]
    rcases hlonger : h.improve? st.best st.candidate with _ | length
    · exact settled_of_none hready hbefore hlonger
    · exact settled_of_some hready hbefore hlonger
  · rw [if_pos hbehind]
    refine .inl ⟨st, rfl, ?_, ?_⟩
    · rw [outlook, Search.Hunt.walk_of_le _ _ _ hbehind]
    · rw [if_neg (Nat.not_lt.mpr hbehind), List.append_nil]

/-! ### The whole loop -/

/-- The candidates that a walk from `candidate` on can look at, in order. -/
def within (h : Search.Hunt) (budget candidate : Nat) : List Nat :=
  if candidate < h.current then h.links.candidates h.floor h.current budget candidate else []

theorem within_of_linked {budget candidate next : Nat} (hbefore : candidate < h.current)
    (hlinked : linked h candidate = some next) :
    within h (budget + 1) candidate = candidate :: within h budget next := by
  rw [within, if_pos hbefore, Links.candidates, Links.link?, within]
  rw [linked] at hlinked
  obtain ⟨hnext, hfloor⟩ := Option.filter_eq_some_iff.mp hlinked
  have hfloor : h.floor < next := of_decide_eq_true hfloor
  by_cases hlt : next < h.current
  · simp [hnext, hfloor, hlt, Option.filter]
  · simp [hnext, hlt, Option.filter]

/-- **The loop never faults and ends within its budget.** It finds what the plain walk
finds, and looks at the candidates of the chain in order. -/
theorem pursue_eq (hcap : 2 ≤ h.cap) (hmax : h.cap ≤ maxMatch)
    (hstart : h.scan.pair? 0 = some start) (rounds : Nat) :
    ∀ {st : Progress}, Ready h st → st.budget ≤ rounds →
      ∃ last, pursue h start rounds st = .ok last ∧
        (last.best, last.position) = outlook h st ∧
        ∃ looked, last.examined = st.examined ++ looked ∧
          looked <+: within h st.budget st.candidate := by
  induction rounds with
  | zero =>
    intro st hready hle
    exact absurd hready.one_le_budget (by omega)
  | succ rounds ih =>
    intro st hready hle
    obtain ⟨n, hn⟩ := hready.exists_budget
    rcases step_cases hcap hmax hstart hready with ⟨last, hstep, hlast⟩ | ⟨next, hstep, hnext⟩
    · refine ⟨last, by rw [pursue, hstep]; rfl, hlast.found, _, hlast.examined_eq, ?_⟩
      rw [hn, within]
      split
      · rw [Links.candidates]
        exact List.prefix_append [_] _
      · exact List.nil_prefix
    · have hone := hnext.budget_eq
      obtain ⟨last, hpursue, hfound, looked, hexamined, hlooked⟩ := ih hnext.ready (by omega)
      refine ⟨last, by rw [pursue, hstep]; exact hpursue, hfound.trans hnext.outlook_eq,
        st.candidate :: looked, ?_, ?_⟩
      · rw [hexamined, hnext.examined_eq, List.append_assoc, List.singleton_append]
      · rw [← hone, within_of_linked hnext.before hnext.linked_eq]
        exact (List.cons_prefix_cons).mpr ⟨rfl, hlooked⟩

end

/-! ### The search -/

theorem length_candidates_le (l : Links) (floor current budget : Nat) :
    ∀ head, (l.candidates floor current budget head).length ≤ budget := by
  induction budget with
  | zero => exact fun _ => Nat.le_refl 0
  | succ n ih =>
    intro head
    rw [Links.candidates, List.length_cons]
    rcases l.link? floor current head with _ | next
    · exact Nat.succ_le_succ (Nat.zero_le n)
    · exact Nat.succ_le_succ (ih next)

theorem follow_eq {h : Search.Hunt} (hcap : 2 ≤ h.cap) (hmax : h.cap ≤ maxMatch)
    (p : Search.Params) {head : Nat} (hhead : head < h.current) :
    ∃ examined, follow h p head =
        .ok (⟨min (h.walk p.budget p.baseline none head).1 h.cap,
          (h.walk p.budget p.baseline none head).2⟩, examined) ∧
      examined <+: h.links.candidates h.floor h.current p.budget head := by
  have hbaseline : 1 ≤ p.baseline := Nat.le_max_left _ _
  rw [follow, sub_eq_ok hbaseline, ok_bind]
  rcases hstart : h.scan.pair? 0 with _ | start
  · rw [Search.Hunt.walk_of_unread (.inl hstart)]
    exact ⟨[], rfl, List.nil_prefix⟩
  rcases hprobe : h.scan.pair? (p.baseline - 1) with _ | probe
  · rw [Search.Hunt.walk_of_unread (.inr hprobe)]
    exact ⟨[], rfl, List.nil_prefix⟩
  have hready : Ready h ⟨p.baseline, probe, none, head, p.budget, []⟩ :=
    ⟨hbaseline, hprobe, Nat.le_max_left _ _⟩
  have hrounds : p.budget ≤ p.chainBudget + 1 := by
    rw [Search.Params.budget, Nat.shiftRight_eq_div_pow]
    split <;> omega
  obtain ⟨last, hpursue, hfound, looked, hexamined, hlooked⟩ :=
    pursue_eq hcap hmax hstart _ hready hrounds
  have hwalk : h.walk p.budget p.baseline none head = (last.best, last.position) := hfound.symm
  rw [List.nil_append] at hexamined
  rw [within, if_pos hhead] at hlooked
  refine ⟨last.examined, ?_, hexamined ▸ hlooked⟩
  simp only [hpursue, hwalk, ok_bind]

theorem search_eq (comparator : Comparator) (bytes : Array UInt8) (links : Links)
    (current head : Nat) (p : Search.Params) :
    ∃ examined, search comparator bytes links current head p =
        .ok (Search.longest comparator bytes links current head p, examined) ∧
      examined <+: links.candidates (current - p.maxDistance) current p.budget head := by
  rw [search]
  by_cases hstop : p.cap ≤ p.baseline ∨ current ≤ head
  · rw [if_pos hstop, Search.longest, if_pos (by omega)]
    exact ⟨[], rfl, List.nil_prefix⟩
  · have hbaseline : 1 ≤ p.baseline := Nat.le_max_left _ _
    have hhead : head < current := Nat.lt_of_not_le fun hle => hstop (.inr hle)
    rw [if_neg hstop, sub_eq_ok (Nat.le_of_lt hhead), ok_bind]
    by_cases hfar : p.maxDistance < current - head
    · rw [if_pos hfar, Search.longest, if_pos (.inr (.inr hfar))]
      exact ⟨[], rfl, List.nil_prefix⟩
    · have hcap : 2 ≤ (hunt comparator bytes links current p).cap := by
        simp only [hunt]
        omega
      rw [if_neg hfar, Search.longest_eq_walk comparator bytes links current head p (by omega)
        hhead (by omega)]
      exact follow_eq hcap (Nat.min_le_left _ _) p hhead

/-- **A search is total and looks at no more candidates than its budget**, whatever it is
given: its bytes may end anywhere, its links may go in a circle, and its parameters may be
any numbers. The checked loop answers what the plain search answers, and the candidates it
looks at are the first of those that the chain leads to, at most as many as the budget
allows: the chain budget, or a quarter of it if the carried match is good, and at least
one. -/
theorem search_within_budget (comparator : Comparator) (bytes : Array UInt8) (links : Links)
    (current head : Nat) (p : Search.Params) :
    ∃ examined, search comparator bytes links current head p =
        .ok (Search.longest comparator bytes links current head p, examined) ∧
      examined.length ≤
        max 1 (if p.goodLength ≤ max 1 p.carried then p.chainBudget >>> 2 else p.chainBudget) ∧
      examined <+: links.candidates (current - p.maxDistance) current p.budget head := by
  obtain ⟨examined, hsearch, hprefix⟩ := search_eq comparator bytes links current head p
  exact ⟨examined, hsearch,
    Nat.le_trans hprefix.length_le (length_candidates_le links _ _ p.budget head), hprefix⟩

example :
    search .bytewise #[0, 7, 7, 8, 7, 7, 9, 0] ⟨#[0, 1], 1⟩ 4 1 ⟨3, 258, 258, 100, 4, 9, 0⟩ =
      .ok (⟨2, some 1⟩, [1, 1, 1]) := by
  decide

end Checked

end Backref
