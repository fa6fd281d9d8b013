/-
# No iteration faults, and each moves forward within the block

The checked loops make every move with its checks, and an iteration that does not move
forward, or a loop that goes on after as many iterations as the block has bytes, is a
fault of its own. What the loops keep rules all of them out: the heads of the chain
are not ahead of the position, a match that is held repeats earlier bytes from the
byte before it and ends within the block, and the counters are small.

Key definitions: `Checked.run`, `Checked.Greedy.step`, `Checked.Greedy.Ready`,
`Checked.Lazy.step`, `Checked.Lazy.Ready`, `Checked.Lazy.flush`.
Key theorems: `Checked.run_eq`, `Checked.Greedy.step_eq`, `Checked.Greedy.ready_step`,
`Checked.Lazy.step_eq`, `Checked.Lazy.ready_step`.
-/
import Backref.Proofs.Checked.Journal
import Backref.Proofs.GreedyRun
import Backref.Proofs.LazyStates

namespace Backref.Checked

open Parse

/-! ### A loop -/

/-- A loop that ends after so many iterations, each of which moves forward and stays
within the block. -/
def run {σ : Type} (size : Nat) (pos : σ → Nat) (step : σ → Checked σ) :
    (iterations : Nat) → σ → Checked σ
  | 0, st => do
    require (size ≤ pos st) .endless
    .ok st
  | n + 1, st =>
    if pos st < size then do
      let next ← step st
      require (pos st < pos next ∧ pos next ≤ size) (.stuck (pos st) (pos next))
      run size pos step n next
    else .ok st

/-- **A checked loop does not fault** if no iteration does from the states that the
loop keeps to, and it has as many iterations as there are bytes ahead. -/
theorem run_eq {σ : Type} {l : Loop σ} {step : σ → Checked σ} {P : σ → Prop}
    (hstep : ∀ st, l.pos st < l.size → P st →
      step st = .ok (l.step st) ∧ P (l.step st) ∧ l.pos (l.step st) ≤ l.size) :
    ∀ {n : Nat} {st : σ}, P st → l.size ≤ l.pos st + n →
      run l.size l.pos step n st = .ok (l.run st) := by
  intro n
  induction n with
  | zero =>
    intro st _ hn
    have hend : l.size ≤ l.pos st := hn
    rw [run, require_eq_ok hend, ok_bind, Loop.run_of_le hend]
  | succ n ih =>
    intro st h hn
    by_cases hlt : l.pos st < l.size
    · obtain ⟨hok, hkeep, hle⟩ := hstep st hlt h
      have hforward := l.pos_lt_step st
      rw [run, if_pos hlt, hok, ok_bind, require_eq_ok ⟨hforward, hle⟩, ok_bind,
        Loop.run_of_lt hlt]
      exact ih hkeep (by omega)
    · rw [run, if_neg hlt, Loop.run_of_le (Nat.le_of_not_lt hlt)]

/-! ### How far the counters grow -/

/-- No counter is greater at a position: each iteration counts one search and one
token. -/
def countLimit (pos : Nat) : Nat := (maxMatch + 1) * pos

theorem countLimit_room {s : Setup} {pos : Nat} (hpos : pos ≤ s.window.size) :
    countLimit pos + 1 + maxMatch ≤ maxCounter := by
  have hsize : s.window.size ≤ maxPosition - guardSize := s.window.size_le
  simp only [maxPosition] at hsize
  simp only [countLimit, maxMatch, maxCounter]
  omega

theorem countLimit_lt {pos next : Nat} (h : pos < next) :
    countLimit pos + 1 + maxMatch ≤ countLimit next := by
  simp only [countLimit, maxMatch]
  omega

/-- An iteration keeps the counters within their limit. -/
theorem within_iteration {j : Journal} {pos next : Nat} (h : j.Within (countLimit pos))
    (hnext : pos < next) (outcome : Option Search.Outcome) {token : Token}
    (htoken : token.covered ≤ maxMatch) :
    ((j.note outcome).emit token).Within (countLimit next) :=
  ((h.note outcome).emit htoken).mono (countLimit_lt hnext)

/-! ### The greedy loop -/

namespace Greedy

def indexUnder (hashBits : Nat) (s : Setup) (chain : HashChain) (pos length : Nat) :
    Checked HashChain :=
  if length ≤ s.effort.maxLazy then do
    let first ← add s.window.size pos 1
    let stop ← add s.window.size pos length
    index hashBits s chain first stop
  else .ok chain

def step (hashBits : Nat) (s : Setup) (st : Parse.Greedy.State) :
    Checked Parse.Greedy.State := do
  let arrived ← arrive hashBits s st.chain st.pos
  let outcome ← look s arrived.2 st.pos arrived.1 (minMatch - 1) true
  let journal ← note st.journal outcome
  match Parse.Greedy.choose outcome with
  | .copy length start => do
    let distance ← sub st.pos start
    let journal ← emitCopy s journal length distance
    let chain ← indexUnder hashBits s arrived.2 st.pos length
    let next ← add s.window.size st.pos length
    .ok ⟨next, chain, journal⟩
  | .literal => do
    let journal ← emitLiteral s journal st.pos
    let next ← add s.window.size st.pos 1
    .ok ⟨next, arrived.2, journal⟩

/-- What the loop keeps: the tokens describe the block so far, the chain holds
positions that are not ahead, and the counters are small. -/
structure Ready (hashBits : Nat) (s : Setup) (st : Parse.Greedy.State) : Prop where
  described : Parse.Greedy.Described s st
  chain : st.chain.Within hashBits s.window.guarded st.pos
  counters : st.journal.Within (countLimit st.pos)

variable {hashBits : Nat} {s : Setup} {st : Parse.Greedy.State}

theorem indexUnder_eq {chain : HashChain} {pos length : Nat}
    (h : chain.Within hashBits s.window.guarded pos) (hlong : 1 ≤ length)
    (hfits : pos + length ≤ s.window.size) :
    indexUnder hashBits s chain pos length =
      .ok (s.index chain (Parse.Greedy.followers s pos length)) := by
  rw [indexUnder, Parse.Greedy.followers]
  split
  · rw [add_eq_ok (by omega), ok_bind, add_eq_ok hfits, ok_bind,
      index_eq (h.mono (Nat.le_add_right pos length)) (Nat.le_refl _) hfits]
  · rfl

theorem within_followers {chain : HashChain} {pos length : Nat}
    (h : chain.Within hashBits s.window.guarded pos) :
    (s.index chain (Parse.Greedy.followers s pos length)).Within hashBits s.window.guarded
      (pos + length) := by
  have hnext := h.mono (Nat.le_add_right pos length)
  rw [Parse.Greedy.followers]
  split
  · exact Setup.within_index hnext (Nat.le_refl _)
  · exact hnext

/-- **No iteration of the greedy loop faults.** -/
theorem step_eq (hs : s.params.maxDistance = s.window.reach) (hlt : st.pos < s.window.size)
    (h : Ready hashBits s st) : step hashBits s st = .ok (Parse.Greedy.step s st) := by
  have hroom := countLimit_room (Nat.le_of_lt hlt)
  have harrived := Setup.within_arrive h.chain (Nat.le_refl st.pos)
  have hnote := h.counters.note (Parse.Greedy.outcomeAt s st)
  have houtcome :
      look s (s.arrive st.chain st.pos).2 st.pos (s.arrive st.chain st.pos).1 (minMatch - 1) true =
        .ok (Parse.Greedy.outcomeAt s st) := by
    rw [look_eq (Setup.arrive_fst_le h.chain st.pos), Bool.and_true]
    rfl
  rw [step, arrive_eq h.chain (Nat.le_of_lt hlt), ok_bind, houtcome, ok_bind,
    note_eq h.counters (by omega), ok_bind]
  rcases hchoose : Parse.Greedy.choose (Parse.Greedy.outcomeAt s st) with _ | ⟨length, start⟩
  · simp only
    rw [emitLiteral_eq hnote hroom hlt, ok_bind, add_eq_ok hlt, ok_bind,
      Parse.Greedy.step_of_literal hchoose]
  · have hrep := Parse.Greedy.repeats_of_choose hs hchoose
    have hlong : 3 ≤ length := hrep.minMatch_le
    simp only
    rw [sub_eq_ok (Nat.le_of_lt hrep.before), ok_bind, emitCopy_eq hnote hroom hrep, ok_bind,
      indexUnder_eq harrived (by omega) hrep.fits, ok_bind, add_eq_ok hrep.fits, ok_bind,
      Parse.Greedy.step_of_copy hchoose]

/-- One iteration keeps the loop ready. -/
theorem ready_step (hs : s.params.maxDistance = s.window.reach) (hlt : st.pos < s.window.size)
    (h : Ready hashBits s st) : Ready hashBits s (Parse.Greedy.step s st) := by
  have hdescribed := Parse.Greedy.described_step hs hlt h.described
  have hforward := Parse.Greedy.pos_lt_step s st
  have harrived := Setup.within_arrive h.chain (Nat.le_refl st.pos)
  rcases hchoose : Parse.Greedy.choose (Parse.Greedy.outcomeAt s st) with _ | ⟨length, start⟩
  · rw [Parse.Greedy.step_of_literal hchoose] at hdescribed hforward ⊢
    exact
      { described := hdescribed
        chain := harrived.mono (Nat.le_succ _)
        counters := within_iteration h.counters hforward _ (show 1 ≤ maxMatch by decide) }
  · have hcovered := (Parse.Greedy.repeats_of_choose hs hchoose).covered_le
    rw [Parse.Greedy.step_of_copy hchoose] at hdescribed hforward ⊢
    exact
      { described := hdescribed
        chain := within_followers harrived
        counters := within_iteration h.counters hforward _ hcovered }

theorem ready_start (s : Setup) (h : hashBitsLimits.Admits hashBits) :
    Ready hashBits s (Parse.Greedy.start hashBits s) :=
  ⟨⟨Nat.zero_le _, rfl, trivial⟩, HashChain.within_empty _ _ h, Journal.within_empty _⟩

/-- **The greedy loop does not fault.** -/
theorem run_eq_ok (hs : s.params.maxDistance = s.window.reach) (h : Ready hashBits s st) {n : Nat}
    (hn : s.window.size ≤ st.pos + n) :
    run s.window.size Parse.Greedy.State.pos (step hashBits s) n st =
      .ok (Parse.Greedy.run s st) := by
  rw [Parse.Greedy.run_eq]
  refine run_eq (l := Parse.Greedy.loop s) (fun st hlt h => ?_) h hn
  have hnext := ready_step hs hlt h
  exact ⟨step_eq hs hlt h, hnext, hnext.described.pos_le⟩

end Greedy

/-! ### The lazy loop -/

namespace Lazy

def lengthAt (pos start : Nat) : Option Search.Outcome → Checked Nat
  | none => .ok Parse.Lazy.noMatch
  | some outcome =>
    if outcome.length = minMatch then do
      let distance ← sub pos start
      .ok (if tooFar < distance then Parse.Lazy.noMatch else outcome.length)
    else .ok outcome.length

def step (hashBits : Nat) (s : Setup) (st : Parse.Lazy.State) : Checked Parse.Lazy.State := do
  let arrived ← arrive hashBits s st.chain st.pos
  let outcome ← look s arrived.2 st.pos arrived.1 st.length (st.length < s.effort.maxLazy)
  let journal ← note st.journal outcome
  let start := Parse.Lazy.startAfter st.start outcome
  let length ← lengthAt st.pos start outcome
  if minMatch ≤ st.length ∧ length ≤ st.length then do
    let last ← sub st.pos 1
    let distance ← sub last st.start
    let journal ← emitCopy s journal st.length distance
    let next ← add s.window.size last st.length
    let first ← add s.window.size st.pos 1
    let chain ← index hashBits s arrived.2 first next
    .ok ⟨next, chain, journal, Parse.Lazy.noMatch, start, false⟩
  else if st.pending then do
    let last ← sub st.pos 1
    let journal ← emitLiteral s journal last
    let next ← add s.window.size st.pos 1
    .ok ⟨next, arrived.2, journal, length, start, true⟩
  else do
    let next ← add s.window.size st.pos 1
    .ok ⟨next, arrived.2, journal, length, start, true⟩

def flush (s : Setup) (st : Parse.Lazy.State) : Checked Journal :=
  if st.pending then do
    let last ← sub st.pos 1
    emitLiteral s st.journal last
  else .ok st.journal

/-- What the loop keeps: a held match repeats earlier bytes, the chain holds positions
that are not ahead, and the counters are small. -/
structure Ready (hashBits : Nat) (s : Setup) (st : Parse.Lazy.State) : Prop where
  sound : Parse.Lazy.Sound s st
  chain : st.chain.Within hashBits s.window.guarded st.pos
  counters : st.journal.Within (countLimit st.pos)

variable {hashBits : Nat} {s : Setup} {st : Parse.Lazy.State}

theorem lengthAt_eq {pos start : Nat} (h : start ≤ pos) (outcome : Option Search.Outcome) :
    lengthAt pos start outcome = .ok (Parse.Lazy.lengthAt pos start outcome) := by
  rcases outcome with _ | outcome
  · rfl
  · rw [lengthAt, Parse.Lazy.lengthAt]
    by_cases hshort : outcome.length = minMatch
    · rw [if_pos hshort, sub_eq_ok h, ok_bind]
      simp [hshort]
    · rw [if_neg hshort, if_neg fun hfar => hshort hfar.1]

/-- **No iteration of the lazy loop faults.** -/
theorem step_eq (hlt : st.pos < s.window.size) (h : Ready hashBits s st) :
    step hashBits s st = .ok (Parse.Lazy.step s st) := by
  have hroom := countLimit_room (Nat.le_of_lt hlt)
  have harrived := Setup.within_arrive h.chain (Nat.le_refl st.pos)
  have hnote := h.counters.note (Parse.Lazy.outcomeAt s st)
  have houtcome :
      look s (s.arrive st.chain st.pos).2 st.pos (s.arrive st.chain st.pos).1 st.length
        (st.length < s.effort.maxLazy) = .ok (Parse.Lazy.outcomeAt s st) :=
    look_eq (Setup.arrive_fst_le h.chain st.pos) _ _
  have hlength : lengthAt st.pos (Parse.Lazy.startAfter st.start (Parse.Lazy.outcomeAt s st))
      (Parse.Lazy.outcomeAt s st) = .ok (Parse.Lazy.lengthFound s st) :=
    -- the start may be that of an older match, but it is never ahead of the position
    lengthAt_eq (Parse.Lazy.startFound_le h.sound.start_le) _
  rw [step, arrive_eq h.chain (Nat.le_of_lt hlt), ok_bind, houtcome, ok_bind,
    note_eq h.counters (by omega), ok_bind]
  simp only
  rw [hlength, ok_bind]
  change (if Parse.Lazy.Takes s st then _ else _) = _
  by_cases htakes : Parse.Lazy.Takes s st
  · -- the held match was measured at the byte before, so it starts before it and fits
    obtain ⟨hpending, hrep⟩ := h.sound.held htakes.1
    have hpos := h.sound.pos_of_pending hpending
    have hlong : 3 ≤ st.length := htakes.1
    have hnext : st.pos ≤ st.pos - 1 + st.length := by omega
    rw [if_pos htakes, sub_eq_ok hpos, ok_bind, sub_eq_ok (Nat.le_of_lt hrep.before), ok_bind,
      emitCopy_eq hnote hroom hrep, ok_bind, add_eq_ok hrep.fits, ok_bind, add_eq_ok hlt, ok_bind,
      index_eq (harrived.mono hnext) (Nat.le_refl _) hrep.fits, ok_bind,
      Parse.Lazy.step_of_takes htakes]
    rfl
  · rw [if_neg htakes]
    rcases hpending : st.pending with _ | _
    · rw [if_neg Bool.false_ne_true, add_eq_ok hlt, ok_bind,
        Parse.Lazy.step_of_idle htakes hpending]
      rfl
    · have hpos := h.sound.pos_of_pending hpending
      rw [if_pos rfl, sub_eq_ok hpos, ok_bind, emitLiteral_eq hnote hroom (by omega), ok_bind,
        add_eq_ok hlt, ok_bind, Parse.Lazy.step_of_pending htakes hpending]
      rfl

theorem ready_step (hs : s.params.maxDistance = s.window.reach) (hlt : st.pos < s.window.size)
    (h : Ready hashBits s st) : Ready hashBits s (Parse.Lazy.step s st) := by
  have hsound := Parse.Lazy.sound_step hs hlt h.sound
  have hforward := Parse.Lazy.pos_lt_step s st
  have harrived := (Setup.within_arrive h.chain (Nat.le_refl st.pos)).mono (Nat.le_of_lt hforward)
  by_cases htakes : Parse.Lazy.Takes s st
  · have hcovered := (h.sound.held htakes.1).2.covered_le
    rw [Parse.Lazy.step_of_takes htakes] at hsound hforward harrived ⊢
    exact
      { sound := hsound
        chain := Setup.within_index harrived (Nat.le_refl _)
        counters := within_iteration h.counters hforward _ hcovered }
  · rcases hpending : st.pending with _ | _
    · have hlimit := countLimit_lt hforward
      rw [Parse.Lazy.step_of_idle htakes hpending] at hsound harrived hlimit ⊢
      exact
        { sound := hsound
          chain := harrived
          counters := (h.counters.note _).mono (Nat.le_of_add_right_le hlimit) }
    · rw [Parse.Lazy.step_of_pending htakes hpending] at hsound hforward harrived ⊢
      exact
        { sound := hsound
          chain := harrived
          counters := within_iteration h.counters hforward _ (show 1 ≤ maxMatch by decide) }

theorem ready_start (s : Setup) (h : hashBitsLimits.Admits hashBits) :
    Ready hashBits s (Parse.Lazy.start hashBits s) :=
  ⟨Parse.Lazy.sound_start hashBits s, HashChain.within_empty _ _ h, Journal.within_empty _⟩

/-- **The lazy loop does not fault**, and it ends ready. -/
theorem run_eq_ok (hs : s.params.maxDistance = s.window.reach) (h : Ready hashBits s st) {n : Nat}
    (hn : s.window.size ≤ st.pos + n) :
    run s.window.size Parse.Lazy.State.pos (step hashBits s) n st = .ok (Parse.Lazy.run s st) ∧
      Ready hashBits s (Parse.Lazy.run s st) := by
  rw [Parse.Lazy.run_eq]
  refine ⟨run_eq (l := Parse.Lazy.loop s) (fun st hlt h => ?_) h hn,
    (Loop.run_invariant (l := Parse.Lazy.loop s) (fun _ hlt h => ready_step hs hlt h) h).1⟩
  have hnext := ready_step hs hlt h
  exact ⟨step_eq hlt h, hnext, hnext.sound.pos_le⟩

/-- The last byte is read only if it is there. -/
theorem flush_eq (h : Ready hashBits s st) : flush s st = .ok (Parse.Lazy.flush s st) := by
  rw [flush, Parse.Lazy.flush]
  rcases hpending : st.pending with _ | _
  · rfl
  · have hpos := h.sound.pos_of_pending hpending
    have hle := h.sound.pos_le
    have hroom := countLimit_room hle
    rw [if_pos rfl, if_pos rfl, sub_eq_ok hpos, ok_bind,
      emitLiteral_eq h.counters (by omega) (by omega)]

end Lazy

end Backref.Checked
