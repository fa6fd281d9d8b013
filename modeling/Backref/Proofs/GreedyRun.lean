/-
# The greedy loop describes the block as it goes

After every iteration of the greedy loop the tokens emitted so far describe the
block up to the position where the loop stands: a literal is the byte there, and a
copy is a match that the search has just measured. The loop ends at the end of the
block, so the tokens describe all of it.

Key definitions: `Parse.Greedy.outcomeAt`, `Parse.Greedy.Described`.
Key theorems: `Parse.Greedy.repeats_of_choose`, `Parse.Greedy.described_step`,
`Parse.Greedy.described_run`.
-/
import Backref.Proofs.Loops
import Backref.Proofs.Matches

namespace Backref.Parse.Greedy

variable {s : Setup}

theorem look_eq_some {chain : HashChain} {pos head : Nat} {outcome : Search.Outcome}
    (h : look s chain pos head = some outcome) :
    s.inReach pos head = true ∧ outcome = s.search chain pos head (minMatch - 1) := by
  unfold look at h
  split at h
  · exact ⟨by assumption, (Option.some.inj h).symm⟩
  · cases h

theorem choose_eq_copy {outcome : Option Search.Outcome} {length start : Nat}
    (h : choose outcome = .copy length start) :
    outcome = some ⟨length, some start⟩ ∧ minMatch ≤ length := by
  have hlong := minMatch_le_of_choose h
  unfold choose at h
  split at h
  · split at h
    · cases h
      exact ⟨rfl, hlong⟩
    · cases h
  · cases h

/-! ### One iteration -/

/-- The outcome of the search that an iteration makes, if it makes one. -/
def outcomeAt (s : Setup) (st : State) : Option Search.Outcome :=
  look s (s.arrive st.chain st.pos).2 st.pos (s.arrive st.chain st.pos).1

theorem step_of_copy {st : State} {length start : Nat}
    (h : choose (outcomeAt s st) = .copy length start) :
    step s st =
      ⟨st.pos + length, s.index (s.arrive st.chain st.pos).2 (followers s st.pos length),
        (st.journal.note (outcomeAt s st)).emitCopy length (st.pos - start)⟩ := by
  obtain ⟨pos, chain, journal⟩ := st
  simp only [outcomeAt] at h
  simp only [step, outcomeAt, h]

theorem step_of_literal {st : State} (h : choose (outcomeAt s st) = .literal) :
    step s st =
      ⟨st.pos + 1, (s.arrive st.chain st.pos).2,
        (st.journal.note (outcomeAt s st)).emitLiteral (s.byteAt st.pos)⟩ := by
  obtain ⟨pos, chain, journal⟩ := st
  simp only [outcomeAt] at h
  simp only [step, outcomeAt, h]

theorem tokens_isPrefix_step (s : Setup) (st : State) :
    st.journal.tokens.toList <+: (step s st).journal.tokens.toList := by
  rcases hchoose : choose (outcomeAt s st) with _ | ⟨length, start⟩
  · rw [step_of_literal hchoose]
    simp [Journal.emitLiteral]
  · rw [step_of_copy hchoose]
    simp [Journal.emitCopy]

/-- A match that an iteration takes repeats earlier bytes of the block. -/
theorem repeats_of_choose (hs : s.params.maxDistance = s.window.reach) {st : State}
    {length start : Nat} (h : choose (outcomeAt s st) = .copy length start) :
    s.window.Repeats st.pos start length := by
  obtain ⟨houtcome, hlong⟩ := choose_eq_copy h
  obtain ⟨hreach, hfound⟩ := look_eq_some houtcome
  have hposition := congrArg Search.Outcome.position hfound
  have hlength := congrArg Search.Outcome.length hfound
  simp only at hposition hlength
  rw [hlength] at hlong ⊢
  exact Setup.repeats_of_search hs hreach hposition.symm hlong

/-! ### The run -/

/-- The tokens emitted so far describe the block up to where the loop stands. -/
structure Described (s : Setup) (st : State) : Prop where
  pos_le : st.pos ≤ s.window.size
  covered : Token.coveredAll st.journal.tokens.toList = st.pos
  describes : Token.AllFrom s.window.Describes 0 st.journal.tokens.toList

/-- One more token that describes the block where the loop stands. -/
theorem Described.emit {st : State} (h : Described s st) {token : Token} {pos : Nat}
    {outcome : Option Search.Outcome} {chain : HashChain}
    (htoken : s.window.Describes st.pos token) (hpos : st.pos + token.covered = pos)
    (hle : pos ≤ s.window.size) :
    Described s ⟨pos, chain, (st.journal.note outcome).emit token⟩ := by
  obtain ⟨_, hcovered, hall⟩ := h
  refine ⟨hle, ?_, ?_⟩
  · simp [Token.covered_append, Token.coveredAll_cons, Token.coveredAll_nil, hcovered, hpos]
  · simp [Token.allFrom_append, Token.AllFrom, hall, hcovered, htoken]

theorem described_step (hs : s.params.maxDistance = s.window.reach) {st : State}
    (hlt : st.pos < s.window.size) (h : Described s st) : Described s (step s st) := by
  rcases hchoose : choose (outcomeAt s st) with _ | ⟨length, start⟩
  · rw [step_of_literal hchoose]
    exact h.emit (Setup.describes_byteAt hlt) rfl (Nat.succ_le_of_lt hlt)
  · have hrep := repeats_of_choose hs hchoose
    rw [step_of_copy hchoose]
    exact h.emit hrep.describes (by rw [Token.covered, hrep.toNat_eq.1]) hrep.fits

/-- **The greedy loop describes the block.** -/
theorem described_run (hs : s.params.maxDistance = s.window.reach) {st : State}
    (h : Described s st) :
    Token.coveredAll (run s st).journal.tokens.toList = s.window.size ∧
      Token.AllFrom s.window.Describes 0 (run s st).journal.tokens.toList := by
  rw [run_eq]
  obtain ⟨hrun, hend⟩ :=
    Loop.run_invariant (l := loop s) (fun _ hlt h => described_step hs hlt h) h
  exact ⟨hrun.covered.trans (Nat.le_antisymm hrun.pos_le hend), hrun.describes⟩

end Backref.Parse.Greedy
