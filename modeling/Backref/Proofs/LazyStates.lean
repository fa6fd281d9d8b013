/-
# A match that the lazy loop holds can be emitted

Whatever the lazy loop stands at, a match it holds was measured one position
earlier: it repeats earlier bytes of the block from there on, the byte there is
still pending, and the match ends within the block. The start of the last match may
be stale, but it is never ahead of the position. None of this depends on what the
chain contains.

Key definitions: `Parse.Lazy.outcomeAt`, `Parse.Lazy.Takes`, `Parse.Lazy.Sound`.
Key theorems: `Parse.Lazy.step_of_takes`, `Parse.Lazy.repeats_found`,
`Parse.Lazy.sound_step`.
-/
import Backref.Proofs.Loops
import Backref.Proofs.Matches

namespace Backref.Parse.Lazy

variable {s : Setup} {st : State}

/-! ### One iteration -/

def outcomeAt (s : Setup) (st : State) : Option Search.Outcome :=
  look s (s.arrive st.chain st.pos).2 st.pos (s.arrive st.chain st.pos).1 st.length

def startFound (s : Setup) (st : State) : Nat := startAfter st.start (outcomeAt s st)

def lengthFound (s : Setup) (st : State) : Nat :=
  lengthAt st.pos (startFound s st) (outcomeAt s st)

/-- The held match is emitted: it is one, and the position has none that is
longer. -/
def Takes (s : Setup) (st : State) : Prop :=
  minMatch ≤ st.length ∧ lengthFound s st ≤ st.length

instance (s : Setup) (st : State) : Decidable (Takes s st) :=
  inferInstanceAs (Decidable (_ ∧ _))

theorem step_of_takes (h : Takes s st) :
    step s st =
      ⟨st.pos - 1 + st.length,
        s.index (s.arrive st.chain st.pos).2
          (s.indexable (st.pos + 1) (st.pos - 1 + st.length)),
        (st.journal.note (outcomeAt s st)).emitCopy st.length (st.pos - 1 - st.start),
        noMatch, startFound s st, false⟩ := by
  obtain ⟨pos, chain, journal, length, start, pending⟩ := st
  exact if_pos h

theorem step_of_pending (h : ¬ Takes s st) (hpending : st.pending = true) :
    step s st =
      ⟨st.pos + 1, (s.arrive st.chain st.pos).2,
        (st.journal.note (outcomeAt s st)).emitLiteral (s.byteAt (st.pos - 1)),
        lengthFound s st, startFound s st, true⟩ := by
  obtain ⟨pos, chain, journal, length, start, pending⟩ := st
  exact (if_neg h).trans (if_pos hpending)

theorem step_of_idle (h : ¬ Takes s st) (hidle : st.pending = false) :
    step s st =
      ⟨st.pos + 1, (s.arrive st.chain st.pos).2, st.journal.note (outcomeAt s st),
        lengthFound s st, startFound s st, true⟩ := by
  obtain ⟨pos, chain, journal, length, start, pending⟩ := st
  exact (if_neg h).trans (if_neg (Bool.eq_false_iff.mp hidle))

/-- An iteration only adds tokens. -/
theorem tokens_isPrefix_step (s : Setup) (st : State) :
    st.journal.tokens.toList <+: (step s st).journal.tokens.toList := by
  by_cases htakes : Takes s st
  · rw [step_of_takes htakes]
    simp [Journal.emitCopy]
  · rcases hpending : st.pending with _ | _
    · rw [step_of_idle htakes hpending]
      simp
    · rw [step_of_pending htakes hpending]
      simp [Journal.emitLiteral]

theorem tokens_isPrefix_flush (s : Setup) (st : State) :
    st.journal.tokens.toList <+: (flush s st).tokens.toList := by
  rw [flush]
  split
  · simp [Journal.emitLiteral]
  · exact List.prefix_refl _

/-! ### What a search finds -/

theorem look_eq_some {chain : HashChain} {pos head held : Nat} {outcome : Search.Outcome}
    (h : look s chain pos head held = some outcome) :
    s.inReach pos head = true ∧ outcome = s.search chain pos head held := by
  unfold look at h
  split at h
  · rename_i hlook
    exact ⟨(Bool.and_eq_true_iff.mp hlook).1, (Option.some.inj h).symm⟩
  · cases h

/-- A length that is a match is that of the search. -/
theorem outcomeAt_of_lengthFound (hlong : minMatch ≤ lengthFound s st) :
    ∃ outcome, outcomeAt s st = some outcome ∧ outcome.length = lengthFound s st := by
  rcases houtcome : outcomeAt s st with _ | outcome
  · rw [lengthFound, houtcome] at hlong
    exact absurd (show 3 ≤ 2 from hlong) (by decide)
  · refine ⟨outcome, rfl, ?_⟩
    rw [lengthFound, houtcome, lengthAt] at hlong ⊢
    split at hlong
    · exact absurd (show 3 ≤ 2 from hlong) (by decide)
    · rename_i hnear
      rw [if_neg hnear]

/-- A match that is found where the held one is not taken is a new one. -/
theorem position_found (hdefer : ¬ Takes s st) (hlong : minMatch ≤ lengthFound s st) :
    ∃ outcome start, outcomeAt s st = some outcome ∧ outcome.position = some start ∧
      outcome.length = lengthFound s st := by
  obtain ⟨outcome, houtcome, hlength⟩ := outcomeAt_of_lengthFound hlong
  rcases hposition : outcome.position with _ | start
  · -- nothing new would be no longer than what is held
    obtain ⟨-, hsearch⟩ := look_eq_some houtcome
    rw [hsearch] at hposition hlength
    have hclipped := Setup.length_of_search hposition
    have hnew : st.length < minMatch ∨ st.length < lengthFound s st := by
      unfold Takes at hdefer
      omega
    simp only [minMatch] at hlong hnew
    omega
  · exact ⟨outcome, start, houtcome, hposition, hlength⟩

/-- A match that is found where the held one is not taken repeats earlier bytes. -/
theorem repeats_found (hs : s.params.maxDistance = s.window.reach) (hdefer : ¬ Takes s st)
    (hlong : minMatch ≤ lengthFound s st) :
    s.window.Repeats st.pos (startFound s st) (lengthFound s st) := by
  obtain ⟨outcome, start, houtcome, hposition, hlength⟩ := position_found hdefer hlong
  obtain ⟨hreach, hsearch⟩ := look_eq_some houtcome
  have hstart : startFound s st = start := by
    rw [startFound, houtcome, startAfter, Search.Outcome.apply, hposition, Option.getD_some]
  rw [hstart, ← hlength]
  rw [← hlength] at hlong
  rw [hsearch] at hposition hlong ⊢
  exact Setup.repeats_of_search hs hreach hposition hlong

/-- The last match starts before the position, if there is a new one. -/
theorem startFound_le (h : st.start ≤ st.pos) : startFound s st ≤ st.pos := by
  rw [startFound]
  rcases houtcome : outcomeAt s st with _ | outcome
  · exact h
  · obtain ⟨-, hsearch⟩ := look_eq_some houtcome
    rcases hposition : outcome.position with _ | start
    · rwa [startAfter, Search.Outcome.apply, hposition]
    · rw [startAfter, Search.Outcome.apply, hposition, Option.getD_some]
      rw [hsearch] at hposition
      exact Nat.le_of_lt (Search.hit_of_longest hposition).before

/-! ### What every state keeps -/

/-- **What every state of the loop keeps.** A match that is held repeats the bytes
from the pending byte on, and the tokens cover all before that byte. -/
structure Sound (s : Setup) (st : State) : Prop where
  pos_le : st.pos ≤ s.window.size
  start_le : st.start ≤ st.pos
  held : minMatch ≤ st.length →
    st.pending = true ∧ s.window.Repeats (st.pos - 1) st.start st.length
  covered : Token.coveredAll st.journal.tokens.toList + st.pending.toNat = st.pos

theorem Sound.pos_of_pending (h : Sound s st) (hpending : st.pending = true) : 1 ≤ st.pos := by
  have hcovered := h.covered
  rw [hpending, Bool.toNat_true] at hcovered
  omega

theorem sound_start (hashBits : Nat) (s : Setup) : Sound s (start hashBits s) where
  pos_le := Nat.zero_le _
  start_le := Nat.le_refl _
  held := fun h => absurd (show 3 ≤ 2 from h) (by decide)
  covered := rfl

theorem sound_step (hs : s.params.maxDistance = s.window.reach) (hlt : st.pos < s.window.size)
    (h : Sound s st) : Sound s (step s st) := by
  have hstart := startFound_le (s := s) h.start_le
  have hcovered := h.covered
  by_cases htakes : Takes s st
  · obtain ⟨hpending, hrep⟩ := h.held htakes.1
    have hpos := h.pos_of_pending hpending
    have hlong : 3 ≤ st.length := htakes.1
    have hlength := hrep.toNat_eq.1
    rw [step_of_takes htakes]
    refine ⟨hrep.fits, ?_, fun h => absurd (show 3 ≤ 2 from h) (by decide), ?_⟩
    · simp only; omega
    · rw [hpending, Bool.toNat_true] at hcovered
      simp only [Journal.emitCopy, Journal.coveredAll_emit, Journal.tokens_note, Token.covered,
        hlength, Bool.toNat_false]
      omega
  · have hheld : minMatch ≤ lengthFound s st →
        true = true ∧ s.window.Repeats (st.pos + 1 - 1) (startFound s st) (lengthFound s st) :=
      fun hlong => ⟨rfl, repeats_found hs htakes hlong⟩
    rcases hpending : st.pending with _ | _
    · rw [hpending, Bool.toNat_false] at hcovered
      rw [step_of_idle htakes hpending]
      refine ⟨hlt, Nat.le_succ_of_le hstart, hheld, ?_⟩
      simp only [Journal.tokens_note, Bool.toNat_true]
      omega
    · rw [hpending, Bool.toNat_true] at hcovered
      rw [step_of_pending htakes hpending]
      refine ⟨hlt, Nat.le_succ_of_le hstart, hheld, ?_⟩
      simp only [Journal.emitLiteral, Journal.coveredAll_emit, Journal.tokens_note,
        Token.covered, Bool.toNat_true]
      omega

end Backref.Parse.Lazy
