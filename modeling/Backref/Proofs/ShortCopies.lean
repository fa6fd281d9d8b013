/-
# The lazy loop makes no short copy of far bytes

A match of `minMatch` bytes that lies farther back than `tooFar` counts as none. The
lazy loop asks for this when it finds a match, but it makes the copy one iteration
later, from the length and the start that it has kept until then, and the start may be
left over from an older search. Still the two belong together: whatever length an
iteration leaves, the start it leaves is the one that the length was judged by, and the
position has only moved by the byte that is pending.

Key definitions: `Parse.Lazy.Near`.
Key theorems: `Parse.Lazy.near_step`, `Parse.Lazy.near_of_mem_copies`,
`Parse.short_copies_near`.
-/
import Backref.Proofs.Copies

namespace Backref.Parse

namespace Lazy

variable {s : Setup} {st : State}

/-- A match of the least length that is held does not lie too far back. -/
def Near (st : State) : Prop := st.length = minMatch → st.pos - 1 - st.start ≤ tooFar

theorem near_of_noMatch (h : st.length = noMatch) : Near st := by
  intro hshort
  rw [h] at hshort
  exact absurd hshort (by decide)

/-- A match of the least length that the loop makes of a position is near, measured from
the start it leaves, stale or not. -/
theorem startFound_near (h : lengthFound s st = minMatch) :
    st.pos - startFound s st ≤ tooFar := by
  unfold lengthFound lengthAt at h
  split at h
  · exact absurd h (by decide)
  · rename_i outcome _
    split at h
    · exact absurd h (by decide)
    · rename_i hkept
      apply Nat.le_of_not_lt
      exact fun hfar => hkept ⟨h, hfar⟩

/-- **One iteration keeps what it holds near**, from whatever state. -/
theorem near_step (s : Setup) (st : State) : Near (step s st) := by
  have hfound (chain : HashChain) (journal : Journal) :
      Near ⟨st.pos + 1, chain, journal, lengthFound s st, startFound s st, true⟩ :=
    fun hshort => startFound_near hshort
  by_cases htakes : Takes s st
  · rw [step_of_takes htakes]
    exact near_of_noMatch rfl
  · rcases hpending : st.pending with _ | _
    · rw [step_of_idle htakes hpending]
      exact hfound _ _
    · rw [step_of_pending htakes hpending]
      exact hfound _ _

/-- **No copy of a run is short and far**, told by the numbers that the loop computes. -/
theorem near_of_mem_copies {hashBits length distance : Nat}
    (h : (length, distance) ∈ copies s (start hashBits s)) (hshort : length = minMatch) :
    distance ≤ tooFar := by
  have hstart : Near (start hashBits s) := near_of_noMatch rfl
  have hcopies (st : State) (hnear : Near st) :
      ∀ copy ∈ (copyAt s st).toList, copy.1 = minMatch → copy.2 ≤ tooFar := by
    intro copy hcopy
    unfold copyAt at hcopy
    split at hcopy
    · obtain rfl := List.mem_singleton.mp hcopy
      exact hnear
    · cases hcopy
  have hall := Loop.forall_mem_collect (l := loop s) (fun st _ _ => near_step s st) hcopies hstart
  exact hall _ h hshort

end Lazy

theorem copies_of_lazyLevel_le {hashBits : Nat} {w : Window} {o : Options}
    (h : levelLimits.Admits o.level) (hlevel : lazyLevel ≤ o.level) :
    copies hashBits (.ofOptions w o) =
      Lazy.copies (.ofOptions w o) (Lazy.start hashBits (.ofOptions w o)) := by
  rw [copies, strategy_of_lazyLevel_le w h hlevel]

/-- **A lazy level emits no short copy of far bytes.** A parse at such a level has a result,
and none of its copies has the least length and lies farther back than `tooFar`. -/
theorem short_copies_near {data : Array UInt8} {o : Options} (h : Accepts data o)
    (hlevel : lazyLevel ≤ o.level) :
    ∃ p, parse data o = .ok p ∧ ∀ length distance, Token.copy length distance ∈ p.tokens →
      ¬ (length.toNat = minMatch ∧ tooFar < distance.toNat) := by
  obtain ⟨w, rfl, -, hparse⟩ := parse_eq_ok h
  refine ⟨_, hparse, fun length distance hmem hfar => ?_⟩
  have hcopy : (length.toNat, distance.toNat) ∈
      Lazy.copies (.ofOptions w o) (Lazy.start o.hashBits (.ofOptions w o)) := by
    rw [← copies_of_lazyLevel_le h.level hlevel, ← copies_journal o.hashBits w h.level]
    exact List.mem_filterMap.mpr ⟨_, Array.mem_toList_iff.mpr hmem, rfl⟩
  have hnear := Lazy.near_of_mem_copies hcopy hfar.1
  omega

/-- Three bytes come again 4099 bytes later, within the reach of the window. -/
theorem short_copies_near_dropped :
    let data : Array UInt8 := #[0, 97, 98, 99] ++ Array.replicate 4096 0 ++ #[97, 98, 99]
    let o : Options := ⟨4, 13, 15, .wordwise⟩
    (Accepts data o ∧ lazyLevel ≤ o.level) ∧
      ∃ p, parse data o = .ok p ∧ ∀ length distance, Token.copy length distance ∈ p.tokens →
        ¬ (length.toNat = minMatch ∧ tooFar < distance.toNat) := by
  intro data o
  have hsize : data.size ≤ maxPosition - guardSize := by
    simp [data, maxPosition, guardSize, wordSize]
  have hbounds : Accepts data o := ⟨by decide, by decide, by decide, hsize⟩
  exact ⟨⟨hbounds, by decide⟩, short_copies_near hbounds (by decide)⟩

end Backref.Parse
