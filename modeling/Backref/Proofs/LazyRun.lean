/-
# The lazy loop describes the block

A match that the recursion of the lazy loop holds is one that a search has just
measured, or one that it held before and found no longer one for. So whatever it
holds repeats earlier bytes of the block, and the tokens of the recursion describe
the block from their position to the end.

Key definitions: `Parse.Lazy.Held.Repeats`.
Key theorems: `Parse.Lazy.repeats_usable`, `Parse.Lazy.describes_tokensFrom`.
-/
import Backref.Proofs.Deferral

namespace Backref.Parse.Lazy

variable {hashBits : Nat} {s : Setup}

/-- A match held at a position, if it is one, repeats earlier bytes of the block. -/
def Held.Repeats (s : Setup) (pos : Nat) (held : Held) : Prop :=
  minMatch ≤ held.length →
    ∃ start, held.distance = pos - start ∧ s.window.Repeats pos start held.length

/-- A match that is new at a position repeats earlier bytes. The others are the one
that was held already, clipped. -/
theorem repeats_usable (hs : s.params.maxDistance = s.window.reach) {pos carried : Nat}
    (hnew : carried < minMatch ∨ carried < (usable hashBits s pos carried).length) :
    (usable hashBits s pos carried).Repeats s pos := by
  intro hlong
  by_cases hskip : Skips hashBits s pos carried
  · rw [usable, if_pos hskip] at hlong
    exact absurd (show 3 ≤ 2 from hlong) (by decide)
  · rcases hpos : (searchAt hashBits s pos carried).position with _ | start
    · have hlen : (searchAt hashBits s pos carried).length =
          min (max 1 carried) (min maxMatch (s.window.lookahead pos)) := Setup.length_of_search hpos
      rw [usable_of_none hskip hpos] at hnew hlong
      simp only [minMatch] at hnew hlong
      omega
    · rw [usable_of_some hskip hpos] at hlong ⊢
      split at hlong
      · exact absurd (show 3 ≤ 2 from hlong) (by decide)
      · rename_i hnear
        rw [if_neg hnear]
        exact ⟨start, rfl, Setup.repeats_of_search hs (inReach_of_not_skips hskip) hpos hlong⟩

/-- **The tokens of the recursion describe the block** from their position to the
end. -/
theorem describes_tokensFrom (hs : s.params.maxDistance = s.window.reach) {pos : Nat}
    {held : Held} (hle : pos ≤ s.window.size) (hheld : held.Repeats s pos) :
    pos + Token.coveredAll (tokensFrom hashBits s pos held) = s.window.size ∧
      Token.AllFrom s.window.Describes pos (tokensFrom hashBits s pos held) := by
  fun_induction tokensFrom hashBits s pos held with
  | case1 pos held hlt htake ih =>
    obtain ⟨start, hdistance, hrep⟩ := hheld htake.1
    have hcovered : (Token.copy held.length.toUInt16 held.distance.toUInt16).covered =
        held.length := hrep.toNat_eq.1
    have htoken := hrep.describes
    rw [← hdistance] at htoken
    obtain ⟨h1, h2⟩ := ih hrep.fits (repeats_usable hs (.inl (by decide)))
    rw [Token.coveredAll_cons, Token.AllFrom, hcovered]
    exact ⟨by omega, htoken, h2⟩
  | case2 pos held hlt hdefer ih =>
    have hnew : held.length < minMatch ∨
        held.length < (usable hashBits s (pos + 1) held.length).length := by omega
    obtain ⟨h1, h2⟩ := ih (Nat.succ_le_of_lt hlt) (repeats_usable hs hnew)
    rw [Token.coveredAll_cons, Token.AllFrom, Token.covered]
    exact ⟨by omega, Setup.describes_byteAt hlt, h2⟩
  | case3 pos held hge =>
    exact ⟨by rw [Token.coveredAll_nil]; omega, trivial⟩

end Backref.Parse.Lazy
