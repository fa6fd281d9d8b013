/-
# A match that a parse finds repeats earlier bytes of the block

The searches of a parse run over the guarded bytes, from a head that is in reach,
with the bytes ahead as the limit. So a match that is long enough to encode lies
inside the block, can be said by a copy, and is as long as it can be; and a search
that finds nothing new answers with the length the caller held, clipped.

Key theorems: `Window.agreementAt_guarded`, `Parse.Setup.repeats_of_search`,
`Parse.Setup.length_of_search`.
-/
import Backref.Parse.Setup
import Backref.Proofs.Answer
import Backref.Proofs.Description

namespace Backref

namespace Window

theorem getElem?_guarded_of_lt {w : Window} {k : Nat} (h : k < w.size) :
    w.guarded[k]? = w.data[k]? := by
  rw [getElem?_guarded]
  exact if_pos h

/-- The guard bytes do not take part in an agreement that ends before them. -/
theorem agreementAt_guarded {w : Window} {p q limit : Nat} (hq : q ≤ p)
    (h : p + limit ≤ w.size) :
    agreementAt w.guarded p q limit = agreementAt w.data p q limit :=
  agreementAt_congr hq fun _ hi => getElem?_guarded_of_lt (Nat.lt_of_lt_of_le hi h)

/-- A hit within the bytes ahead repeats earlier bytes, if it is long enough for a
copy. -/
theorem repeats_of_hit {w : Window} {pos head start length : Nat} {p : Search.Params}
    (hit : Search.Hit w.guarded pos head p start length) (hlong : minMatch ≤ length)
    (hhead : head ≠ noPosition) (hdist : p.maxDistance = w.reach)
    (hlook : p.lookahead = w.lookahead pos) : w.Repeats pos start length := by
  obtain ⟨himp, hlen, hbefore, hnear, hreached⟩ := hit
  have hcap : p.cap = min maxMatch (w.size - pos) := by rw [Search.Params.cap, hlook]; rfl
  have hle : length ≤ p.cap := hlen ▸ agreementAt_le _ _ _ _
  simp only [minMatch] at hlong
  have hfits : pos + p.cap ≤ w.size := by omega
  rw [agreementAt_guarded (Nat.le_of_lt hbefore) hfits] at hlen
  have hbyte : ∀ k < length, ∃ x, w.data[pos + k]? = some x ∧ w.data[start + k]? = some x :=
    fun k hk => (lt_agreementAt_iff.mp (hlen ▸ hk)).2 k (Nat.le_refl k)
  refine
    { minMatch_le := hlong
      le_maxMatch := by omega
      positive := by simp only [noPosition] at *; omega
      before := hbefore
      near := hdist ▸ hnear
      fits := by omega
      same := fun k hk => ?_
      stops := fun hshort hinside heq => ?_ }
  · obtain ⟨x, h1, h2⟩ := hbyte k hk
    rw [h1, h2]
  · -- one more equal byte would have been measured too
    have hmore : length < agreementAt w.data pos start p.cap := by
      refine lt_agreementAt_iff.mpr ⟨by omega, fun k hk => ?_⟩
      rcases Nat.lt_or_eq_of_le hk with hk | rfl
      · exact hbyte k hk
      · obtain ⟨x, hx⟩ : ∃ x, w.data[pos + k]? = some x :=
          ⟨_, Array.getElem?_eq_getElem hinside⟩
        exact ⟨x, hx, heq ▸ hx⟩
    omega

end Window

namespace Parse.Setup

variable {s : Setup} {chain : HashChain} {pos head carried : Nat}

/-- **A new match that is long enough to encode repeats earlier bytes of the
block.** -/
theorem repeats_of_search {start : Nat} (hs : s.params.maxDistance = s.window.reach)
    (hreach : s.inReach pos head = true)
    (hpos : (s.search chain pos head carried).position = some start)
    (hlong : minMatch ≤ (s.search chain pos head carried).length) :
    s.window.Repeats pos start (s.search chain pos head carried).length := by
  rw [inReach, Bool.and_eq_true, bne_iff_ne] at hreach
  exact s.window.repeats_of_hit (Search.hit_of_longest hpos) hlong hreach.1 hs rfl

theorem describes_byteAt (h : pos < s.window.size) :
    s.window.Describes pos (.literal (s.byteAt pos)) := by
  rw [Window.Describes, byteAt, Array.getD_eq_getD_getElem?, Array.getElem?_eq_getElem h,
    Option.getD_some]

theorem carried_lt_of_search {start : Nat}
    (hpos : (s.search chain pos head carried).position = some start) :
    carried < (s.search chain pos head carried).length :=
  Nat.lt_of_le_of_lt (Nat.le_max_right _ _) (Search.hit_of_longest hpos).improves

/-- Without a new match the length is the one the caller held, clipped. -/
theorem length_of_search (hpos : (s.search chain pos head carried).position = none) :
    (s.search chain pos head carried).length =
      min (max 1 carried) (min maxMatch (s.window.lookahead pos)) :=
  Search.length_of_longest hpos

end Parse.Setup

end Backref
