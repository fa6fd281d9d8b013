/-
# A run of one byte is two literals and copies at distance one

In a run of one byte every position has the bucket of the one before it, which is its
head, and the two agree for as long as a match can reach. The first byte has nothing
before it, and the second only position zero, which is no head; so both are literals.
From the third byte on the lazy loop finds the longest copy there can be at distance
one. No later position has a longer one, so the copy is taken, its positions are indexed
and the loop goes on behind it as it began. What is left in the end, if it is shorter
than a match, is literals again.

Key definitions: `Token.ofRun`, `Window.IsRun`.
Key theorems: `Search.longest_of_full_head`, `Parse.Lazy.headAt_succ`,
`Parse.Lazy.length_usable_le`, `Parse.Lazy.usable_of_isRun`,
`Parse.Lazy.tokensFrom_of_isRun`, `Parse.parse_replicate`.
-/
import Backref.Proofs.Buckets
import Backref.Proofs.Deferral

namespace Backref

/-! ### A head that agrees as far as a match can reach -/

namespace Search

section

variable {comparator : Comparator} {bytes : Array UInt8} {links : Links} {current head : Nat}
  {p : Params}

theorem exists_candidates_eq_cons (links : Links) (current head : Nat) (p : Params) :
    ∃ rest, candidates links current head p = head :: rest := by
  have hbudget : 1 ≤ p.budget := Nat.le_max_left _ _
  obtain ⟨n, hn⟩ := Nat.exists_eq_add_one_of_ne_zero (Nat.ne_of_gt hbudget)
  unfold candidates
  rw [hn, Links.candidates]
  exact ⟨_, rfl⟩

/-- **A head that agrees as far as a match can reach is the answer**, whatever the links
behind it. -/
theorem longest_of_full_head (h : p.Opens current head)
    (hfull : agreementAt bytes current head p.cap = p.cap) :
    longest comparator bytes links current head p = ⟨p.cap, some head⟩ := by
  obtain ⟨rest, hrest⟩ := exists_candidates_eq_cons links current head p
  have hends : Ends (min p.niceLength p.cap) (patientLevel ≤ p.level) p.baseline p.cap :=
    .inl ⟨h.1, Nat.min_le_right _ _⟩
  have hbest : best bytes links current head p = p.cap := by
    rw [best, hrest, List.map_cons, hfull, bestSeen_cons, if_pos hends,
      Nat.max_eq_right (Nat.le_of_lt h.1)]
  rw [longest_of_opens h, hbest, if_pos h.1, hrest, List.find?_cons_of_pos (by simpa using hfull)]

end

end Search

/-! ### A block that is a run -/

namespace Window

variable {w : Window} {byte : UInt8} {pos : Nat}

def IsRun (w : Window) (byte : UInt8) : Prop := ∀ k < w.size, w.data[k]? = some byte

theorem IsRun.getElem?_guarded (h : w.IsRun byte) (hpos : pos < w.size) :
    w.guarded[pos]? = some byte := by
  rw [getElem?_guarded_of_lt hpos, h pos hpos]

theorem IsRun.agreementAt_pred (h : w.IsRun byte) {limit : Nat} (hpos : 1 ≤ pos)
    (hfits : pos + limit ≤ w.size) : agreementAt w.guarded pos (pos - 1) limit = limit := by
  apply Nat.le_antisymm (agreementAt_le _ _ _ _)
  cases limit with
  | zero => exact Nat.zero_le _
  | succ n =>
    apply lt_agreementAt_iff.mpr
    refine ⟨Nat.lt_succ_self n, fun k hk => ⟨byte, ?_, ?_⟩⟩
    · exact h.getElem?_guarded (by omega)
    · exact h.getElem?_guarded (by omega)

theorem one_le_reach (w : Window) : 1 ≤ w.reach := by
  have hspan : 2 ^ 9 ≤ 2 ^ w.bits := Nat.pow_le_pow_right Nat.two_pos w.bits_admitted.1
  simp only [reach, Backref.reach, minLookahead, maxMatch, minMatch]
  omega

theorem isRun_of_replicate {n : Nat} (h : w.data = Array.replicate n byte) : w.IsRun byte := by
  intro k hk
  rw [size, h, Array.size_replicate] at hk
  rw [h, Array.getElem?_replicate, if_pos hk]

end Window

/-- The tokens of so many bytes that repeat the one before them: copies at distance one, as
long as they can be, and what is left as one more copy or, if it is too short for one, as
literals. -/
def Token.ofRun (byte : UInt8) (n : Nat) : List Token :=
  List.replicate (n / maxMatch) (copy maxMatch.toUInt16 1) ++
    if minMatch ≤ n % maxMatch then [copy (n % maxMatch).toUInt16 1]
    else List.replicate (n % maxMatch) (literal byte)

theorem Token.ofRun_of_lt {n : Nat} (byte : UInt8) (h : n < minMatch) :
    ofRun byte n = List.replicate n (literal byte) := by
  simp only [minMatch] at h
  have hdiv : n / maxMatch = 0 := Nat.div_eq_of_lt (by simp only [maxMatch]; omega)
  have hmod : n % maxMatch = n := Nat.mod_eq_of_lt (by simp only [maxMatch]; omega)
  rw [ofRun, hdiv, hmod, if_neg (by simp only [minMatch]; omega), List.replicate_zero,
    List.nil_append]

theorem Token.ofRun_of_le {n : Nat} (byte : UInt8) (h : minMatch ≤ n) :
    ofRun byte n = copy (min maxMatch n).toUInt16 1 :: ofRun byte (n - min maxMatch n) := by
  rcases Nat.lt_or_ge n maxMatch with hlt | hge
  · have hdiv : n / maxMatch = 0 := Nat.div_eq_of_lt hlt
    have hmod : n % maxMatch = n := Nat.mod_eq_of_lt hlt
    have hnone : ofRun byte 0 = [] := rfl
    rw [Nat.min_eq_right (Nat.le_of_lt hlt), Nat.sub_self, hnone, ofRun, hdiv, hmod, if_pos h]
    rfl
  · have hdiv : n / maxMatch = (n - maxMatch) / maxMatch + 1 :=
      Nat.div_eq_sub_div (by decide) hge
    have hmod : n % maxMatch = (n - maxMatch) % maxMatch := Nat.mod_eq_sub_mod hge
    rw [Nat.min_eq_left hge, ofRun, ofRun, hdiv, hmod, List.replicate_succ, List.cons_append]

namespace Parse

namespace Lazy

variable {hashBits : Nat} {s : Setup} {pos : Nat}

/-! ### The head of a position -/

theorem headAt_zero : headAt hashBits s 0 = noPosition := by
  have hempty : chainBelow hashBits s 0 = .empty s.window.bits hashBits := by
    simp only [chainBelow, Setup.indexable]
    rfl
  rw [headAt, hempty, HashChain.headOf_empty]

/-- A position is the head of the next one if they share the bytes that are hashed. -/
theorem headAt_succ (hahead : minMatch ≤ s.window.lookahead pos)
    (hsame : ∀ k < minMatch, s.window.guarded[pos + k]? = s.window.guarded[pos + 1 + k]?) :
    headAt hashBits s (pos + 1) = pos := by
  have hnext : (s.arrive (chainBelow hashBits s pos) pos).2 = chainBelow hashBits s (pos + 1) := by
    rw [arrive_chainBelow]
  rw [Setup.arrive, if_pos hahead] at hnext
  rw [headAt, ← hnext, HashChain.headOf_insert, if_pos (HashChain.hashAt_congr hsame)]

/-! ### What can be held at a position -/

theorem usable_of_lt {carried : Nat} (h : s.window.lookahead pos < minMatch) :
    usable hashBits s pos carried = .none := if_pos (.inl h)

/-- No match that can be held is longer than the bytes ahead, nor than the format allows. -/
theorem length_usable_le (hashBits : Nat) (s : Setup) (pos carried : Nat) :
    (usable hashBits s pos carried).length ≤
      max noMatch (min maxMatch (s.window.lookahead pos)) := by
  have hfound : (searchAt hashBits s pos carried).length ≤
      min maxMatch (s.window.lookahead pos) := Search.longest_length_le _ _ _ _ _ _
  by_cases hskip : Skips hashBits s pos carried
  · rw [usable, if_pos hskip]
    exact Nat.le_max_left _ _
  · rcases hposition : (searchAt hashBits s pos carried).position with _ | start
    · rw [usable_of_none hskip hposition]
      exact Nat.le_trans hfound (Nat.le_max_right _ _)
    · rw [usable_of_some hskip hposition]
      split
      · exact Nat.le_max_left _ _
      · exact Nat.le_trans hfound (Nat.le_max_right _ _)

theorem tokensFrom_none (hpos : pos < s.window.size) :
    tokensFrom hashBits s pos .none = .literal (s.byteAt pos) ::
      tokensFrom hashBits s (pos + 1) (usable hashBits s (pos + 1) noMatch) := by
  have hshort : ¬ minMatch ≤ Held.none.length := by decide
  rw [tokensFrom, if_pos hpos, if_neg fun hcopy => hshort hcopy.1]
  rfl

/-! ### A run -/

section

variable {byte : UInt8}

theorem byteAt_of_isRun (hrun : s.window.IsRun byte) (hpos : pos < s.window.size) :
    s.byteAt pos = byte := by
  rw [Setup.byteAt, Array.getD_eq_getD_getElem?, hrun pos hpos, Option.getD_some]

theorem headAt_of_isRun (hrun : s.window.IsRun byte) (hahead : minMatch ≤ s.window.lookahead pos) :
    headAt hashBits s pos = pos - 1 := by
  have hsize : s.window.lookahead pos = s.window.size - pos := rfl
  simp only [minMatch] at hahead
  cases pos with
  | zero => exact headAt_zero
  | succ pos =>
    have hbefore : s.window.lookahead pos = s.window.size - pos := rfl
    apply headAt_succ
    · simp only [minMatch]
      omega
    · intro k hk
      simp only [minMatch] at hk
      rw [hrun.getElem?_guarded (by omega), hrun.getElem?_guarded (by omega)]

/-- At the first two positions no match can be held. -/
theorem usable_of_isRun_start (hrun : s.window.IsRun byte) (hpos : pos ≤ 1) (carried : Nat) :
    usable hashBits s pos carried = .none := by
  rcases Nat.lt_or_ge (s.window.lookahead pos) minMatch with hshort | hahead
  · exact usable_of_lt hshort
  · have hhead : headAt hashBits s pos = noPosition := by
      rw [headAt_of_isRun hrun hahead]
      exact Nat.sub_eq_zero_of_le hpos
    exact if_pos (.inr (.inl hhead))

/-- **From the third position on the longest copy at distance one can be held.** -/
theorem usable_of_isRun (hs : s.params.maxDistance = s.window.reach)
    (hlazy : noMatch < s.effort.maxLazy) (hrun : s.window.IsRun byte) (hpos : 2 ≤ pos)
    (hahead : minMatch ≤ s.window.lookahead pos) :
    usable hashBits s pos noMatch = ⟨min maxMatch (s.window.lookahead pos), 1⟩ := by
  have hhead : headAt hashBits s pos = pos - 1 := headAt_of_isRun hrun hahead
  have hreach := s.window.one_le_reach
  have hsize : s.window.lookahead pos = s.window.size - pos := rfl
  have hback : pos - (pos - 1) = 1 := by omega
  have hskip : ¬ Skips hashBits s pos noMatch := by
    unfold Skips
    rw [hhead, hback]
    simp only [noPosition]
    omega
  have hfound : searchAt hashBits s pos noMatch =
      ⟨min maxMatch (s.window.lookahead pos), some (pos - 1)⟩ := by
    rw [searchAt, hhead]
    apply Search.longest_of_full_head
    · refine ⟨?_, by omega, ?_⟩
      · show max 1 noMatch < min maxMatch (s.window.lookahead pos)
        simp only [noMatch, maxMatch, minMatch] at hahead ⊢
        omega
      · show pos - (pos - 1) ≤ s.params.maxDistance
        omega
    · apply hrun.agreementAt_pred (by omega)
      show pos + min maxMatch (s.window.lookahead pos) ≤ s.window.size
      simp only [minMatch] at hahead
      omega
  have hposition : (searchAt hashBits s pos noMatch).position = some (pos - 1) := by rw [hfound]
  rw [usable_of_some hskip hposition, hfound, hback, if_neg (fun hfar => absurd hfar.2 (by decide))]

theorem tokensFrom_of_isRun_short (hrun : s.window.IsRun byte) (n : Nat) :
    ∀ {pos : Nat}, pos + n = s.window.size → n < minMatch →
      tokensFrom hashBits s pos .none = List.replicate n (.literal byte) := by
  induction n with
  | zero =>
    intro pos hpos _
    rw [tokensFrom, if_neg (by omega)]
    rfl
  | succ n ih =>
    intro pos hpos hshort
    have hnext : s.window.lookahead (pos + 1) < minMatch := by
      have hsize : s.window.lookahead (pos + 1) = s.window.size - (pos + 1) := rfl
      omega
    rw [tokensFrom_none (by omega), byteAt_of_isRun hrun (by omega), usable_of_lt hnext,
      ih (by omega) (by omega), List.replicate_succ]

/-- **From the third position on a run is copies at distance one**, and what is left. -/
theorem tokensFrom_of_isRun (hs : s.params.maxDistance = s.window.reach)
    (hlazy : noMatch < s.effort.maxLazy) (hrun : s.window.IsRun byte) (n : Nat) :
    ∀ {pos : Nat}, pos + n = s.window.size → 2 ≤ pos →
      tokensFrom hashBits s pos (usable hashBits s pos noMatch) = Token.ofRun byte n := by
  induction n using Nat.strongRecOn with
  | ind n ih =>
    intro pos hpos hstart
    have hsize : s.window.lookahead pos = n := by
      have : s.window.lookahead pos = s.window.size - pos := rfl
      omega
    rcases Nat.lt_or_ge n minMatch with hshort | hlong
    · rw [Token.ofRun_of_lt byte hshort, usable_of_lt (by omega)]
      exact tokensFrom_of_isRun_short hrun n hpos hshort
    · have hheld : usable hashBits s pos noMatch = ⟨min maxMatch n, 1⟩ := by
        rw [usable_of_isRun hs hlazy hrun hstart (by omega), hsize]
      have hcopy : minMatch ≤ min maxMatch n := Nat.le_min.mpr ⟨by decide, hlong⟩
      -- the next position has fewer bytes ahead, so no longer copy
      have hnext : (usable hashBits s (pos + 1) (min maxMatch n)).length ≤ min maxMatch n := by
        have hle := length_usable_le hashBits s (pos + 1) (min maxMatch n)
        have hahead : s.window.lookahead (pos + 1) = s.window.size - (pos + 1) := rfl
        simp only [noMatch, minMatch] at hle hcopy
        omega
      have hinside : pos < s.window.size := by
        simp only [minMatch] at hlong
        omega
      have htake : tokensFrom hashBits s pos ⟨min maxMatch n, 1⟩ =
          .copy (min maxMatch n).toUInt16 1 :: tokensFrom hashBits s (pos + min maxMatch n)
            (usable hashBits s (pos + min maxMatch n) noMatch) :=
        tokensFrom_take hinside hcopy hnext
      simp only [minMatch] at hcopy
      rw [hheld, htake, Token.ofRun_of_le byte hlong,
        ih (n - min maxMatch n) (by omega) (by omega) (by omega)]

end

end Lazy

theorem noMatch_lt_maxLazy {level : Nat} (h : levelLimits.Admits level)
    (hlevel : lazyLevel ≤ level) : Lazy.noMatch < (Effort.ofLevel level).maxLazy := by
  obtain ⟨-, hgreatest⟩ := h
  simp only [levelLimits] at hgreatest
  simp only [lazyLevel] at hlevel
  have hlevels : level = 4 ∨ level = 5 ∨ level = 6 ∨ level = 7 ∨ level = 8 ∨ level = 9 := by omega
  rcases hlevels with rfl | rfl | rfl | rfl | rfl | rfl <;> decide

/-- **A run of one byte is two literals and copies at distance one**, at every lazy level: a
parse has a result, and behind the literals come as many copies of the greatest length as
fit, then what is left as one copy or, if it is too short, as literals. -/
theorem parse_replicate {byte : UInt8} {n : Nat} {o : Options}
    (h : Accepts (Array.replicate n byte) o) (hlevel : lazyLevel ≤ o.level) (hn : 2 ≤ n) :
    ∃ p, parse (Array.replicate n byte) o = .ok p ∧
      p.tokens.toList = .literal byte :: .literal byte :: Token.ofRun byte (n - 2) := by
  obtain ⟨w, p, hdata, -, hparse, htokens⟩ := parse_eq_tokensFrom h hlevel
  refine ⟨p, hparse, ?_⟩
  rw [htokens]
  have hrun : (Setup.ofOptions w o).window.IsRun byte := Window.isRun_of_replicate hdata
  have hsize : (Setup.ofOptions w o).window.size = n := by
    rw [Window.size, Setup.ofOptions, hdata, Array.size_replicate]
  have hlazy : Lazy.noMatch < (Setup.ofOptions w o).effort.maxLazy :=
    noMatch_lt_maxLazy h.level hlevel
  have hs : (Setup.ofOptions w o).params.maxDistance = (Setup.ofOptions w o).window.reach := rfl
  generalize Setup.ofOptions w o = s at hrun hsize hlazy hs
  have hstart {pos : Nat} (hpos : pos ≤ 1) :
      Lazy.tokensFrom o.hashBits s pos (Lazy.usable o.hashBits s pos Lazy.noMatch) =
        .literal byte :: Lazy.tokensFrom o.hashBits s (pos + 1)
          (Lazy.usable o.hashBits s (pos + 1) Lazy.noMatch) := by
    rw [Lazy.usable_of_isRun_start hrun hpos, Lazy.tokensFrom_none (by omega),
      Lazy.byteAt_of_isRun hrun (by omega)]
  have hrest : Lazy.tokensFrom o.hashBits s 2 (Lazy.usable o.hashBits s 2 Lazy.noMatch) =
      Token.ofRun byte (n - 2) :=
    Lazy.tokensFrom_of_isRun hs hlazy hrun (n - 2) (by omega) (Nat.le_refl 2)
  rw [hstart (Nat.zero_le 1), hstart (Nat.le_refl 1), hrest]

/-- Two copies of the greatest length, and two bytes that are too few for a third. -/
theorem parse_replicate_left_over :
    let o : Options := ⟨4, 9, 31, .wordwise⟩
    (Accepts (Array.replicate 520 7) o ∧ lazyLevel ≤ o.level ∧ 2 ≤ 520) ∧
      ∃ p, parse (Array.replicate 520 7) o = .ok p ∧
        p.tokens.toList =
          [.literal 7, .literal 7, .copy 258 1, .copy 258 1, .literal 7, .literal 7] := by
  intro o
  have hsize : (Array.replicate 520 (7 : UInt8)).size ≤ maxPosition - guardSize := by
    rw [Array.size_replicate]
    decide
  have hbounds : Accepts (Array.replicate 520 7) o := ⟨by decide, by decide, by decide, hsize⟩
  exact ⟨⟨hbounds, by decide, by decide⟩, parse_replicate hbounds (by decide) (by decide)⟩

end Parse

end Backref
