/-
# The lazy loop is a recursion on the position

The lazy loop keeps a match it has found for one iteration, together with the
start of the last match it ever found, and indexes positions in two places. Yet
what it emits is told by a recursion that knows only a position and the match that
is held there: the match is taken if the next position has none that is longer,
and otherwise a literal is emitted and the longer one is held. Every match is that
of a search over all positions up to the current one.

Key definitions: `Parse.Lazy.chainBelow`, `Parse.Lazy.usable`,
`Parse.Lazy.tokensFrom`, `Parse.Lazy.Follows`.
Key theorems: `Parse.Lazy.look_spec`, `Parse.Lazy.follows_step`,
`Parse.Lazy.tokens_flush_run`, `Parse.parse_eq_tokensFrom`.
-/
import Backref.Parse.Lazy
import Backref.Proofs.Matches
import Backref.Proofs.Settings

namespace Backref.Parse

/-! ### What is indexed -/

namespace Setup

theorem indexable_append (s : Setup) {first mid stop : Nat} (h1 : first ≤ mid) (h2 : mid ≤ stop) :
    s.indexable first mid ++ s.indexable mid stop = s.indexable first stop := by
  rw [indexable, indexable, ← List.filter_append,
    show List.range' mid (stop - mid) = List.range' (first + (mid - first)) (stop - mid) by
      rw [show first + (mid - first) = mid by omega],
    List.range'_append_1, show mid - first + (stop - mid) = stop - first by omega]
  rfl

theorem indexable_succ (s : Setup) (pos : Nat) :
    s.indexable pos (pos + 1) = if minMatch ≤ s.window.lookahead pos then [pos] else [] := by
  rw [indexable, Nat.add_sub_cancel_left, List.range'_one, List.filter_singleton]
  by_cases h : minMatch ≤ s.window.lookahead pos <;> simp [h]

theorem index_append (s : Setup) (chain : HashChain) (ps qs : List Nat) :
    s.index (s.index chain ps) qs = s.index chain (ps ++ qs) :=
  (HashChain.insertAll_append _ _ _ _).symm

end Setup

namespace Lazy

section

variable (hashBits : Nat) (s : Setup)

/-- The chain that holds every position below `pos` that has enough bytes ahead. -/
def chainBelow (pos : Nat) : HashChain :=
  s.index (.empty s.window.bits hashBits) (s.indexable 0 pos)

/-- The newest position below `pos` in the bucket of the bytes there. -/
def headAt (pos : Nat) : Nat := (chainBelow hashBits s pos).headOf s.window.guarded pos

/-- The search at a position, over the chain of every position up to it. -/
def searchAt (pos carried : Nat) : Search.Outcome :=
  s.search (chainBelow hashBits s (pos + 1)) pos (headAt hashBits s pos) carried

/-! ### The recursion -/

/-- A match that is held: its length, `noMatch` if there is none, and how far back
it lies. -/
structure Held where
  length : Nat
  distance : Nat

def Held.none : Held := ⟨noMatch, 0⟩

/-- No search is made at a position: too few bytes lie ahead, there is no head in
reach, or the held match is so long that no longer one is looked for. -/
def Skips (pos carried : Nat) : Prop :=
  s.window.lookahead pos < minMatch ∨ headAt hashBits s pos = noPosition ∨
    s.window.reach < pos - headAt hashBits s pos ∨ s.effort.maxLazy ≤ carried

instance (pos carried : Nat) : Decidable (Skips hashBits s pos carried) :=
  inferInstanceAs (Decidable (_ ∨ _))

/-- The match that can be held at a position where a match of length `carried` is
held already: none if no search is made, or if the search finds a new match that is
short and too far back. -/
def usable (pos carried : Nat) : Held :=
  if Skips hashBits s pos carried then .none
  else
    let found := searchAt hashBits s pos carried
    match found.position with
    | some start =>
      if found.length = minMatch ∧ tooFar < pos - start then .none
      else ⟨found.length, pos - start⟩
    | none => ⟨found.length, 0⟩

/-- The tokens from a position on, where a match is held: the match, if it is one
and the next position has none that is longer, or else the byte. -/
def tokensFrom (pos : Nat) (held : Held) : List Token :=
  if pos < s.window.size then
    if minMatch ≤ held.length ∧ (pos + 1 = s.window.size ∨
        (usable hashBits s (pos + 1) held.length).length ≤ held.length) then
      .copy held.length.toUInt16 held.distance.toUInt16 ::
        tokensFrom (pos + held.length) (usable hashBits s (pos + held.length) noMatch)
    else .literal (s.byteAt pos) :: tokensFrom (pos + 1) (usable hashBits s (pos + 1) held.length)
  else []
termination_by s.window.size - pos
decreasing_by
  · rename_i h
    have := h.1
    simp only [minMatch] at this
    omega
  · omega

end

variable {hashBits : Nat} {s : Setup}

/-- The distance of a held match matters only if it is one. -/
theorem tokensFrom_congr {pos : Nat} {h h' : Held} (hlength : h.length = h'.length)
    (hdistance : minMatch ≤ h.length → h.distance = h'.distance) :
    tokensFrom hashBits s pos h = tokensFrom hashBits s pos h' := by
  obtain ⟨length, distance⟩ := h
  obtain ⟨length', distance'⟩ := h'
  simp only at hlength hdistance
  subst hlength
  by_cases hlong : minMatch ≤ length
  · rw [hdistance hlong]
  · conv_lhs => rw [tokensFrom]
    conv_rhs => rw [tokensFrom]
    simp only [hlong, false_and, if_false]

/-! ### The chain of the loop -/

theorem arrive_chainBelow (pos : Nat) :
    s.arrive (chainBelow hashBits s pos) pos =
      (if minMatch ≤ s.window.lookahead pos then headAt hashBits s pos else noPosition,
        chainBelow hashBits s (pos + 1)) := by
  have hnext : chainBelow hashBits s (pos + 1) =
      s.index (chainBelow hashBits s pos) (s.indexable pos (pos + 1)) := by
    rw [chainBelow, chainBelow, s.index_append,
      s.indexable_append (Nat.zero_le pos) (Nat.le_succ pos)]
  rw [hnext, s.indexable_succ, Setup.arrive]
  split <;> rfl

theorem index_chainBelow {pos next : Nat} (h : pos ≤ next) :
    s.index (chainBelow hashBits s pos) (s.indexable pos next) = chainBelow hashBits s next := by
  rw [chainBelow, s.index_append, s.indexable_append (Nat.zero_le pos) h]
  rfl

/-! ### One iteration -/

theorem inReach_of_not_skips {pos carried : Nat} (h : ¬ Skips hashBits s pos carried) :
    s.inReach pos (headAt hashBits s pos) = true := by
  unfold Skips at h
  simp only [Setup.inReach, Bool.and_eq_true, bne_iff_ne, ne_eq, decide_eq_true_eq]
  omega

/-- The loop searches where the recursion does. -/
theorem look_eq (pos held : Nat) :
    look s (chainBelow hashBits s (pos + 1)) pos
        (if minMatch ≤ s.window.lookahead pos then headAt hashBits s pos else noPosition) held =
      if Skips hashBits s pos held then none else some (searchAt hashBits s pos held) := by
  by_cases hskip : Skips hashBits s pos held
  · rw [if_pos hskip, look, if_neg]
    unfold Skips at hskip
    simp only [Setup.inReach, Bool.and_eq_true, bne_iff_ne, ne_eq, decide_eq_true_eq]
    split <;> omega
  · have hreach := inReach_of_not_skips hskip
    rw [if_neg hskip]
    unfold Skips at hskip
    rw [if_pos (by omega), look, if_pos, searchAt]
    rw [hreach, Bool.true_and, decide_eq_true_eq]
    omega

theorem usable_of_none {pos carried : Nat} (h : ¬ Skips hashBits s pos carried)
    (hpos : (searchAt hashBits s pos carried).position = none) :
    usable hashBits s pos carried = ⟨(searchAt hashBits s pos carried).length, 0⟩ := by
  simp only [usable, if_neg h, hpos]

theorem usable_of_some {pos carried start : Nat} (h : ¬ Skips hashBits s pos carried)
    (hpos : (searchAt hashBits s pos carried).position = some start) :
    usable hashBits s pos carried =
      if (searchAt hashBits s pos carried).length = minMatch ∧ tooFar < pos - start then .none
      else ⟨(searchAt hashBits s pos carried).length, pos - start⟩ := by
  simp only [usable, if_neg h, hpos]

/-- What the loop makes of a position agrees with what can be held there. A search
that finds nothing new answers with the length that is held, clipped, so it can
only differ where the held match is taken anyway. -/
theorem look_spec {pos held heldStart start length : Nat} {outcome : Option Search.Outcome}
    (hheld : noMatch ≤ held)
    (houtcome : (if Skips hashBits s pos held then none
      else some (searchAt hashBits s pos held)) = outcome)
    (hstart : startAfter heldStart outcome = start) (hlength : lengthAt pos start outcome = length) :
    noMatch ≤ length ∧ (minMatch ≤ length → pos + length ≤ s.window.size) ∧
      (length ≤ held ↔ (usable hashBits s pos held).length ≤ held) ∧
      (held < minMatch ∨ held < length → length = (usable hashBits s pos held).length ∧
        (minMatch ≤ length → pos - start = (usable hashBits s pos held).distance)) := by
  by_cases hskip : Skips hashBits s pos held
  · rw [if_pos hskip] at houtcome
    rw [usable, if_pos hskip, ← hlength, ← houtcome, lengthAt]
    exact ⟨Nat.le_refl _, fun h => absurd h (by decide), Iff.rfl,
      fun _ => ⟨rfl, fun h => absurd h (by decide)⟩⟩
  · rw [if_neg hskip] at houtcome
    have hahead : minMatch ≤ s.window.lookahead pos := Nat.le_of_not_lt fun h => hskip (.inl h)
    have hlookahead : s.window.lookahead pos = s.window.size - pos := rfl
    have hfits : (searchAt hashBits s pos held).length ≤ s.window.lookahead pos :=
      Nat.le_trans (Search.longest_length_le _ _ _ _ _ _) (Nat.min_le_right _ _)
    have hlength : (length = noMatch ∧ (searchAt hashBits s pos held).length = minMatch ∧
        tooFar < pos - start) ∨ (length = (searchAt hashBits s pos held).length ∧
          ¬ ((searchAt hashBits s pos held).length = minMatch ∧ tooFar < pos - start)) := by
      rw [← hlength, ← houtcome, lengthAt]
      split
      · exact .inl ⟨rfl, ‹_›⟩
      · exact .inr ⟨rfl, ‹_›⟩
    rcases hpos : (searchAt hashBits s pos held).position with _ | q
    · -- nothing new: no longer than what is held
      have hlen : (searchAt hashBits s pos held).length =
          min (max 1 held) (min maxMatch (s.window.lookahead pos)) := Setup.length_of_search hpos
      rw [usable_of_none hskip hpos]
      simp only [noMatch, minMatch, maxMatch] at hheld hahead hlen hlength ⊢
      omega
    · have hq : start = q := by
        rw [← hstart, ← houtcome, startAfter, Search.Outcome.apply, hpos, Option.getD_some]
      have hlong : held < (searchAt hashBits s pos held).length := Setup.carried_lt_of_search hpos
      rw [hq] at hlength
      rw [usable_of_some hskip hpos, hq]
      rcases hlength with ⟨hlength, hfar⟩ | ⟨hlength, hnear⟩
      · rw [if_pos hfar, hlength]
        exact ⟨Nat.le_refl _, fun h => absurd h (by decide), Iff.rfl,
          fun _ => ⟨rfl, fun h => absurd h (by decide)⟩⟩
      · rw [if_neg hnear, hlength]
        exact ⟨by omega, fun _ => by omega, Iff.rfl, fun _ => ⟨rfl, fun _ => rfl⟩⟩

/-! ### The run -/

/-- **What every state of the loop keeps.** The chain holds every position below
the current one; a match is held only where a byte is pending, and it ends within
the block. -/
structure Follows (hashBits : Nat) (s : Setup) (st : State) : Prop where
  chain : st.chain = chainBelow hashBits s st.pos
  bound : st.pos ≤ s.window.size
  floor : noMatch ≤ st.length
  idle : st.pending = false → st.length = noMatch
  behind : st.pending = true → 1 ≤ st.pos
  fits : minMatch ≤ st.length → st.pos - 1 + st.length ≤ s.window.size

theorem Follows.pending_of_long {st : State} (h : Follows hashBits s st)
    (hlong : minMatch ≤ st.length) : st.pending = true := by
  rcases hpending : st.pending with _ | _
  · rw [h.idle hpending] at hlong
    exact absurd hlong (by decide)
  · rfl

/-- The tokens still to come: from the pending byte on, or from the position. -/
def rest (hashBits : Nat) (s : Setup) (st : State) : List Token :=
  if st.pending then tokensFrom hashBits s (st.pos - 1) ⟨st.length, st.pos - 1 - st.start⟩
  else tokensFrom hashBits s st.pos (usable hashBits s st.pos noMatch)

theorem tokensFrom_take {pos : Nat} {held : Held} (hpos : pos < s.window.size)
    (hlong : minMatch ≤ held.length)
    (hnext : (usable hashBits s (pos + 1) held.length).length ≤ held.length) :
    tokensFrom hashBits s pos held = .copy held.length.toUInt16 held.distance.toUInt16 ::
      tokensFrom hashBits s (pos + held.length) (usable hashBits s (pos + held.length) noMatch) := by
  rw [tokensFrom, if_pos hpos, if_pos ⟨hlong, .inr hnext⟩]

theorem tokensFrom_defer {pos : Nat} {held : Held} (hpos : pos + 1 < s.window.size)
    (h : held.length < minMatch ∨
      held.length < (usable hashBits s (pos + 1) held.length).length) :
    tokensFrom hashBits s pos held = .literal (s.byteAt pos) ::
      tokensFrom hashBits s (pos + 1) (usable hashBits s (pos + 1) held.length) := by
  rw [tokensFrom, if_pos (by omega), if_neg (by omega)]

/-- One iteration moves tokens from those still to come to those emitted. -/
theorem follows_step {st : State} (h : Follows hashBits s st) (hpos : st.pos < s.window.size) :
    Follows hashBits s (step s st) ∧
      (step s st).journal.tokens.toList ++ rest hashBits s (step s st) =
        st.journal.tokens.toList ++ rest hashBits s st := by
  obtain ⟨pos, chain, journal, held, heldStart, pending⟩ := st
  have hlive : minMatch ≤ held → pending = true := h.pending_of_long
  obtain ⟨hchain, -, hfloor, hidle, hbehind, hfits⟩ := h
  simp only at hchain hfloor hidle hbehind hfits hpos
  subst hchain
  simp only [step, arrive_chainBelow, look_eq]
  generalize houtcome : (if Skips hashBits s pos held then none
    else some (searchAt hashBits s pos held)) = outcome
  generalize hstart : startAfter heldStart outcome = start
  generalize hlength : lengthAt pos start outcome = length
  obtain ⟨hfloor', hfits', htake, hnew⟩ := look_spec hfloor houtcome hstart hlength
  split
  · rename_i hcopy
    obtain ⟨hlong, hle⟩ := hcopy
    have hpending : pending = true := hlive hlong
    have h1 : 1 ≤ pos := hbehind hpending
    have h3 : 3 ≤ held := hlong
    have hback : pos - 1 + 1 = pos := by omega
    refine ⟨⟨index_chainBelow (by omega), hfits hlong, Nat.le_refl _, fun _ => rfl,
      fun h => absurd h Bool.false_ne_true, fun h => absurd (show 3 ≤ 2 from h) (by decide)⟩, ?_⟩
    have htokens : tokensFrom hashBits s (pos - 1) ⟨held, pos - 1 - heldStart⟩ =
        .copy held.toUInt16 (pos - 1 - heldStart).toUInt16 ::
          tokensFrom hashBits s (pos - 1 + held) (usable hashBits s (pos - 1 + held) noMatch) :=
      tokensFrom_take (by omega) hlong (by rw [hback]; exact htake.mp hle)
    simp [rest, hpending, htokens, Journal.emitCopy]
  · rename_i hdefer
    have hnew : length = (usable hashBits s pos held).length ∧
        (minMatch ≤ length → pos - start = (usable hashBits s pos held).distance) :=
      hnew (by omega)
    have hrest : tokensFrom hashBits s pos ⟨length, pos - start⟩ =
        tokensFrom hashBits s pos (usable hashBits s pos held) :=
      tokensFrom_congr hnew.1 hnew.2
    have hfollows (journal : Journal) : Follows hashBits s
        ⟨pos + 1, chainBelow hashBits s (pos + 1), journal, length, start, true⟩ :=
      ⟨rfl, hpos, hfloor', fun h => absurd h.symm Bool.false_ne_true, fun _ => Nat.succ_pos _, hfits'⟩
    split
    · rename_i hpending
      have h1 : 1 ≤ pos := hbehind hpending
      have hback : pos - 1 + 1 = pos := by omega
      have htokens : tokensFrom hashBits s (pos - 1) ⟨held, pos - 1 - heldStart⟩ =
          .literal (s.byteAt (pos - 1)) ::
            tokensFrom hashBits s pos (usable hashBits s pos held) := by
        rw [tokensFrom_defer (by omega) (by simp only [hback]; omega), hback]
      refine ⟨hfollows _, ?_⟩
      simp [rest, hpending, htokens, hrest, Journal.emitLiteral]
    · rename_i hpending
      refine ⟨hfollows _, ?_⟩
      have hheld : held = noMatch := hidle (by simpa using hpending)
      simp [rest, hpending, hrest, hheld]

/-- A run to the end of the block, and the literal flushed there, emit the tokens
still to come. -/
theorem tokens_flush_run {st : State} (h : Follows hashBits s st) :
    (flush s (run s st)).tokens.toList = st.journal.tokens.toList ++ rest hashBits s st := by
  rw [run]
  split
  · rename_i hpos
    obtain ⟨hstep, htokens⟩ := follows_step h hpos
    rw [tokens_flush_run hstep, htokens]
  · have hend : st.pos = s.window.size := by
      have := h.bound
      omega
    rw [flush, rest]
    split
    · -- the byte at the end is pending, and a match held there would leave the block
      rename_i hpending
      have h1 := h.behind hpending
      have hshort : ¬ minMatch ≤ st.length := fun hlong => by
        have hfits := h.fits hlong
        simp only [minMatch] at hlong
        omega
      have hback : st.pos - 1 + 1 = st.pos := by omega
      rw [tokensFrom, if_pos (by omega), if_neg (fun hcopy => hshort hcopy.1), hback, tokensFrom,
        if_neg (by omega)]
      simp [Journal.emitLiteral]
    · rw [tokensFrom, if_neg (by omega)]
      simp
termination_by s.window.size - st.pos
decreasing_by have := pos_lt_step s st; omega

theorem follows_start : Follows hashBits s (start hashBits s) where
  chain := by simp only [start, chainBelow, Setup.indexable]; rfl
  bound := Nat.zero_le _
  floor := Nat.le_refl _
  idle := fun _ => rfl
  behind := fun h => absurd h Bool.false_ne_true
  fits := fun h => absurd (show 3 ≤ 2 from h) (by decide)

theorem tokens_flush_run_start : (flush s (run s (start hashBits s))).tokens.toList =
    tokensFrom hashBits s 0 (usable hashBits s 0 noMatch) := by
  rw [tokens_flush_run follows_start]
  rfl

end Lazy

theorem journal_of_lazyLevel_le {hashBits : Nat} {w : Window} {o : Options}
    (h : levelLimits.Admits o.level) (hlevel : lazyLevel ≤ o.level) :
    journal hashBits (.ofOptions w o) =
      Lazy.flush (.ofOptions w o) (Lazy.run (.ofOptions w o) (Lazy.start hashBits (.ofOptions w o))) := by
  rw [journal, strategy_of_lazyLevel_le w h hlevel]

/-- **A parse at a lazy level emits the tokens of the recursion**, from the first
byte on and with the match that can be held there. -/
theorem parse_eq_tokensFrom {data : Array UInt8} {o : Options} (h : Accepts data o)
    (hlevel : lazyLevel ≤ o.level) :
    ∃ (w : Window) (p : Parsed), w.data = data ∧ w.bits = o.windowBits ∧ parse data o = .ok p ∧
      p.tokens.toList = Lazy.tokensFrom o.hashBits (.ofOptions w o) 0
        (Lazy.usable o.hashBits (.ofOptions w o) 0 Lazy.noMatch) := by
  obtain ⟨w, hdata, hbits, hparse⟩ := parse_eq_ok h
  refine ⟨w, _, hdata, hbits, hparse, ?_⟩
  rw [journal_of_lazyLevel_le h.level hlevel]
  exact Lazy.tokens_flush_run_start

/-- A block whose second byte starts a longer match than the first, at the least
lazy level and the smallest window. -/
theorem parse_eq_tokensFrom_deferral :
    let data : Array UInt8 := #[0, 97, 98, 99, 98, 99, 100, 101, 97, 98, 99, 100, 101]
    let o : Options := ⟨4, 9, 6, .bytewise⟩
    (Accepts data o ∧ lazyLevel ≤ o.level) ∧
      ∃ (w : Window) (p : Parsed), w.data = data ∧ w.bits = o.windowBits ∧ parse data o = .ok p ∧
        p.tokens.toList = Lazy.tokensFrom o.hashBits (.ofOptions w o) 0
          (Lazy.usable o.hashBits (.ofOptions w o) 0 Lazy.noMatch) := by
  have hbounds : Accepts #[0, 97, 98, 99, 98, 99, 100, 101, 97, 98, 99, 100, 101]
      ⟨4, 9, 6, .bytewise⟩ :=
    ⟨by decide, by decide, by decide, by decide⟩
  exact ⟨⟨hbounds, by decide⟩, parse_eq_tokensFrom hbounds (by decide)⟩

end Backref.Parse
