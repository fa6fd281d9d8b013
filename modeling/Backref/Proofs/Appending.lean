/-
# Input that is appended changes no decision made with enough lookahead

A token is decided by the bytes up to the longest copy that could start there or, if
its match is held back, one position later, and by the three bytes of each position
that is indexed. All of them lie less than `minLookahead` behind its start. So a
parse of a block and a parse of the same block with more input behind it go through
the same states for as long as `minLookahead` bytes are buffered, and emit the same
tokens there.

Key definitions: `Parse.Setup.Extends`.
Key theorems: `Parse.Setup.Extends.search_eq`, `Parse.Greedy.step_eq_of_extends`,
`Parse.Lazy.step_eq_of_extends`, `Parse.parse_append`.
-/
import Backref.Proofs.LazyStates
import Backref.Proofs.RoundTrip

namespace Backref.Parse

/-- The block of `t` begins with the block of `s`, and all else is the same but for the
comparator. -/
structure Setup.Extends (t s : Setup) : Prop where
  params : t.params = s.params
  effort : t.effort = s.effort
  bits : t.window.bits = s.window.bits
  size_le : s.window.size ≤ t.window.size
  same : ∀ i < s.window.size, t.window.data[i]? = s.window.data[i]?

/-- The offset up to which `minLookahead` bytes lie ahead. -/
def Setup.horizon (s : Setup) : Nat := s.window.size + 1 - minLookahead

theorem Setup.lt_horizon_iff {s : Setup} {pos : Nat} :
    pos < s.horizon ↔ pos + minLookahead ≤ s.window.size := by
  simp only [horizon, minLookahead, maxMatch, minMatch]
  omega

/-! ### What both blocks agree on -/

namespace Setup.Extends

variable {s t : Setup} {pos : Nat}

theorem le_lookahead (h : t.Extends s) {n : Nat} (hpos : pos + n ≤ s.window.size) :
    n ≤ s.window.lookahead pos ∧ n ≤ t.window.lookahead pos := by
  have hsize := h.size_le
  have hs : s.window.lookahead pos = s.window.size - pos := rfl
  have ht : t.window.lookahead pos = t.window.size - pos := rfl
  omega

theorem guarded_eq (h : t.Extends s) (hpos : pos < s.window.size) :
    t.window.guarded[pos]? = s.window.guarded[pos]? := by
  rw [Window.getElem?_guarded_of_lt hpos,
    Window.getElem?_guarded_of_lt (Nat.lt_of_lt_of_le hpos h.size_le), h.same pos hpos]

theorem byteAt_eq (h : t.Extends s) (hpos : pos < s.window.size) :
    t.byteAt pos = s.byteAt pos := by
  rw [byteAt, byteAt, Array.getD_eq_getD_getElem?, Array.getD_eq_getD_getElem?, h.same pos hpos]

theorem hashAt_eq (h : t.Extends s) (hpos : pos + minMatch ≤ s.window.size) (c : HashChain) :
    c.hashAt t.window.guarded pos = c.hashAt s.window.guarded pos :=
  HashChain.hashAt_congr fun _ hk => h.guarded_eq (by omega)

theorem arrive_eq (h : t.Extends s) (hpos : pos + minMatch ≤ s.window.size) (c : HashChain) :
    t.arrive c pos = s.arrive c pos := by
  obtain ⟨hs, ht⟩ := h.le_lookahead hpos
  rw [arrive, arrive, if_pos hs, if_pos ht]
  exact HashChain.insert_congr (h.hashAt_eq hpos c)

theorem indexable_eq (h : t.Extends s) {first stop : Nat}
    (hstop : stop + (minMatch - 1) ≤ s.window.size) :
    t.indexable first stop = s.indexable first stop := by
  refine List.filter_congr fun p hp => ?_
  obtain ⟨hge, hlt⟩ := List.mem_range'_1.mp hp
  have hpos : p + minMatch ≤ s.window.size := by
    simp only [minMatch] at hstop ⊢
    omega
  obtain ⟨hs, ht⟩ := h.le_lookahead hpos
  rw [decide_eq_true hs, decide_eq_true ht]

theorem index_eq (h : t.Extends s) {positions : List Nat}
    (hpositions : ∀ p ∈ positions, p + minMatch ≤ s.window.size) (c : HashChain) :
    t.index c positions = s.index c positions :=
  HashChain.insertAll_congr (fun p hp => h.hashAt_eq (hpositions p hp)) c

theorem index_indexable_eq (h : t.Extends s) {first stop : Nat}
    (hstop : stop + (minMatch - 1) ≤ s.window.size) (c : HashChain) :
    t.index c (t.indexable first stop) = s.index c (s.indexable first stop) := by
  rw [h.indexable_eq hstop]
  refine h.index_eq (fun p hp => ?_) c
  have hlt := (mem_indexable.mp hp).2.1
  simp only [minMatch] at hstop ⊢
  omega

theorem inReach_eq (h : t.Extends s) (pos head : Nat) :
    t.inReach pos head = s.inReach pos head := by
  rw [inReach, inReach, Window.reach, Window.reach, h.bits]

/-- A search is the same if the longest copy there could be fits in the shorter
block. -/
theorem search_eq (h : t.Extends s) (hpos : pos + maxMatch ≤ s.window.size) (c : HashChain)
    (head carried : Nat) : t.search c pos head carried = s.search c pos head carried := by
  obtain ⟨hahead, hahead'⟩ := h.le_lookahead hpos
  calc t.search c pos head carried
      = Search.longest t.comparator t.window.guarded c.view pos head
          ((s.params.withCarried carried).withLookahead (t.window.lookahead pos)) := by
        rw [search, h.params]
        rfl
    _ = Search.longest t.comparator t.window.guarded c.view pos head
          ((s.params.withCarried carried).withLookahead (s.window.lookahead pos)) :=
        Search.longest_withLookahead _ _ _ _ _ _ (by omega)
    _ = Search.longest s.comparator s.window.guarded c.view pos head
          ((s.params.withCarried carried).withLookahead (s.window.lookahead pos)) := by
        refine Search.longest_congr fun i hi => h.guarded_eq ?_
        have hcap : min maxMatch (s.window.lookahead pos) = maxMatch := Nat.min_eq_left hahead
        simp only [Search.Params.cap, Search.Params.withLookahead, hcap] at hi
        omega
    _ = s.search c pos head carried := rfl

end Setup.Extends

/-! ### The greedy loop -/

namespace Greedy

variable {s t : Setup} {st : State}

theorem outcomeAt_eq_of_extends (h : t.Extends s) (hpos : st.pos + maxMatch ≤ s.window.size) :
    outcomeAt t st = outcomeAt s st := by
  simp only [maxMatch] at hpos
  rw [outcomeAt, outcomeAt, h.arrive_eq (by simp only [minMatch]; omega), look, look,
    h.inReach_eq, h.search_eq hpos]

/-- **One iteration is the same** with `minLookahead` bytes ahead. -/
theorem step_eq_of_extends (h : t.Extends s) (hs : s.params.maxDistance = s.window.reach)
    (hpos : st.pos + minLookahead ≤ s.window.size) : step t st = step s st := by
  simp only [minLookahead, maxMatch, minMatch] at hpos
  have houtcome : outcomeAt t st = outcomeAt s st :=
    outcomeAt_eq_of_extends h (by simp only [maxMatch]; omega)
  have harrive : t.arrive st.chain st.pos = s.arrive st.chain st.pos :=
    h.arrive_eq (by simp only [minMatch]; omega) st.chain
  rcases hchoose : choose (outcomeAt s st) with _ | ⟨length, start⟩
  · rw [step_of_literal hchoose, step_of_literal (houtcome ▸ hchoose), harrive, houtcome,
      h.byteAt_eq (by omega)]
  · have hlength := (repeats_of_choose hs hchoose).le_maxMatch
    simp only [maxMatch] at hlength
    have hindex (c : HashChain) : t.index c (followers t st.pos length) =
        s.index c (followers s st.pos length) := by
      rw [followers, followers, h.effort]
      split
      · exact h.index_indexable_eq (by simp only [minMatch]; omega) c
      · rfl
    rw [step_of_copy hchoose, step_of_copy (houtcome ▸ hchoose), harrive, houtcome, hindex]

theorem lockstep_of_extends (h : t.Extends s) (hs : s.params.maxDistance = s.window.reach) :
    Lockstep (loop s) (loop t) (fun st => st.journal.tokens.toList)
      (fun st => st.journal.tokens.toList) s.horizon
      (fun a b => b = a ∧ Described s a) where
  same := by
    rintro a b ⟨rfl, -⟩
    rfl
  both := by
    rintro a b ⟨rfl, hb⟩ hstop
    have hsize := h.size_le
    rw [hb.covered, Setup.lt_horizon_iff] at hstop
    simp only [minLookahead, maxMatch, minMatch, loop] at hstop ⊢
    omega
  step := by
    rintro a b ⟨rfl, hb⟩ hstop hlt
    rw [hb.covered, Setup.lt_horizon_iff] at hstop
    exact ⟨step_eq_of_extends h hs hstop, described_step hs hlt hb⟩

theorem placed_run_of_extends (h : t.Extends s) (hs : s.params.maxDistance = s.window.reach)
    (hashBits : Nat) :
    (Token.placed 0 (run t (start hashBits t)).journal.tokens.toList).filter (·.1 < s.horizon) =
      (Token.placed 0 (run s (start hashBits s)).journal.tokens.toList).filter
        (·.1 < s.horizon) := by
  have hstart : start hashBits t = start hashBits s := by rw [start, start, h.bits]
  rw [hstart, run_eq, run_eq]
  rcases (lockstep_of_extends h hs).run (tokens_isPrefix_step s) (tokens_isPrefix_step t)
      (a := start hashBits s) ⟨rfl, Nat.zero_le _, rfl, trivial⟩ with ⟨heq, -⟩ | hcommon
  · rw [heq]
  · obtain ⟨common, hstop, hrun, hrun'⟩ := hcommon
    exact Token.filter_placed_of_common hstop hrun' hrun

end Greedy

/-! ### The lazy loop -/

namespace Lazy

variable {s t : Setup} {st : State}

theorem outcomeAt_eq_of_extends (h : t.Extends s) (hpos : st.pos + maxMatch ≤ s.window.size) :
    outcomeAt t st = outcomeAt s st := by
  simp only [maxMatch] at hpos
  rw [outcomeAt, outcomeAt, h.arrive_eq (by simp only [minMatch]; omega), look, look,
    h.inReach_eq, h.search_eq hpos, h.effort]

/-- **One iteration is the same** if the byte before the position has `minLookahead`
bytes ahead. -/
theorem step_eq_of_extends (h : t.Extends s) (hsound : Sound s st)
    (hpos : st.pos + minLookahead ≤ s.window.size + 1) : step t st = step s st := by
  simp only [minLookahead, maxMatch, minMatch] at hpos
  have houtcome : outcomeAt t st = outcomeAt s st :=
    outcomeAt_eq_of_extends h (by simp only [maxMatch]; omega)
  have harrive : t.arrive st.chain st.pos = s.arrive st.chain st.pos :=
    h.arrive_eq (by simp only [minMatch]; omega) st.chain
  have hstart : startFound t st = startFound s st := by rw [startFound, startFound, houtcome]
  have hlength : lengthFound t st = lengthFound s st := by
    rw [lengthFound, lengthFound, houtcome, hstart]
  by_cases htakes : Takes s st
  · have hle := (hsound.held htakes.1).2.le_maxMatch
    simp only [maxMatch] at hle
    have hnext : st.pos - 1 + st.length + (minMatch - 1) ≤ s.window.size := by
      simp only [minMatch]
      omega
    have hindex (c : HashChain) :
        t.index c (t.indexable (st.pos + 1) (st.pos - 1 + st.length)) =
          s.index c (s.indexable (st.pos + 1) (st.pos - 1 + st.length)) :=
      h.index_indexable_eq hnext c
    have htakes' : Takes t st := by rwa [Takes, hlength]
    rw [step_of_takes htakes, step_of_takes htakes', harrive, houtcome, hstart, hindex]
  · have htakes' : ¬ Takes t st := by rwa [Takes, hlength]
    rcases hpending : st.pending with _ | _
    · rw [step_of_idle htakes hpending, step_of_idle htakes' hpending, harrive, houtcome, hstart,
        hlength]
    · rw [step_of_pending htakes hpending, step_of_pending htakes' hpending, harrive, houtcome,
        hstart, hlength, h.byteAt_eq (by omega)]

theorem lockstep_of_extends (h : t.Extends s) (hs : s.params.maxDistance = s.window.reach) :
    Lockstep (loop s) (loop t) (fun st => st.journal.tokens.toList)
      (fun st => st.journal.tokens.toList) s.horizon
      (fun a b => b = a ∧ Sound s a) where
  same := by
    rintro a b ⟨rfl, -⟩
    rfl
  both := by
    rintro a b ⟨rfl, hb⟩ hstop
    have hsize := h.size_le
    have hcovered := hb.covered
    have hpending := b.pending.toNat_le
    rw [Setup.lt_horizon_iff] at hstop
    simp only [minLookahead, maxMatch, minMatch, loop] at hstop ⊢
    omega
  step := by
    rintro a b ⟨rfl, hb⟩ hstop hlt
    have hcovered := hb.covered
    have hpending := b.pending.toNat_le
    rw [Setup.lt_horizon_iff] at hstop
    exact ⟨step_eq_of_extends h hb (by omega), sound_step hs hlt hb⟩

theorem placed_flush_run_of_extends (h : t.Extends s)
    (hs : s.params.maxDistance = s.window.reach) (hashBits : Nat) :
    (Token.placed 0 (flush t (run t (start hashBits t))).tokens.toList).filter (·.1 < s.horizon) =
      (Token.placed 0 (flush s (run s (start hashBits s))).tokens.toList).filter
        (·.1 < s.horizon) := by
  have hstart : start hashBits t = start hashBits s := by
    simp only [start, h.bits]
  rw [hstart, run_eq, run_eq]
  rcases (lockstep_of_extends h hs).run (tokens_isPrefix_step s) (tokens_isPrefix_step t)
      (a := start hashBits s) ⟨rfl, sound_start hashBits s⟩ with ⟨heq, hsound⟩ | hcommon
  · rw [heq, flush, flush]
    split
    · rename_i hpending
      have hpos := hsound.pos_of_pending hpending
      have hle := hsound.pos_le
      rw [h.byteAt_eq (by omega)]
    · rfl
  · obtain ⟨common, hstop, hrun, hrun'⟩ := hcommon
    exact Token.filter_placed_of_common hstop (hrun'.trans (tokens_isPrefix_flush t _))
      (hrun.trans (tokens_isPrefix_flush s _))

end Lazy

/-! ### A whole parse -/

theorem extends_ofOptions {w v : Window} {o : Options} (hbits : v.bits = w.bits)
    (hsize : w.size ≤ v.size) (hsame : ∀ i < w.size, v.data[i]? = w.data[i]?) :
    (Setup.ofOptions v o).Extends (.ofOptions w o) where
  params := by simp only [Setup.ofOptions, Window.reach, hbits]
  effort := rfl
  bits := hbits
  size_le := hsize
  same := hsame

theorem placed_journal_of_extends (hashBits : Nat) {w v : Window} {o : Options}
    (h : levelLimits.Admits o.level) (hextends : (Setup.ofOptions v o).Extends (.ofOptions w o)) :
    let horizon := (Setup.ofOptions w o).horizon
    (Token.placed 0 (journal hashBits (.ofOptions v o)).tokens.toList).filter (·.1 < horizon) =
      (Token.placed 0 (journal hashBits (.ofOptions w o)).tokens.toList).filter
        (·.1 < horizon) := by
  have hs : (Setup.ofOptions w o).params.maxDistance = (Setup.ofOptions w o).window.reach := rfl
  rcases Nat.lt_or_ge o.level lazyLevel with hlevel | hlevel
  · rw [journal_of_lt_lazyLevel h hlevel, journal_of_lt_lazyLevel h hlevel]
    exact Greedy.placed_run_of_extends hextends hs hashBits
  · rw [journal_of_lazyLevel_le h hlevel, journal_of_lazyLevel_le h hlevel]
    exact Lazy.placed_flush_run_of_extends hextends hs hashBits

/-- **Appending input never changes a decision made with `minLookahead` bytes
buffered.** The tokens of a block that start where so many bytes lie ahead are the
tokens of the longer block that start there. -/
theorem parse_append {x y : Array UInt8} {o : Options} (h : Accepts (x ++ y) o) :
    ∃ p q, parse x o = .ok p ∧ parse (x ++ y) o = .ok q ∧
      (Token.placed 0 p.tokens.toList).filter (fun t => t.1 + minLookahead ≤ x.size) =
        (Token.placed 0 q.tokens.toList).filter (fun t => t.1 + minLookahead ≤ x.size) := by
  have hsize := h.size
  rw [Array.size_append] at hsize
  have hshort : Accepts x o := ⟨h.level, h.windowBits, h.hashBits, by omega⟩
  obtain ⟨w, hw, hwbits, hparse⟩ := parse_eq_ok hshort
  obtain ⟨v, hv, hvbits, hparse'⟩ := parse_eq_ok h
  refine ⟨_, _, hparse, hparse', ?_⟩
  have hextends : (Setup.ofOptions v o).Extends (.ofOptions w o) := by
    refine extends_ofOptions (hvbits.trans hwbits.symm) ?_ fun i hi => ?_
    · rw [Window.size, Window.size, hw, hv, Array.size_append]
      omega
    · rw [Window.size, hw] at hi
      rw [hw, hv, Array.getElem?_append, if_pos hi]
  have hhorizon : (fun t : Nat × Token => decide (t.1 + minLookahead ≤ x.size)) =
      fun t => decide (t.1 < (Setup.ofOptions w o).horizon) := by
    funext t
    have hsize : (Setup.ofOptions w o).window.size = x.size := congrArg Array.size hw
    rw [decide_eq_decide, Setup.lt_horizon_iff, hsize]
  rw [hhorizon]
  exact (placed_journal_of_extends o.hashBits h.level hextends).symm

/-- A run of one byte, cut short by the longest match; the first tokens are decided
before the cut. -/
theorem parse_append_run :
    let x : Array UInt8 := Array.replicate 270 7
    let y : Array UInt8 := #[7, 7, 8]
    let o : Options := ⟨9, 9, 31, .wordwise⟩
    Accepts (x ++ y) o ∧
      ∃ p q, parse x o = .ok p ∧ parse (x ++ y) o = .ok q ∧
        (Token.placed 0 p.tokens.toList).filter (fun t => t.1 + minLookahead ≤ x.size) =
          (Token.placed 0 q.tokens.toList).filter (fun t => t.1 + minLookahead ≤ x.size) := by
  intro x y o
  have hsize : (x ++ y).size ≤ maxPosition - guardSize := by
    rw [Array.size_append, Array.size_replicate]
    decide
  have hbounds : Accepts (x ++ y) o := ⟨by decide, by decide, by decide, hsize⟩
  exact ⟨hbounds, parse_append hbounds⟩

end Backref.Parse
