/-
# The window size changes no token that starts within its reach

A window limits a parse in three ways: a match may not lie farther back than its reach,
links at or below the floor are not followed, and positions a window apart share a slot
of the chain. None of the three is felt before a position has passed the reach: every
earlier position is near enough, the floor is zero, and no slot has been used twice. So
a parse and a parse of the same block with a larger window go through the same searches
for as long as tokens start within the reach of the smaller window.

Key definitions: `HashChain.Mirrors`, `Parse.Journal.Shares`, `Parse.Setup.Widens`,
`Parse.Greedy.Abreast`, `Parse.Lazy.Abreast`.
Key theorems: `HashChain.Mirrors.insert`, `Search.longest_of_wider`,
`Parse.Greedy.abreast_step`, `Parse.Lazy.abreast_step`, `Parse.journal_of_widens`,
`Parse.parse_windowBits`.
-/
import Backref.Proofs.Buckets
import Backref.Proofs.LazyStates
import Backref.Proofs.RoundTrip

namespace Backref

/-- The longest copy at a position within reach ends within the span. -/
theorem Window.reach_add_maxMatch_lt_span (w : Window) : w.reach + maxMatch < w.span := by
  have h : 2 ^ 9 ≤ 2 ^ w.bits := Nat.pow_le_pow_right Nat.two_pos w.bits_admitted.1
  simp only [span, reach, Backref.reach, minLookahead, maxMatch, minMatch]
  omega

/-! ### Chains that fold no position -/

namespace HashChain

/-- Two chains answer the same on every position below the span. -/
structure Mirrors (bytes : Array UInt8) (span : Nat) (c d : HashChain) : Prop where
  hashAt : ∀ pos, d.hashAt bytes pos = c.hashAt bytes pos
  headOf : ∀ pos, d.headOf bytes pos = c.headOf bytes pos
  next? : ∀ pos < span, d.view.next? pos = c.view.next? pos
  /-- Each position below the span is its own slot, in both. -/
  unfolded : ∀ pos < span, pos &&& c.windowMask = pos ∧ pos &&& d.windowMask = pos

variable {bytes : Array UInt8} {span : Nat} {c d : HashChain}

theorem mirrors_empty {small large : Nat} (h : small ≤ large) (hashBits : Nat)
    (bytes : Array UInt8) :
    Mirrors bytes (2 ^ small) (empty small hashBits) (empty large hashBits) := by
  have hlarge : 2 ^ small ≤ 2 ^ large := Nat.pow_le_pow_right Nat.two_pos h
  exact
    { hashAt := fun _ => rfl
      headOf := fun pos => by rw [headOf_empty, headOf_empty]
      next? := fun pos _ => by rw [next?_empty, next?_empty]
      unfolded := fun pos hpos =>
        ⟨Nat.and_two_pow_sub_one_of_lt_two_pow hpos,
          Nat.and_two_pow_sub_one_of_lt_two_pow (Nat.lt_of_lt_of_le hpos hlarge)⟩ }

/-- **Inserting a position below the span keeps two chains alike**, and both answer with
the same head. -/
theorem Mirrors.insert (h : Mirrors bytes span c d) {pos : Nat} (hpos : pos < span) :
    (d.insert bytes pos).1 = (c.insert bytes pos).1 ∧
      Mirrors bytes span (c.insert bytes pos).2 (d.insert bytes pos).2 := by
  refine ⟨h.headOf pos, ⟨h.hashAt, fun other => ?_, fun other hother => ?_, h.unfolded⟩⟩
  · rw [headOf_insert, headOf_insert, h.hashAt, h.hashAt, h.headOf]
  · rw [next?_insert, next?_insert, (h.unfolded pos hpos).1, (h.unfolded pos hpos).2,
      (h.unfolded other hother).1, (h.unfolded other hother).2, h.headOf, h.next? other hother]

theorem Mirrors.insertAll {ps : List Nat} (hps : ∀ p ∈ ps, p < span)
    (h : Mirrors bytes span c d) :
    Mirrors bytes span (c.insertAll bytes ps) (d.insertAll bytes ps) := by
  induction ps generalizing c d with
  | nil => exact h
  | cons p ps ih =>
    exact ih (fun q hq => hps q (List.mem_cons_of_mem _ hq))
      (h.insert (hps p List.mem_cons_self)).2

end HashChain

/-! ### A search within reach -/

/-- The candidates of a search depend only on the links of earlier positions. -/
theorem Links.candidates_congr {l m : Links} {floor current : Nat}
    (h : ∀ pos < current, m.next? pos = l.next? pos) (budget : Nat) :
    ∀ {pos : Nat}, pos < current →
      m.candidates floor current budget pos = l.candidates floor current budget pos := by
  induction budget with
  | zero => intros; rfl
  | succ n ih =>
    intro pos hpos
    have hlink : m.link? floor current pos = l.link? floor current pos := by
      rw [link?, link?, h pos hpos]
    rw [candidates, candidates, hlink]
    rcases hnext : l.link? floor current pos with _ | next
    · rfl
    · exact congrArg (pos :: ·) (ih (lt_of_link? hnext))

/-- A search at a position that is within reach of all before it finds the same with a
farther reach. -/
theorem Search.longest_of_wider (comparator comparator' : Comparator) (bytes : Array UInt8)
    {l m : Links} {current : Nat} (head : Nat) {p : Params} {far : Nat}
    (hlinks : ∀ pos < current, m.next? pos = l.next? pos) (hnear : current ≤ p.maxDistance)
    (hfar : p.maxDistance ≤ far) :
    longest comparator' bytes m current head { p with maxDistance := far } =
      longest comparator bytes l current head p := by
  have hcap : Params.cap { p with maxDistance := far } = p.cap := rfl
  have hbaseline : Params.baseline { p with maxDistance := far } = p.baseline := rfl
  have hopens : Params.Opens { p with maxDistance := far } current head ↔
      p.Opens current head := by
    have hreach : current - head ≤ far ↔ current - head ≤ p.maxDistance := by omega
    rw [Params.Opens, Params.Opens, hcap, hbaseline, hreach]
  by_cases h : p.Opens current head
  · -- neither floor keeps a link out
    have hfloor : current - far = current - p.maxDistance := by omega
    have hcandidates : candidates m current head { p with maxDistance := far } =
        candidates l current head p := by
      rw [candidates, candidates, hfloor]
      exact Links.candidates_congr hlinks p.budget h.2.1
    have hbest : best bytes m current head { p with maxDistance := far } =
        best bytes l current head p := by
      rw [best, best, hcandidates]
      rfl
    rw [longest_of_opens (hopens.mpr h), longest_of_opens h, hcandidates, hbest]
    rfl
  · rw [longest_of_not_opens (mt hopens.mp h), longest_of_not_opens h]
    rfl

namespace Parse

/-! ### Journals that agree up to an offset -/

/-- The journals are the same, or they have the tokens up to an offset in common. -/
def Journal.Shares (stop : Nat) (j k : Journal) : Prop :=
  k = j ∨ ∃ common, stop ≤ Token.coveredAll common ∧
    common <+: j.tokens.toList ∧ common <+: k.tokens.toList

theorem Journal.Shares.filter_placed {stop : Nat} {j k : Journal} (h : j.Shares stop k) :
    (Token.placed 0 j.tokens.toList).filter (·.1 < stop) =
      (Token.placed 0 k.tokens.toList).filter (·.1 < stop) := by
  rcases h with rfl | ⟨common, hcovered, hj, hk⟩
  · rfl
  · exact Token.filter_placed_of_common hcovered hj hk

/-- Journals that agree past the end of what one of them covers are the same. -/
theorem Journal.Shares.eq_of_lt {stop : Nat} {j k : Journal} (h : j.Shares stop k)
    (hstop : Token.coveredAll j.tokens.toList < stop) : k = j := by
  rcases h with rfl | ⟨common, hcovered, ⟨rest, hj⟩, -⟩
  · rfl
  · rw [← hj, Token.covered_append] at hstop
    omega

/-! ### What both windows agree on -/

/-- The window of `t` holds the same block as that of `s` and is at least as large; all
else is the same but for the comparator. -/
structure Setup.Widens (t s : Setup) : Prop where
  data : t.window.data = s.window.data
  bits_le : s.window.bits ≤ t.window.bits
  effort : t.effort = s.effort
  params : t.params = { s.params with maxDistance := t.window.reach }
  maxDistance : s.params.maxDistance = s.window.reach

namespace Setup.Widens

variable {s t : Setup} {c d : HashChain} {pos : Nat}

theorem reach_le (h : t.Widens s) : s.window.reach ≤ t.window.reach :=
  Nat.sub_le_sub_right (Nat.pow_le_pow_right Nat.two_pos h.bits_le) _

theorem guarded_eq (h : t.Widens s) : t.window.guarded = s.window.guarded := by
  rw [Window.guarded_eq, Window.guarded_eq, h.data]

theorem size_eq (h : t.Widens s) : t.window.size = s.window.size := by
  rw [Window.size, Window.size, h.data]

theorem lookahead_eq (h : t.Widens s) (pos : Nat) :
    t.window.lookahead pos = s.window.lookahead pos := by
  rw [Window.lookahead, Window.lookahead, h.data]

theorem byteAt_eq (h : t.Widens s) (pos : Nat) : t.byteAt pos = s.byteAt pos := by
  rw [Setup.byteAt, Setup.byteAt, h.data]

theorem indexable_eq (h : t.Widens s) (first stop : Nat) :
    t.indexable first stop = s.indexable first stop := by
  simp only [Setup.indexable, h.lookahead_eq]

/-- A position within reach has every earlier one within reach. -/
theorem inReach_eq (h : t.Widens s) (hpos : pos ≤ s.window.reach) (head : Nat) :
    t.inReach pos head = s.inReach pos head := by
  have hnear : pos - head ≤ s.window.reach := by omega
  rw [Setup.inReach, Setup.inReach, decide_eq_true hnear,
    decide_eq_true (Nat.le_trans hnear h.reach_le)]

section

variable (h : t.Widens s) (hchain : HashChain.Mirrors s.window.guarded s.window.span c d)

include h hchain

theorem mirrors_arrive (hpos : pos < s.window.span) :
    (t.arrive d pos).1 = (s.arrive c pos).1 ∧
      HashChain.Mirrors s.window.guarded s.window.span (s.arrive c pos).2 (t.arrive d pos).2 := by
  rw [Setup.arrive, Setup.arrive, h.lookahead_eq, h.guarded_eq]
  split
  · exact hchain.insert hpos
  · exact ⟨rfl, hchain⟩

theorem mirrors_index {first stop : Nat} (hstop : stop ≤ s.window.span) :
    HashChain.Mirrors s.window.guarded s.window.span (s.index c (s.indexable first stop))
      (t.index d (t.indexable first stop)) := by
  rw [Setup.index, Setup.index, h.guarded_eq, h.indexable_eq]
  exact hchain.insertAll fun p hp => Nat.lt_of_lt_of_le (mem_indexable.mp hp).2.1 hstop

/-- **A search within reach finds the same in the larger window.** -/
theorem search_eq (hpos : pos ≤ s.window.reach) (head carried : Nat) :
    t.search d pos head carried = s.search c pos head carried := by
  have hspan := s.window.reach_add_maxMatch_lt_span
  have hlinks : ∀ p < pos, d.view.next? p = c.view.next? p :=
    fun p hp => hchain.next? p (by omega)
  have hnear : pos ≤ s.params.maxDistance := by rw [h.maxDistance]; exact hpos
  have hfar : s.params.maxDistance ≤ t.window.reach := by rw [h.maxDistance]; exact h.reach_le
  rw [Setup.search, Setup.search, h.guarded_eq, h.lookahead_eq, h.params]
  exact Search.longest_of_wider s.comparator t.comparator s.window.guarded head
    (p := (s.params.withLookahead (s.window.lookahead pos)).withCarried carried) hlinks hnear hfar

end

end Setup.Widens

/-! ### The greedy loop -/

namespace Greedy

/-- Two states of the loop that differ only in how large their windows are. -/
structure Abreast (s : Setup) (a b : State) : Prop where
  pos : b.pos = a.pos
  journal : b.journal = a.journal
  chain : HashChain.Mirrors s.window.guarded s.window.span a.chain b.chain

variable {s t : Setup} {a b : State}

theorem abreast_start (h : t.Widens s) (hashBits : Nat) :
    Abreast s (start hashBits s) (start hashBits t) :=
  ⟨rfl, rfl, HashChain.mirrors_empty h.bits_le hashBits _⟩

/-- **One iteration within reach is the same in the larger window.** -/
theorem abreast_step (h : t.Widens s) (hab : Abreast s a b) (hpos : a.pos ≤ s.window.reach) :
    Abreast s (step s a) (step t b) := by
  have hspan := s.window.reach_add_maxMatch_lt_span
  have hbelow : a.pos < s.window.span := by omega
  obtain ⟨harrive, hchain⟩ := h.mirrors_arrive hab.chain hbelow
  have houtcome : outcomeAt t b = outcomeAt s a := by
    rw [outcomeAt, outcomeAt, hab.pos, harrive, look, look, h.inReach_eq hpos,
      h.search_eq hchain hpos]
  rcases hchoose : choose (outcomeAt s a) with _ | ⟨length, start⟩
  · rw [step_of_literal hchoose, step_of_literal (houtcome ▸ hchoose), hab.pos, hab.journal,
      houtcome, h.byteAt_eq]
    exact ⟨rfl, rfl, hchain⟩
  · have hlength := (repeats_of_choose h.maxDistance hchoose).le_maxMatch
    rw [step_of_copy hchoose, step_of_copy (houtcome ▸ hchoose), hab.pos, hab.journal, houtcome]
    refine ⟨rfl, rfl, ?_⟩
    rw [followers, followers, h.effort]
    simp only
    split
    · exact h.mirrors_index hchain (by omega)
    · exact hchain

theorem lockstep_of_widens (h : t.Widens s) {stop : Nat}
    (hstop : min stop s.window.size ≤ s.window.reach) :
    Lockstep (loop s) (loop t) (fun st => st.journal.tokens.toList)
      (fun st => st.journal.tokens.toList) stop
      (fun a b => Abreast s a b ∧ Described s a) where
  same := by
    rintro a b ⟨hab, -⟩
    rw [hab.journal]
  both := by
    rintro a b ⟨hab, -⟩ -
    simp only [loop, hab.pos, h.size_eq]
  step := by
    rintro a b ⟨hab, ha⟩ hbefore hlt
    simp only [loop] at hlt
    rw [ha.covered] at hbefore
    exact ⟨abreast_step h hab (by omega), described_step h.maxDistance hlt ha⟩

theorem run_of_widens (h : t.Widens s) (hashBits : Nat) {stop : Nat}
    (hstop : min stop s.window.size ≤ s.window.reach) :
    (run s (start hashBits s)).journal.Shares stop (run t (start hashBits t)).journal := by
  rw [run_eq, run_eq]
  rcases (lockstep_of_widens h hstop).run (tokens_isPrefix_step s) (tokens_isPrefix_step t)
      ⟨abreast_start h hashBits, Nat.zero_le _, rfl, trivial⟩ with ⟨hab, -⟩ | hcommon
  · exact .inl hab.journal
  · exact .inr hcommon

end Greedy

/-! ### The lazy loop -/

namespace Lazy

structure Abreast (s : Setup) (a b : State) : Prop where
  pos : b.pos = a.pos
  journal : b.journal = a.journal
  length : b.length = a.length
  start : b.start = a.start
  pending : b.pending = a.pending
  chain : HashChain.Mirrors s.window.guarded s.window.span a.chain b.chain

variable {s t : Setup} {a b : State}

theorem abreast_start (h : t.Widens s) (hashBits : Nat) :
    Abreast s (start hashBits s) (start hashBits t) :=
  ⟨rfl, rfl, rfl, rfl, rfl, HashChain.mirrors_empty h.bits_le hashBits _⟩

/-- **One iteration within reach is the same in the larger window.** -/
theorem abreast_step (h : t.Widens s) (hab : Abreast s a b) (ha : Sound s a)
    (hpos : a.pos ≤ s.window.reach) : Abreast s (step s a) (step t b) := by
  have hspan := s.window.reach_add_maxMatch_lt_span
  have hbelow : a.pos < s.window.span := by omega
  obtain ⟨harrive, hchain⟩ := h.mirrors_arrive hab.chain hbelow
  have houtcome : outcomeAt t b = outcomeAt s a := by
    rw [outcomeAt, outcomeAt, hab.pos, hab.length, harrive, look, look, h.inReach_eq hpos,
      h.search_eq hchain hpos, h.effort]
  have hstart : startFound t b = startFound s a := by
    rw [startFound, startFound, houtcome, hab.start]
  have hlength : lengthFound t b = lengthFound s a := by
    rw [lengthFound, lengthFound, houtcome, hstart, hab.pos]
  have htakes : Takes t b ↔ Takes s a := by rw [Takes, Takes, hlength, hab.length]
  by_cases htake : Takes s a
  · have hle := (ha.held htake.1).2.le_maxMatch
    rw [step_of_takes htake, step_of_takes (htakes.mpr htake), hab.pos, hab.journal, hab.length,
      hab.start, houtcome, hstart]
    exact ⟨rfl, rfl, rfl, rfl, rfl, h.mirrors_index hchain (by omega)⟩
  · rcases hpending : a.pending with _ | _
    · rw [step_of_idle htake hpending,
        step_of_idle (mt htakes.mp htake) (hab.pending.trans hpending), hab.pos, hab.journal,
        houtcome, hlength, hstart]
      exact ⟨rfl, rfl, rfl, rfl, rfl, hchain⟩
    · rw [step_of_pending htake hpending,
        step_of_pending (mt htakes.mp htake) (hab.pending.trans hpending), hab.pos, hab.journal,
        houtcome, hlength, hstart, h.byteAt_eq]
      exact ⟨rfl, rfl, rfl, rfl, rfl, hchain⟩

theorem lockstep_of_widens (h : t.Widens s) {stop : Nat}
    (hstop : min stop s.window.size ≤ s.window.reach) :
    Lockstep (loop s) (loop t) (fun st => st.journal.tokens.toList)
      (fun st => st.journal.tokens.toList) stop
      (fun a b => Abreast s a b ∧ Sound s a) where
  same := by
    rintro a b ⟨hab, -⟩
    rw [hab.journal]
  both := by
    rintro a b ⟨hab, -⟩ -
    simp only [loop, hab.pos, h.size_eq]
  step := by
    rintro a b ⟨hab, ha⟩ hbefore hlt
    have hcovered := ha.covered
    have hpending := a.pending.toNat_le
    simp only [loop] at hlt
    -- the tokens end at the byte before the position, if it is pending
    exact ⟨abreast_step h hab ha (by omega), sound_step h.maxDistance hlt ha⟩

theorem flush_run_of_widens (h : t.Widens s) (hashBits : Nat) {stop : Nat}
    (hstop : min stop s.window.size ≤ s.window.reach) :
    (flush s (run s (start hashBits s))).Shares stop (flush t (run t (start hashBits t))) := by
  rw [run_eq, run_eq]
  rcases (lockstep_of_widens h hstop).run (tokens_isPrefix_step s) (tokens_isPrefix_step t)
      ⟨abreast_start h hashBits, sound_start hashBits s⟩ with ⟨hab, -⟩ | hcommon
  · exact .inl (by rw [flush, flush, hab.pending, hab.journal, hab.pos, h.byteAt_eq])
  · obtain ⟨common, hle, hrun, hrun'⟩ := hcommon
    exact .inr ⟨common, hle, hrun.trans (tokens_isPrefix_flush s _),
      hrun'.trans (tokens_isPrefix_flush t _)⟩

end Lazy

/-! ### A whole parse -/

theorem widens_ofOptions {w v : Window} {o : Options} (hdata : v.data = w.data)
    (hbits : w.bits ≤ v.bits) : (Setup.ofOptions v o).Widens (.ofOptions w o) where
  data := hdata
  bits_le := hbits
  effort := rfl
  params := rfl
  maxDistance := rfl

/-- Up to an offset within reach, or past the end of a block within reach, a whole run in
the larger window makes the same journal. -/
theorem journal_of_widens (hashBits : Nat) {w v : Window} {o : Options}
    (h : levelLimits.Admits o.level) (hwidens : (Setup.ofOptions v o).Widens (.ofOptions w o))
    {stop : Nat} (hstop : min stop w.size ≤ w.reach) :
    (journal hashBits (.ofOptions w o)).Shares stop (journal hashBits (.ofOptions v o)) := by
  rcases Nat.lt_or_ge o.level lazyLevel with hlevel | hlevel
  · rw [journal_of_lt_lazyLevel h hlevel, journal_of_lt_lazyLevel h hlevel]
    exact Greedy.run_of_widens hwidens hashBits hstop
  · rw [journal_of_lazyLevel_le h hlevel, journal_of_lazyLevel_le h hlevel]
    exact Lazy.flush_run_of_widens hwidens hashBits hstop

/-- **The window size changes no token it does not limit.** The tokens of a parse that start
within the reach of its window are those of the parse with a larger window; and if the
whole block lies within that reach, the parses have the same tokens and counters. -/
theorem parse_windowBits {data : Array UInt8} {o : Options} {small large : Nat}
    (hle : small ≤ large) (h : Accepts data { o with windowBits := small })
    (h' : Accepts data { o with windowBits := large }) :
    ∃ p q, parse data { o with windowBits := small } = .ok p ∧
      parse data { o with windowBits := large } = .ok q ∧
      (Token.placed 0 p.tokens.toList).filter (·.1 < reach small) =
        (Token.placed 0 q.tokens.toList).filter (·.1 < reach small) ∧
      (data.size ≤ reach small → p.tokens = q.tokens ∧ p.stats = q.stats) := by
  obtain ⟨w, hw, hwbits, hparse⟩ := parse_eq_ok h
  obtain ⟨v, hv, hvbits, hparse'⟩ := parse_eq_ok h'
  have hwidens : (Setup.ofOptions v o).Widens (.ofOptions w o) :=
    widens_ofOptions (hv.trans hw.symm) (by rw [hwbits, hvbits]; exact hle)
  have hreach : w.reach = reach small := congrArg reach hwbits
  have hshares {stop : Nat} (hstop : min stop w.size ≤ w.reach) :
      (journal o.hashBits (.ofOptions w o)).Shares stop (journal o.hashBits (.ofOptions v o)) :=
    journal_of_widens o.hashBits h.level hwidens hstop
  refine ⟨_, _, hparse, hparse', ?_, fun hsize => ?_⟩
  · rw [← hreach]
    exact (hshares (Nat.min_le_left w.reach w.size)).filter_placed
  · have hblock : w.size ≤ w.reach := by rw [hreach, Window.size, hw]; exact hsize
    have hcovered : Token.coveredAll (journal o.hashBits (.ofOptions w o)).tokens.toList = w.size :=
      (describes_journal o.hashBits w h.level).1
    have heq : journal o.hashBits (.ofOptions v o) = journal o.hashBits (.ofOptions w o) :=
      (hshares (Nat.le_trans (Nat.min_le_right (w.size + 1) w.size) hblock)).eq_of_lt
        (hcovered ▸ Nat.lt_succ_self _)
    exact ⟨(congrArg Journal.tokens heq).symm, congrArg (fun j : Journal => j.tally.stats) heq.symm⟩

/-- A run that comes back after more bytes than the smaller window reaches. -/
theorem parse_windowBits_out_of_reach :
    let data : Array UInt8 := #[1, 2, 3, 4, 5] ++ Array.replicate 300 0 ++ #[1, 2, 3, 4, 5]
    let o : Options := ⟨9, 15, 31, .wordwise⟩
    (9 ≤ 15 ∧ Accepts data { o with windowBits := 9 } ∧
        Accepts data { o with windowBits := 15 }) ∧
      ∃ p q, parse data { o with windowBits := 9 } = .ok p ∧
        parse data { o with windowBits := 15 } = .ok q ∧
        (Token.placed 0 p.tokens.toList).filter (·.1 < reach 9) =
          (Token.placed 0 q.tokens.toList).filter (·.1 < reach 9) ∧
        (data.size ≤ reach 9 → p.tokens = q.tokens ∧ p.stats = q.stats) := by
  intro data o
  have hsize : data.size ≤ maxPosition - guardSize := by
    rw [Array.size_append, Array.size_append, Array.size_replicate]
    decide
  have hsmall : Accepts data { o with windowBits := 9 } :=
    ⟨by decide, by decide, by decide, hsize⟩
  have hlarge : Accepts data { o with windowBits := 15 } :=
    ⟨by decide, by decide, by decide, hsize⟩
  exact ⟨⟨by decide, hsmall, hlarge⟩, parse_windowBits (by decide) hsmall hlarge⟩

end Parse

end Backref
