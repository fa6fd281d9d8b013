/-
# Every search sees all positions up to its own, but for those under long copies

The positions that a parse puts into its chain increase, so none is put in twice, and each has
enough bytes ahead to be hashed. When a search is made at a position, that position is the last
one put in. The lazy loop has by then put in every position before it, and the greedy loop every
one that does not lie strictly inside a copy longer than the row's `maxLazy`.

An iteration puts in its own position, searches, and then puts in positions up to where the
next one starts. So what has been put in is told by the position alone, and by which positions
are kept: all of them, or those outside of long copies.

Key definitions: `Parse.Sees`, `Parse.Setup.kept`, `Parse.Disciplined`,
`Token.Skipped`.
Key theorems: `Parse.Sees.before_search`, `Parse.sees_collect`, `Parse.sees_iteration`,
`Parse.disciplined_journal`, `Parse.insertions_of_parse`.
-/
import Backref.Proofs.ChainUses
import Backref.Proofs.RoundTrip

namespace Backref

/-! ### Under a long copy -/

namespace Token

/-- The position lies strictly inside a copy that is longer than the limit. (Nothing lies
strictly inside a literal.) -/
def Skipped (limit : Nat) (tokens : List Token) (q : Nat) : Prop :=
  ∃ x ∈ placed 0 tokens, limit < x.2.covered ∧ x.1 < q ∧ q < x.1 + x.2.covered

instance (limit : Nat) (tokens : List Token) (q : Nat) : Decidable (Skipped limit tokens q) :=
  inferInstanceAs (Decidable (∃ x ∈ placed 0 tokens, _))

theorem end_le_of_mem_placed {offset : Nat} {ts : List Token} {x : Nat × Token}
    (h : x ∈ placed offset ts) : x.1 + x.2.covered ≤ offset + coveredAll ts := by
  induction ts generalizing offset with
  | nil => cases h
  | cons t ts ih =>
    rw [coveredAll_cons, ← Nat.add_assoc]
    rcases List.mem_cons.mp h with rfl | h
    · exact Nat.le_add_right _ _
    · exact ih h

/-- Whether a position is skipped is told by the token that covers it. -/
theorem skipped_iff_of_covered {limit q : Nat} {front rest : List Token} {token : Token}
    (hlow : coveredAll front ≤ q) (hhigh : q < coveredAll front + token.covered) :
    Skipped limit (front ++ token :: rest) q ↔ limit < token.covered ∧ coveredAll front < q := by
  unfold Skipped
  rw [placed_append, placed, Nat.zero_add]
  constructor
  · rintro ⟨x, hx, hlong, hstart, hend⟩
    rcases List.mem_append.mp hx with hbefore | hx
    · have hle := end_le_of_mem_placed hbefore
      omega
    · rcases List.mem_cons.mp hx with rfl | hafter
      · exact ⟨hlong, hstart⟩
      · have hle := le_of_mem_placed hafter
        omega
  · rintro ⟨hlong, hstart⟩
    exact ⟨(coveredAll front, token), List.mem_append_right _ List.mem_cons_self, hlong, hstart,
      hhigh⟩

end Token

namespace Parse

/-! ### What searches see -/

/-- Whenever a search is made, what has been put in is what is expected at its position. -/
def Sees (expected : Nat → List Nat) : (put : List Nat) → List Use → Prop
  | _, [] => True
  | put, .insert pos :: uses => Sees expected (put ++ [pos]) uses
  | put, .search pos :: uses => put = expected pos ∧ Sees expected put uses

variable {expected : Nat → List Nat} {put : List Nat}

theorem sees_append {us vs : List Use} :
    Sees expected put (us ++ vs) ↔
      Sees expected put us ∧ Sees expected (put ++ inserted us) vs := by
  induction us generalizing put with
  | nil => simp [Sees, inserted]
  | cons u us ih =>
    cases u with
    | insert pos =>
      rw [List.cons_append, Sees, Sees, ih, List.append_assoc]
      rfl
    | search pos =>
      rw [List.cons_append, Sees, Sees, ih, and_assoc]
      rfl

theorem sees_map_insert (positions : List Nat) : Sees expected put (positions.map .insert) := by
  induction positions generalizing put with
  | nil => trivial
  | cons p ps ih => exact ih

theorem Sees.before_search {before after : List Use} {pos : Nat}
    (h : Sees expected put (before ++ .search pos :: after)) :
    put ++ inserted before = expected pos :=
  (sees_append.mp h).2.1

/-- **What every iteration sees, a whole run sees**, if what has been put in is told by the
state. -/
theorem sees_collect {σ : Type} {l : Loop σ} {uses : σ → List Use} {P : σ → Prop}
    (told : σ → List Nat) (hkeep : ∀ st, l.pos st < l.size → P st → P (l.step st))
    (hstep : ∀ st, l.pos st < l.size → P st →
      Sees expected (told st) (uses st) ∧ told st ++ inserted (uses st) = told (l.step st))
    {st : σ} (h : P st) :
    Sees expected (told st) (l.collect uses st) ∧
      told st ++ inserted (l.collect uses st) = told (l.run st) := by
  fun_induction Loop.run l st with
  | case1 st hlt ih =>
    obtain ⟨hsees, htold⟩ := hstep st hlt h
    obtain ⟨hrest, hlast⟩ := ih (hkeep st hlt h)
    rw [Loop.collect_of_lt hlt, sees_append, inserted_append, ← List.append_assoc, htold]
    exact ⟨⟨hsees, hrest⟩, hlast⟩
  | case2 st hge =>
    rw [Loop.collect, if_neg hge]
    exact ⟨trivial, List.append_nil _⟩

/-! ### What is kept -/

/-- The positions below `stop` that have enough bytes ahead and are kept. -/
def Setup.kept (s : Setup) (keep : Nat → Bool) (stop : Nat) : List Nat :=
  (s.indexable 0 stop).filter keep

/-- What has been put in when a search is made: what is kept, and last the position itself. -/
def Setup.upTo (s : Setup) (keep : Nat → Bool) (pos : Nat) : List Nat := s.kept keep pos ++ [pos]

variable {s : Setup} {keep : Nat → Bool} {pos next : Nat} {chain : HashChain}

/-- Only a position that has been put in has a candidate in reach. -/
theorem lookahead_of_inReach (h : s.inReach pos (s.arrive chain pos).1 = true) :
    minMatch ≤ s.window.lookahead pos := by
  unfold Setup.arrive at h
  split at h
  · next hahead => exact hahead
  · simp [Setup.inReach] at h

/-- **One iteration**, from a position that is kept to a later one. -/
theorem sees_iteration {searched : Bool} {later : List Nat} (hkeep : keep pos = true)
    (hlt : pos < next) (hsearched : searched = true → minMatch ≤ s.window.lookahead pos)
    (hlater : later = (s.indexable (pos + 1) next).filter keep) :
    let uses : List Use := (s.indexable pos (pos + 1)).map .insert ++
      ((if searched then [.search pos] else []) ++ later.map .insert)
    Sees (s.upTo keep) (s.kept keep pos) uses ∧
      s.kept keep pos ++ inserted uses = s.kept keep next := by
  intro uses
  have hown : (s.indexable pos (pos + 1)).filter keep = s.indexable pos (pos + 1) := by
    apply List.filter_eq_self.mpr
    intro q hq
    obtain ⟨hlow, hhigh, -⟩ := Setup.mem_indexable.mp hq
    obtain rfl : q = pos := by omega
    exact hkeep
  have hput : inserted uses = s.indexable pos (pos + 1) ++ later :=
    Logged.inserted_iteration searched pos _ later
  constructor
  · rw [sees_append, sees_append]
    refine ⟨sees_map_insert _, ?_, sees_map_insert _⟩
    cases searched with
    | false => trivial
    | true =>
      refine ⟨?_, trivial⟩
      rw [inserted_map_insert, s.indexable_succ, if_pos (hsearched rfl)]
      rfl
  · rw [hput, hlater, ← hown, Setup.kept, Setup.kept, ← List.filter_append, ← List.filter_append,
      s.indexable_append (Nat.le_succ pos) hlt, s.indexable_append (Nat.zero_le pos) (by omega)]

/-- How a parse uses its chain, as far as the positions that are kept tell it. -/
structure Disciplined (s : Setup) (keep : Nat → Bool) (uses : List Use) : Prop where
  sees : Sees (s.upTo keep) [] uses
  inserted_eq : inserted uses = s.kept keep s.window.size

/-- A loop that starts at the first byte and stays within the block is disciplined if each of
its iterations is. -/
theorem disciplined_of_steps {σ : Type} {l : LoggedLoop σ} {m : Loop σ} {P : σ → Prop}
    (hplain : l.plain = m) (hsize : m.size = s.window.size)
    (hkeep : ∀ st, m.pos st < m.size → P st → P (m.step st))
    (hle : ∀ st, P st → m.pos st ≤ m.size)
    (hstep : ∀ st, m.pos st < m.size → P st →
      Sees (s.upTo keep) (s.kept keep (m.pos st)) (l.step st).uses ∧
        s.kept keep (m.pos st) ++ inserted (l.step st).uses = s.kept keep (m.pos (m.step st)))
    {st : σ} (hstart : m.pos st = 0) (h : P st) : Disciplined s keep (l.run st).uses := by
  have hnone : s.kept keep (m.pos st) = [] := by rw [hstart]; rfl
  have hend : m.pos (m.run st) = s.window.size :=
    (Loop.advances_of_le hkeep hle h).ends.trans hsize
  obtain ⟨hsees, hput⟩ := sees_collect (fun st => s.kept keep (m.pos st)) hkeep hstep h
  rw [hnone] at hsees hput
  rw [hend] at hput
  rw [l.uses_run, hplain]
  exact ⟨hsees, hput⟩

/-! ### The greedy loop -/

namespace Greedy

def keeps (s : Setup) (tokens : List Token) (q : Nat) : Bool :=
  decide (¬ Token.Skipped s.effort.maxLazy tokens q)

variable {st : State} {tokens : List Token}

theorem lookahead_of_outcome (h : (outcomeAt s st).isSome) :
    minMatch ≤ s.window.lookahead st.pos := by
  obtain ⟨outcome, houtcome⟩ := Option.isSome_iff_exists.mp h
  exact lookahead_of_inReach (look_eq_some houtcome).1

/-- Where the next token is put, the positions under it are kept unless it is long. -/
theorem keeps_of_next {token : Token} {q : Nat} (h : Described s st)
    (hnext : st.journal.tokens.toList ++ [token] <+: tokens) (hlow : st.pos ≤ q)
    (hhigh : q < st.pos + token.covered) :
    keeps s tokens q = true ↔ ¬ (s.effort.maxLazy < token.covered ∧ st.pos < q) := by
  obtain ⟨rest, rfl⟩ := hnext
  rw [← h.covered] at hlow hhigh ⊢
  unfold keeps
  rw [List.append_assoc, List.singleton_append, decide_eq_true_eq,
    Token.skipped_iff_of_covered hlow hhigh]

/-- The positions that an iteration puts in after its search are those that are kept. -/
theorem followers_eq {token : Token} {length : Nat} (h : Described s st)
    (hnext : st.journal.tokens.toList ++ [token] <+: tokens) (hlength : token.covered = length) :
    followers s st.pos length =
      (s.indexable (st.pos + 1) (st.pos + length)).filter (keeps s tokens) := by
  have hkeeps : ∀ q ∈ s.indexable (st.pos + 1) (st.pos + length),
      (keeps s tokens q = true ↔ length ≤ s.effort.maxLazy) := by
    intro q hq
    obtain ⟨hlow, hhigh, -⟩ := Setup.mem_indexable.mp hq
    rw [keeps_of_next h hnext (by omega) (by omega)]
    omega
  unfold followers
  split
  · next hshort => exact (List.filter_eq_self.mpr fun q hq => (hkeeps q hq).mpr hshort).symm
  · next hlong => exact (List.filter_eq_nil_iff.mpr fun q hq => mt (hkeeps q hq).mp hlong).symm

/-- One iteration puts in what is kept, if the tokens go on as the iteration does. -/
theorem sees_step (hs : s.params.maxDistance = s.window.reach) (h : Described s st)
    (hnext : (step s st).journal.tokens.toList <+: tokens) :
    Sees (s.upTo (keeps s tokens)) (s.kept (keeps s tokens) st.pos) (Logged.Greedy.step s st).uses ∧
      s.kept (keeps s tokens) st.pos ++ inserted (Logged.Greedy.step s st).uses =
        s.kept (keeps s tokens) (step s st).pos := by
  rw [Logged.Greedy.uses_step]
  rcases hchoose : choose (outcomeAt s st) with _ | ⟨length, start⟩
  · rw [step_of_literal hchoose] at hnext ⊢
    have htoken : st.journal.tokens.toList ++ [.literal (s.byteAt st.pos)] <+: tokens := by
      simpa [Journal.emitLiteral] using hnext
    have hkeep : keeps s tokens st.pos = true :=
      (keeps_of_next h htoken (Nat.le_refl _) (Nat.lt_succ_self _)).mpr (by omega)
    refine sees_iteration hkeep (Nat.lt_succ_self _) lookahead_of_outcome ?_
    simp [Logged.Greedy.later, hchoose, Setup.indexable]
  · have hrep := repeats_of_choose hs hchoose
    have hlong : 3 ≤ length := minMatch_le_of_choose hchoose
    rw [step_of_copy hchoose] at hnext ⊢
    have htoken : st.journal.tokens.toList ++
        [.copy length.toUInt16 (st.pos - start).toUInt16] <+: tokens := by
      simpa [Journal.emitCopy] using hnext
    have hlength : (Token.copy length.toUInt16 (st.pos - start).toUInt16).covered = length :=
      hrep.toNat_eq.1
    have hkeep : keeps s tokens st.pos = true :=
      (keeps_of_next h htoken (Nat.le_refl _) (by omega)).mpr (by omega)
    have hforward : st.pos < st.pos + length := by omega
    refine sees_iteration hkeep hforward lookahead_of_outcome ?_
    simp only [Logged.Greedy.later, hchoose]
    exact followers_eq h htoken hlength

/-- **The greedy loop puts in every position outside of the long copies it emits.** -/
theorem disciplined_run (hs : s.params.maxDistance = s.window.reach) (hashBits : Nat) :
    Disciplined s (keeps s (run s (start hashBits s)).journal.tokens.toList)
      ((Logged.Greedy.loop s).run (start hashBits s)).uses := by
  generalize htokens : (run s (start hashBits s)).journal.tokens.toList = tokens
  have hnext {st : State} (hlt : st.pos < s.window.size) : run s (step s st) = run s st := by
    rw [run_eq, run_eq]
    exact (Loop.run_of_lt (l := loop s) hlt).symm
  refine disciplined_of_steps
    (P := fun st => Described s st ∧ (run s st).journal.tokens.toList = tokens)
    (Logged.Greedy.plain_loop s) rfl ?_ ?_ ?_ rfl ⟨⟨Nat.zero_le _, rfl, trivial⟩, htokens⟩
  · rintro st hlt ⟨h, hrun⟩
    exact ⟨described_step hs hlt h, by rw [← hrun, ← hnext hlt]; rfl⟩
  · exact fun st h => h.1.pos_le
  · rintro st hlt ⟨h, hrun⟩
    refine sees_step hs h ?_
    rw [← hrun, ← hnext hlt, run_eq]
    exact Loop.output_isPrefix (l := loop s) (tokens_isPrefix_step s) _

end Greedy

/-! ### The lazy loop -/

namespace Lazy

variable {st : State}

theorem lookahead_of_outcome (h : (outcomeAt s st).isSome) :
    minMatch ≤ s.window.lookahead st.pos := by
  obtain ⟨outcome, houtcome⟩ := Option.isSome_iff_exists.mp h
  exact lookahead_of_inReach (look_eq_some houtcome).1

/-- The positions that an iteration puts in after its search reach up to where it goes on. -/
theorem later_eq (s : Setup) (st : State) :
    Logged.Lazy.later s st = s.indexable (st.pos + 1) (step s st).pos := by
  unfold Logged.Lazy.later
  by_cases htakes : Takes s st
  · rw [if_pos htakes, step_of_takes htakes]
  · have hnext : (step s st).pos = st.pos + 1 := by
      rcases hpending : st.pending with _ | _
      · rw [step_of_idle htakes hpending]
      · rw [step_of_pending htakes hpending]
    rw [if_neg htakes, hnext, Setup.indexable, Nat.sub_self]
    rfl

/-- **The lazy loop puts in every position.** -/
theorem disciplined_run (hs : s.params.maxDistance = s.window.reach) (hashBits : Nat) :
    Disciplined s (fun _ => true) ((Logged.Lazy.loop s).run (start hashBits s)).uses := by
  refine disciplined_of_steps (P := Sound s) (Logged.Lazy.plain_loop s) rfl
    (fun st hlt h => sound_step hs hlt h) (fun st h => h.pos_le) ?_ rfl (sound_start hashBits s)
  intro st _ _
  show Sees _ _ (Logged.Lazy.step s st).uses ∧ _ ++ inserted (Logged.Lazy.step s st).uses = _
  rw [Logged.Lazy.uses_step]
  refine sees_iteration rfl (pos_lt_step s st) lookahead_of_outcome ?_
  rw [List.filter_true]
  exact later_eq s st

end Lazy

/-! ### The parse -/

def keeps (level : Nat) (tokens : List Token) (q : Nat) : Bool :=
  decide (lazyLevel ≤ level ∨ ¬ Token.Skipped (Effort.ofLevel level).maxLazy tokens q)

theorem disciplined_journal (hashBits : Nat) (w : Window) {o : Options}
    (h : levelLimits.Admits o.level) :
    Disciplined (.ofOptions w o)
      (keeps o.level (journal hashBits (.ofOptions w o)).tokens.toList)
      (Logged.journal hashBits (.ofOptions w o)).uses := by
  have hs : (Setup.ofOptions w o).params.maxDistance = (Setup.ofOptions w o).window.reach := rfl
  rcases Nat.lt_or_ge o.level lazyLevel with hlevel | hlevel
  · have hkeeps (tokens : List Token) :
        keeps o.level tokens = Greedy.keeps (.ofOptions w o) tokens := by
      funext q
      exact decide_eq_decide.mpr (or_iff_right (Nat.not_le.mpr hlevel))
    rw [hkeeps, journal_of_lt_lazyLevel h hlevel,
      Logged.uses_journal_of_greedy (strategy_of_lt_lazyLevel w h hlevel)]
    exact Greedy.disciplined_run hs hashBits
  · have hkeeps (tokens : List Token) : keeps o.level tokens = fun _ => true := by
      funext q
      exact decide_eq_true (.inl hlevel)
    rw [hkeeps, Logged.uses_journal_of_lazy (strategy_of_lazyLevel_le w h hlevel)]
    exact Lazy.disciplined_run hs hashBits

/-- The positions that are kept increase. -/
theorem kept_increasing (s : Setup) (keep : Nat → Bool) (stop : Nat) :
    (s.kept keep stop).Pairwise (· < ·) :=
  List.Pairwise.filter _ (List.Pairwise.filter _ List.pairwise_lt_range')

theorem mem_kept {q stop : Nat} :
    q ∈ s.kept keep stop ↔ q < stop ∧ minMatch ≤ s.window.lookahead q ∧ keep q = true := by
  rw [Setup.kept, List.mem_filter, Setup.mem_indexable]
  constructor
  · rintro ⟨⟨-, hlt, hahead⟩, hkeep⟩
    exact ⟨hlt, hahead, hkeep⟩
  · rintro ⟨hlt, hahead, hkeep⟩
    exact ⟨⟨Nat.zero_le q, hlt, hahead⟩, hkeep⟩

theorem Logged.parse_eq_ok {data : Array UInt8} {o : Options} (h : Accepts data o) :
    ∃ w : Window, w.data = data ∧ w.bits = o.windowBits ∧
      Logged.parse data o = .ok ⟨⟨(Parse.journal o.hashBits (.ofOptions w o)).tokens,
        (Parse.journal o.hashBits (.ofOptions w o)).tally.stats⟩,
        (Logged.journal o.hashBits (.ofOptions w o)).uses⟩ := by
  have hwindow : Window.ofData data o.windowBits =
      .ok ⟨data, o.windowBits, _, h.windowBits, h.size, rfl⟩ := by
    rw [Window.ofData, dif_pos h.windowBits, dif_pos h.size]
  generalize (⟨data, o.windowBits, _, h.windowBits, h.size, rfl⟩ : Window) = w at hwindow
  obtain ⟨hdata, hbits⟩ := Window.ofData_eq_ok_iff.mp hwindow
  refine ⟨w, hdata, hbits, ?_⟩
  rw [Logged.parse, checkLevel, if_pos h.level, hwindow, ← Logged.value_journal,
    ← List.append_nil (Logged.journal o.hashBits (.ofOptions w o)).uses]
  exact if_pos h.hashBits

/-- **Every search sees all positions up to its own, but for those under long copies.** A parse
within the limits writes down how it uses its chain. What it writes down is what it does: as many
searches as it counts, and a chain that ends up as if the positions written down had been put into
an empty one. These positions increase and have at least three bytes ahead. When the parse
searches at a position, that is the last position put in. At a lazy level every position before it
that has three bytes ahead has been put in, and at a greedy level those that do not lie strictly
inside an emitted copy longer than the row's `maxLazy`. -/
theorem insertions_of_parse {data : Array UInt8} {o : Options} (h : Accepts data o) :
    ∃ (w : Window) (p : Parsed) (uses : List Use), w.data = data ∧ w.bits = o.windowBits ∧
      parse data o = .ok p ∧ Logged.parse data o = .ok ⟨p, uses⟩ ∧
      uses.countP Use.isSearch = p.stats.searches ∧
      chainLeft o.hashBits (.ofOptions w o) =
        (HashChain.empty o.windowBits o.hashBits).insertAll w.guarded (inserted uses) ∧
      (inserted uses).Pairwise (· < ·) ∧ (∀ q ∈ inserted uses, q + minMatch ≤ data.size) ∧
      ∀ before pos after, uses = before ++ .search pos :: after →
        (inserted before).getLast? = some pos ∧
        (lazyLevel ≤ o.level → ∀ q < pos, q + minMatch ≤ data.size → q ∈ inserted before) ∧
        (o.level < lazyLevel → ∀ q < pos, q + minMatch ≤ data.size →
          (q ∈ inserted before ↔
            ¬ Token.Skipped (Effort.ofLevel o.level).maxLazy p.tokens.toList q)) := by
  obtain ⟨w, rfl, hbits, hlogged⟩ := Logged.parse_eq_ok h
  have hdisciplined := disciplined_journal o.hashBits w h.level
  have hsearches := Logged.searches_eq o.hashBits (.ofOptions w o)
  have hchain := Logged.chainLeft_eq o.hashBits (.ofOptions w o)
  have hparse := Logged.value_parse w.data o
  rw [hlogged] at hparse
  have hahead {q : Nat} : minMatch ≤ (Setup.ofOptions w o).window.lookahead q ↔
      q + minMatch ≤ w.data.size := by
    show 3 ≤ w.data.size - q ↔ q + 3 ≤ w.data.size
    omega
  rw [← hbits]
  refine ⟨w, _, _, rfl, rfl, hparse.symm, hlogged, hsearches.symm, hchain, ?_, fun q hq => ?_,
    fun before pos after huses => ?_⟩
  · rw [hdisciplined.inserted_eq]
    exact kept_increasing _ _ _
  · rw [hdisciplined.inserted_eq] at hq
    exact hahead.mp (mem_kept.mp hq).2.1
  · generalize Parse.journal o.hashBits (.ofOptions w o) = j at hdisciplined ⊢
    have hsees := hdisciplined.sees
    rw [huses] at hsees
    have hbefore : inserted before = (Setup.ofOptions w o).upTo _ pos := hsees.before_search
    have hmem {q : Nat} (hlt : q < pos) (hq : q + minMatch ≤ w.data.size) : q ∈ inserted before ↔
        lazyLevel ≤ o.level ∨
          ¬ Token.Skipped (Effort.ofLevel o.level).maxLazy j.tokens.toList q := by
      rw [hbefore, Setup.upTo, List.mem_append, List.mem_singleton, mem_kept, hahead, keeps,
        decide_eq_true_eq]
      constructor
      · rintro (⟨-, -, hkeep⟩ | rfl)
        · exact hkeep
        · exact absurd hlt (Nat.lt_irrefl q)
      · exact fun hkeep => .inl ⟨hlt, hq, hkeep⟩
    refine ⟨?_, fun hlevel q hlt hq => ?_, fun hlevel q hlt hq => ?_⟩
    · rw [hbefore]
      exact List.getLast?_concat
    · exact (hmem hlt hq).mpr (.inl hlevel)
    · rw [hmem hlt hq]
      exact or_iff_right (Nat.not_le.mpr hlevel)

/-- At the least level, a copy of five bytes that starts at 6: the positions under it are not put
in, and a later search at 12 does not see them. -/
theorem insertions_of_parse_long_copy :
    let data : Array UInt8 := #[0, 1, 2, 3, 4, 5, 1, 2, 3, 4, 5, 7, 1, 2, 3, 8]
    let o : Options := ⟨1, 9, 15, .bytewise⟩
    Accepts data o ∧ ∃ (w : Window) (p : Parsed) (uses : List Use), w.data = data ∧
      parse data o = .ok p ∧ Logged.parse data o = .ok ⟨p, uses⟩ ∧
      uses = [.insert 0, .insert 1, .insert 2, .insert 3, .insert 4, .insert 5, .insert 6,
        .search 6, .insert 11, .insert 12, .search 12, .insert 13] ∧
      p.stats.searches = 2 ∧
      chainLeft 15 (.ofOptions w o) =
        (HashChain.empty 9 15).insertAll w.guarded [0, 1, 2, 3, 4, 5, 6, 11, 12, 13] ∧
      (inserted uses).Pairwise (· < ·) ∧
      ∀ before after, uses = before ++ .search 12 :: after →
        (inserted before).getLast? = some 12 ∧
        ∀ q < 12, (q ∈ inserted before ↔ ¬ Token.Skipped 4 p.tokens.toList q) := by
  intro data o
  have hbounds : Accepts data o := ⟨by decide, by decide, by decide, by decide⟩
  have hlog : (Logged.parse data o).toOption.map Logged.uses =
      some [.insert 0, .insert 1, .insert 2, .insert 3, .insert 4, .insert 5, .insert 6,
        .search 6, .insert 11, .insert 12, .search 12, .insert 13] := by
    decide +kernel
  obtain ⟨w, p, uses, hdata, -, hparse, hlogged, hcount, hchain, hincreasing, -, hsearches⟩ :=
    insertions_of_parse hbounds
  rw [hlogged] at hlog
  have huses := Option.some.inj hlog
  subst huses
  refine ⟨hbounds, w, p, _, hdata, hparse, hlogged, rfl, hcount.symm, hchain, hincreasing, ?_⟩
  intro before after huses
  obtain ⟨hlast, -, hgreedy⟩ := hsearches before 12 after huses
  refine ⟨hlast, fun q hq => hgreedy (by decide) q hq ?_⟩
  show q + 3 ≤ 16
  omega

end Parse

end Backref
