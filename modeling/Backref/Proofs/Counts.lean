/-
# The counters of a parse count its tokens and its searches

A journal notes every search and every token as it comes, so what its tally says is a
function of the tokens it holds and of two numbers, the searches made and those that
found something new. Each iteration of a loop notes at most one search and emits at most
one token; so no parse makes more searches than its block has bytes. The greedy loop
makes a copy of every match that is new, because it looks for nothing shorter than
`minMatch`. The lazy loop may drop a match, but every copy it makes was found by a search
of its own.

Key definitions: `Token.copyLengths`, `Stats.ofTokens`, `Parse.Journal.Records`,
`Parse.Accounts`, `Parse.searches`.
Key theorems: `Tally.recordToken_ofTokens`, `Parse.Loop.accounts_run`,
`Parse.Greedy.accounts_run`, `Parse.Lazy.accounts_flush_run`, `Parse.accounts_journal`,
`Parse.stats_agree`.
-/
import Mathlib.Algebra.GroupWithZero.Nat
import Backref.Proofs.Copies

namespace Backref

def Search.Outcome.isNew (o : Outcome) : Bool := o.position.isSome

/-! ### What a list of tokens amounts to -/

namespace Token

def isLiteral : Token → Bool
  | literal _ => true
  | copy _ _ => false

def copyLengths (tokens : List Token) : List Nat := (tokens.filterMap copy?).map (·.1)

@[simp] theorem copyLengths_nil : copyLengths [] = [] := rfl

@[simp] theorem copyLengths_cons_literal (byte : UInt8) (ts : List Token) :
    copyLengths (literal byte :: ts) = copyLengths ts := rfl

@[simp] theorem copyLengths_cons_copy (length distance : UInt16) (ts : List Token) :
    copyLengths (copy length distance :: ts) = length.toNat :: copyLengths ts := rfl

theorem copyLengths_append (ts us : List Token) :
    copyLengths (ts ++ us) = copyLengths ts ++ copyLengths us := by
  simp [copyLengths]

theorem length_copyLengths (tokens : List Token) :
    (copyLengths tokens).length = (tokens.filterMap copy?).length := by
  simp [copyLengths]

/-- Each literal covers one byte, and the copies cover the rest. -/
theorem countP_isLiteral_add_sum (tokens : List Token) :
    tokens.countP isLiteral + (copyLengths tokens).sum = coveredAll tokens := by
  induction tokens with
  | nil => rfl
  | cons t ts ih =>
    rw [coveredAll_cons, ← ih, List.countP_cons]
    cases t with
    | literal byte =>
      show ts.countP isLiteral + 1 + (copyLengths ts).sum = _
      simp only [covered]
      omega
    | copy length distance =>
      show ts.countP isLiteral + 0 + (length.toNat + (copyLengths ts).sum) = _
      simp only [covered]
      omega

end Token

/-- The counters of a list of tokens, found by so many searches, so many of which found a
new position. -/
def Stats.ofTokens (tokens : List Token) (searches improved : Nat) : Stats where
  bytes := Token.coveredAll tokens
  literals := tokens.countP Token.isLiteral
  copies := (Token.copyLengths tokens).length
  copiedBytes := (Token.copyLengths tokens).sum
  searches := searches
  improved := improved
  longest := (Token.copyLengths tokens).foldl max 0
  fingerprint := Backref.fingerprint tokens

namespace Tally

/-- The tally of a list of tokens, and so many searches. -/
def ofTokens (tokens : List Token) (searches improved : Nat) : Tally where
  counters := { Stats.ofTokens tokens searches improved with fingerprint := 0 }
  digest := (Digest.empty fingerprintSeed).append (Token.encodeAll tokens)

theorem stats_ofTokens (tokens : List Token) (searches improved : Nat) :
    (ofTokens tokens searches improved).stats = Stats.ofTokens tokens searches improved := rfl

theorem recordSearch_ofTokens (tokens : List Token) (searches improved : Nat) (new : Bool) :
    (ofTokens tokens searches improved).recordSearch new =
      ofTokens tokens (searches + 1) (improved + new.toNat) := by
  cases new <;> rfl

/-- One more token counts as if it had been the last of the list. -/
theorem recordToken_ofTokens (tokens : List Token) (searches improved : Nat) (token : Token) :
    (ofTokens tokens searches improved).recordToken token =
      ofTokens (tokens ++ [token]) searches improved := by
  have hcounters : ((ofTokens tokens searches improved).recordToken token).counters =
      (ofTokens (tokens ++ [token]) searches improved).counters := by
    cases token with
    | literal byte =>
      simp [recordToken, ofTokens, Stats.ofTokens, Token.copyLengths_append, Token.covered_append,
        Token.coveredAll_cons, Token.coveredAll_nil, Token.covered, Token.isLiteral]
    | copy length distance =>
      simp [recordToken, ofTokens, Stats.ofTokens, Token.copyLengths_append, Token.covered_append,
        Token.coveredAll_cons, Token.coveredAll_nil, Token.covered, Token.isLiteral]
  have hdigest : ((ofTokens tokens searches improved).recordToken token).digest =
      (ofTokens (tokens ++ [token]) searches improved).digest := by
    rw [digest_recordToken, ofTokens, ofTokens, ← Digest.append_append, Token.encodeAll,
      Token.encodeAll, List.flatMap_append, List.flatMap_singleton]
  exact Tally.ext hcounters hdigest

end Tally

namespace Parse

/-! ### What a journal counts -/

namespace Journal

variable {j j' : Journal} {outcome : Option Search.Outcome}

def searches (j : Journal) : Nat := j.tally.counters.searches

def improved (j : Journal) : Nat := j.tally.counters.improved

/-- The tally is that of the tokens. -/
def Tallied (j : Journal) : Prop := j.tally = .ofTokens j.tokens.toList j.searches j.improved

/-- A search notes itself, if one was made, and then at most one token is emitted. -/
def Records (j : Journal) (outcome : Option Search.Outcome) (j' : Journal) : Prop :=
  j' = j.note outcome ∨ ∃ token, j' = (j.note outcome).emit token

theorem tallied_empty : empty.Tallied := rfl

theorem searches_note (j : Journal) (outcome : Option Search.Outcome) :
    (j.note outcome).searches = j.searches + outcome.toList.length := by
  cases outcome <;> rfl

theorem improved_note (j : Journal) (outcome : Option Search.Outcome) :
    (j.note outcome).improved =
      j.improved + outcome.toList.countP Search.Outcome.isNew := by
  rcases outcome with _ | ⟨length, _ | start⟩ <;> rfl

theorem searches_emit (j : Journal) (token : Token) : (j.emit token).searches = j.searches := by
  cases token <;> rfl

theorem improved_emit (j : Journal) (token : Token) : (j.emit token).improved = j.improved := by
  cases token <;> rfl

theorem Tallied.note (h : j.Tallied) (outcome : Option Search.Outcome) :
    (j.note outcome).Tallied := by
  rcases outcome with _ | outcome
  · exact h
  · calc (j.note (some outcome)).tally
        = j.tally.recordSearch outcome.position.isSome := rfl
      _ = .ofTokens j.tokens.toList (j.searches + 1)
            (j.improved + outcome.position.isSome.toNat) := by
          rw [h, Tally.recordSearch_ofTokens]
      _ = .ofTokens (j.note (some outcome)).tokens.toList (j.note (some outcome)).searches
            (j.note (some outcome)).improved := by
          rw [tokens_note, searches_note, improved_note]
          rcases outcome with ⟨length, _ | start⟩ <;> rfl

theorem Tallied.emit (h : j.Tallied) (token : Token) : (j.emit token).Tallied := by
  calc (j.emit token).tally
      = j.tally.recordToken token := rfl
    _ = .ofTokens (j.tokens.toList ++ [token]) j.searches j.improved := by
        rw [h, Tally.recordToken_ofTokens]
    _ = .ofTokens (j.emit token).tokens.toList (j.emit token).searches (j.emit token).improved := by
        rw [tokens_emit, Array.toList_push, searches_emit, improved_emit]

theorem Records.tallied (h : j.Records outcome j') (hj : j.Tallied) : j'.Tallied := by
  rcases h with rfl | ⟨token, rfl⟩
  · exact hj.note outcome
  · exact (hj.note outcome).emit token

theorem Records.searches_eq (h : j.Records outcome j') :
    j'.searches = j.searches + outcome.toList.countP fun _ => true := by
  rw [List.countP_true]
  rcases h with rfl | ⟨token, rfl⟩
  · exact searches_note j outcome
  · rw [searches_emit, searches_note]

theorem Records.improved_eq (h : j.Records outcome j') :
    j'.improved = j.improved + outcome.toList.countP Search.Outcome.isNew := by
  rcases h with rfl | ⟨token, rfl⟩
  · exact improved_note j outcome
  · rw [improved_emit, improved_note]

end Journal

/-! ### What a run counts -/

/-- A journal accounts for its tokens and for the searches that were made, of which there are
no more than a block of that size has bytes. -/
structure Accounts (made : List Search.Outcome) (size : Nat) (j : Journal) : Prop where
  tallied : j.Tallied
  searches : j.searches = made.length
  improved : j.improved = made.countP Search.Outcome.isNew
  bounded : made.length ≤ size

/-- **A run accounts for what its iterations record**, if it starts with an empty journal. -/
theorem Loop.accounts_run {σ : Type} {l : Loop σ} {journal : σ → Journal}
    {outcome : σ → Option Search.Outcome}
    (h : ∀ st, (journal st).Records (outcome st) (journal (l.step st))) {st : σ}
    (hst : journal st = .empty) :
    Accounts (l.collect (fun st => (outcome st).toList) st) l.size (journal (l.run st)) where
  tallied := by
    have hempty : (journal st).Tallied := hst ▸ Journal.tallied_empty
    exact (run_invariant (P := fun st => (journal st).Tallied)
      (fun st _ hst => (h st).tallied hst) hempty).1
  searches := by
    have hcount := l.countP_run (fun _ => true) (fun st => (journal st).searches)
      (fun st => (outcome st).toList) (fun st => (h st).searches_eq) st
    have hzero : (journal st).searches = 0 := by rw [hst]; rfl
    rwa [hzero, List.countP_true, Nat.zero_add] at hcount
  improved := by
    have hcount := l.countP_run Search.Outcome.isNew (fun st => (journal st).improved)
      (fun st => (outcome st).toList) (fun st => (h st).improved_eq) st
    have hzero : (journal st).improved = 0 := by rw [hst]; rfl
    rwa [hzero, Nat.zero_add] at hcount
  bounded := by
    have hone (st : σ) : (outcome st).toList.length ≤ 1 := by cases outcome st <;> simp
    exact Nat.le_trans (l.length_collect_le _ hone st) (Nat.sub_le _ _)

/-! ### The greedy loop -/

namespace Greedy

variable {s : Setup} {st : State}

def searches (s : Setup) (st : State) : List Search.Outcome :=
  (loop s).collect (fun st => (outcomeAt s st).toList) st

theorem records_step (s : Setup) (st : State) :
    st.journal.Records (outcomeAt s st) (step s st).journal := by
  rcases hchoose : choose (outcomeAt s st) with _ | ⟨length, start⟩
  · rw [step_of_literal hchoose]
    exact .inr ⟨_, rfl⟩
  · rw [step_of_copy hchoose]
    exact .inr ⟨_, rfl⟩

/-- A new match is long enough to encode, since the search was told of `minMatch - 1`
bytes. -/
theorem choose_of_position {start : Nat} {outcome : Search.Outcome}
    (h : outcomeAt s st = some outcome) (hposition : outcome.position = some start) :
    choose (outcomeAt s st) = .copy outcome.length start := by
  obtain ⟨-, hsearch⟩ := look_eq_some h
  have hlong : minMatch - 1 < outcome.length := by
    rw [hsearch] at hposition ⊢
    exact Setup.carried_lt_of_search hposition
  obtain ⟨length, position⟩ := outcome
  simp only at hposition hlong
  subst hposition
  rw [h]
  exact if_pos (by omega)

/-- An iteration makes a copy exactly if its search found a new position. -/
theorem length_copyAt (s : Setup) (st : State) :
    (copyAt s st).toList.length = (outcomeAt s st).toList.countP Search.Outcome.isNew := by
  rcases houtcome : outcomeAt s st with _ | ⟨length, _ | start⟩
  · simp [copyAt, houtcome, choose]
  · simp [copyAt, houtcome, choose, Search.Outcome.isNew]
  · rw [copyAt, choose_of_position houtcome rfl]
    rfl

/-- **The greedy loop makes a copy of every match that is new**, and no other. -/
theorem accounts_run (hs : s.params.maxDistance = s.window.reach) (hashBits : Nat) :
    Accounts (searches s (start hashBits s)) s.window.size (run s (start hashBits s)).journal ∧
      (Token.copyLengths (run s (start hashBits s)).journal.tokens.toList).length =
        (run s (start hashBits s)).journal.improved := by
  have hstep (st : State) :
      (Token.copyLengths (step s st).journal.tokens.toList).length =
        (Token.copyLengths st.journal.tokens.toList).length +
          (outcomeAt s st).toList.countP Search.Outcome.isNew := by
    rw [Token.length_copyLengths, copies_step hs, List.length_append, length_copyAt,
      Token.length_copyLengths]
  have haccounts : Accounts (searches s (start hashBits s)) s.window.size
      ((loop s).run (start hashBits s)).journal :=
    Loop.accounts_run (records_step s) rfl
  have hcopies := (loop s).countP_run Search.Outcome.isNew
    (fun st => (Token.copyLengths st.journal.tokens.toList).length)
    (fun st => (outcomeAt s st).toList) hstep (start hashBits s)
  rw [run_eq]
  exact ⟨haccounts, hcopies.trans ((Nat.zero_add _).trans haccounts.improved.symm)⟩

end Greedy

/-! ### The lazy loop -/

namespace Lazy

variable {s : Setup} {st : State}

def searches (s : Setup) (st : State) : List Search.Outcome :=
  (loop s).collect (fun st => (outcomeAt s st).toList) st

theorem records_step (s : Setup) (st : State) :
    st.journal.Records (outcomeAt s st) (step s st).journal := by
  by_cases htakes : Takes s st
  · rw [step_of_takes htakes]
    exact .inr ⟨_, rfl⟩
  · rcases hpending : st.pending with _ | _
    · rw [step_of_idle htakes hpending]
      exact .inl rfl
    · rw [step_of_pending htakes hpending]
      exact .inr ⟨_, rfl⟩

/-- The matches made copies of so far, and the one that is held, if it is one. -/
def matched (st : State) : Nat :=
  (Token.copyLengths st.journal.tokens.toList).length + if minMatch ≤ st.length then 1 else 0

/-- Where the held match is not taken, the position has a match only if its search found a new
one. -/
theorem found_le_countP (hdefer : ¬ Takes s st) :
    (if minMatch ≤ lengthFound s st then 1 else 0) ≤
      (outcomeAt s st).toList.countP Search.Outcome.isNew := by
  split
  · rename_i hlong
    obtain ⟨outcome, start, houtcome, hposition, -⟩ := position_found hdefer hlong
    have hnew : outcome.isNew = true := by rw [Search.Outcome.isNew, hposition, Option.isSome_some]
    rw [houtcome, Option.toList_some, List.countP_singleton, if_pos hnew]
  · exact Nat.zero_le _

/-- An iteration comes by a match only through a search that found it. A match that is held
was counted when it was found: it becomes a copy or is dropped. -/
theorem matched_step (s : Setup) (st : State) :
    matched (step s st) ≤ matched st + (outcomeAt s st).toList.countP Search.Outcome.isNew := by
  by_cases htakes : Takes s st
  · have hheld : matched st = (Token.copyLengths st.journal.tokens.toList).length + 1 := by
      rw [matched, if_pos htakes.1]
    have hnone : ¬ minMatch ≤ noMatch := by decide
    rw [step_of_takes htakes, hheld, matched, if_neg hnone]
    simp only [Journal.emitCopy, Journal.tokens_emit, Journal.tokens_note, Array.toList_push,
      Token.copyLengths_append, List.length_append, Token.copyLengths_cons_copy,
      Token.copyLengths_nil, List.length_cons, List.length_nil]
    omega
  · have hfound := found_le_countP htakes
    have hmatched : (Token.copyLengths st.journal.tokens.toList).length ≤ matched st :=
      Nat.le_add_right _ _
    rcases hpending : st.pending with _ | _
    · rw [step_of_idle htakes hpending, matched]
      simp only [Journal.tokens_note]
      omega
    · rw [step_of_pending htakes hpending, matched]
      simp only [Journal.emitLiteral, Journal.tokens_emit, Journal.tokens_note, Array.toList_push,
        Token.copyLengths_append, Token.copyLengths_cons_literal, Token.copyLengths_nil,
        List.append_nil]
      omega

/-- The matches come by in a run are no more than the searches that found something new. -/
theorem matched_run (s : Setup) (h : matched st ≤ st.journal.improved) :
    matched ((loop s).run st) ≤ ((loop s).run st).journal.improved := by
  have hstep (st : State) (h : matched st ≤ st.journal.improved) :
      matched (step s st) ≤ (step s st).journal.improved := by
    rw [(records_step s st).improved_eq]
    exact Nat.le_trans (matched_step s st) (Nat.add_le_add_right h _)
  exact (Loop.run_invariant (l := loop s) (P := fun st => matched st ≤ st.journal.improved)
    (fun st _ h => hstep st h) h).1

theorem searches_flush (s : Setup) (st : State) : (flush s st).searches = st.journal.searches := by
  unfold flush
  split
  · exact st.journal.searches_emit _
  · rfl

theorem improved_flush (s : Setup) (st : State) : (flush s st).improved = st.journal.improved := by
  unfold flush
  split
  · exact st.journal.improved_emit _
  · rfl

theorem tallied_flush (h : st.journal.Tallied) (s : Setup) : (flush s st).Tallied := by
  unfold flush
  split
  · exact h.emit _
  · exact h

/-- A byte that is flushed at the end is a token, but neither a search nor a copy. -/
theorem accounts_flush {made : List Search.Outcome} {size : Nat}
    (h : Accounts made size st.journal) (s : Setup) : Accounts made size (flush s st) where
  tallied := tallied_flush h.tallied s
  searches := (searches_flush s st).trans h.searches
  improved := (improved_flush s st).trans h.improved
  bounded := h.bounded

/-- **Every copy of the lazy loop was found by a search of its own.** -/
theorem accounts_flush_run (hashBits : Nat) (s : Setup) :
    Accounts (searches s (start hashBits s)) s.window.size
        (flush s (run s (start hashBits s))) ∧
      (Token.copyLengths (flush s (run s (start hashBits s))).tokens.toList).length ≤
        (flush s (run s (start hashBits s))).improved := by
  have haccounts : Accounts (searches s (start hashBits s)) s.window.size
      ((loop s).run (start hashBits s)).journal :=
    Loop.accounts_run (records_step s) rfl
  have hnone : matched (start hashBits s) ≤ (start hashBits s).journal.improved := Nat.le_refl 0
  have hmatched := matched_run s hnone
  have hflush := accounts_flush haccounts s
  rw [run_eq]
  refine ⟨hflush, ?_⟩
  calc (Token.copyLengths (flush s ((loop s).run (start hashBits s))).tokens.toList).length
      = (Token.copyLengths ((loop s).run (start hashBits s)).journal.tokens.toList).length := by
        rw [Token.length_copyLengths, copies_flush, Token.length_copyLengths]
    _ ≤ matched ((loop s).run (start hashBits s)) := Nat.le_add_right _ _
    _ ≤ ((loop s).run (start hashBits s)).journal.improved := hmatched
    _ = (flush s ((loop s).run (start hashBits s))).improved := by
        rw [haccounts.improved, hflush.improved]

end Lazy

/-! ### A whole parse -/

/-- The outcomes of the searches that the loop of a level makes, in order. -/
def searches (hashBits : Nat) (s : Setup) : List Search.Outcome :=
  match s.effort.strategy with
  | .stored => []
  | .greedy => Greedy.searches s (Greedy.start hashBits s)
  | .lazy => Lazy.searches s (Lazy.start hashBits s)

/-- **The journal of a parse accounts for its tokens and its searches**, and for each copy
there is a search that found it. -/
theorem accounts_journal (hashBits : Nat) (w : Window) {o : Options}
    (h : levelLimits.Admits o.level) :
    let j := journal hashBits (.ofOptions w o)
    Accounts (searches hashBits (.ofOptions w o)) w.size j ∧
      (o.level < lazyLevel → (Token.copyLengths j.tokens.toList).length = j.improved) ∧
      (lazyLevel ≤ o.level → (Token.copyLengths j.tokens.toList).length ≤ j.improved) := by
  have hs : (Setup.ofOptions w o).params.maxDistance = (Setup.ofOptions w o).window.reach := rfl
  rcases Nat.lt_or_ge o.level lazyLevel with hlevel | hlevel
  · obtain ⟨haccounts, hcopies⟩ := Greedy.accounts_run hs hashBits
    rw [journal, searches, strategy_of_lt_lazyLevel w h hlevel]
    exact ⟨haccounts, fun _ => hcopies, fun _ => hcopies.le⟩
  · obtain ⟨haccounts, hcopies⟩ := Lazy.accounts_flush_run hashBits (.ofOptions w o)
    rw [journal, searches, strategy_of_lazyLevel_le w h hlevel]
    exact ⟨haccounts, fun hgreedy => absurd hgreedy (Nat.not_lt.mpr hlevel), fun _ => hcopies⟩

/-- A parse within the limits has a result, whose counters are those of its tokens and of the
searches made. -/
theorem stats_parse {data : Array UInt8} {o : Options} (h : Accepts data o) :
    ∃ (w : Window) (p : Parsed), w.data = data ∧ w.bits = o.windowBits ∧ parse data o = .ok p ∧
      p.stats = .ofTokens p.tokens.toList (searches o.hashBits (.ofOptions w o)).length
        ((searches o.hashBits (.ofOptions w o)).countP Search.Outcome.isNew) ∧
      p.stats.bytes = data.size ∧ p.stats.searches ≤ data.size ∧
      (o.level < lazyLevel → p.stats.copies = p.stats.improved) ∧
      (lazyLevel ≤ o.level → p.stats.copies ≤ p.stats.improved) := by
  obtain ⟨w, rfl, hbits, hparse⟩ := parse_eq_ok h
  obtain ⟨haccounts, hgreedy, hlazy⟩ := accounts_journal o.hashBits w h.level
  obtain ⟨hcovered, -⟩ := describes_journal o.hashBits w h.level
  have hstats : (journal o.hashBits (.ofOptions w o)).tally.stats =
      .ofTokens (journal o.hashBits (.ofOptions w o)).tokens.toList
        (searches o.hashBits (.ofOptions w o)).length
        ((searches o.hashBits (.ofOptions w o)).countP Search.Outcome.isNew) := by
    rw [haccounts.tallied, haccounts.searches, haccounts.improved, Tally.stats_ofTokens]
  rw [haccounts.improved] at hgreedy hlazy
  refine ⟨w, _, rfl, hbits, hparse, hstats, ?_⟩
  rw [hstats]
  exact ⟨hcovered, haccounts.bounded, hgreedy, hlazy⟩

/-- **The counters of a parse agree with its tokens and its searches.** A parse within the
limits has a result, and its counters say how many literals and copies there are, how many
bytes the copies cover and the longest of them does, and what the tokens digest to. They also
say how many searches were made, and how many of these found something new, as many as there
are copies at a greedy level and at least as many at a lazy one. -/
theorem stats_agree {data : Array UInt8} {o : Options} (h : Accepts data o) :
    ∃ (w : Window) (p : Parsed), w.data = data ∧ w.bits = o.windowBits ∧ parse data o = .ok p ∧
      let tokens := p.tokens.toList
      let made := searches o.hashBits (.ofOptions w o)
      (p.stats.literals = tokens.countP Token.isLiteral ∧
        p.stats.copies = (Token.copyLengths tokens).length ∧
        p.stats.copiedBytes = (Token.copyLengths tokens).sum ∧
        p.stats.longest = (Token.copyLengths tokens).foldl max 0 ∧
        p.stats.fingerprint = fingerprint tokens) ∧
      (p.stats.literals + p.stats.copiedBytes = p.stats.bytes ∧ p.stats.bytes = data.size) ∧
      (p.stats.searches = made.length ∧ p.stats.improved = made.countP Search.Outcome.isNew ∧
        p.stats.improved ≤ p.stats.searches ∧ p.stats.searches ≤ data.size) ∧
      (o.level < lazyLevel → p.stats.improved = p.stats.copies) ∧
      (lazyLevel ≤ o.level → p.stats.copies ≤ p.stats.improved) := by
  obtain ⟨w, p, hdata, hbits, hparse, hstats, hbytes, hsearches, hgreedy, hlazy⟩ := stats_parse h
  refine ⟨w, p, hdata, hbits, hparse, ?_, ⟨?_, hbytes⟩, ⟨?_, ?_, ?_, hsearches⟩,
    fun hlevel => (hgreedy hlevel).symm, hlazy⟩
  · rw [hstats]
    exact ⟨rfl, rfl, rfl, rfl, rfl⟩
  · rw [hstats]
    exact Token.countP_isLiteral_add_sum p.tokens.toList
  · rw [hstats]
    rfl
  · rw [hstats]
    rfl
  · rw [hstats]
    exact List.countP_le_length

/-- A match of three bytes is held, and dropped for one of four at the next byte. -/
theorem stats_agree_dropped :
    let data : Array UInt8 := #[0, 97, 98, 99, 98, 99, 100, 101, 97, 98, 99, 100, 101]
    let o : Options := ⟨9, 9, 31, .wordwise⟩
    Accepts data o ∧
      ∃ (w : Window) (p : Parsed), w.data = data ∧ w.bits = o.windowBits ∧ parse data o = .ok p ∧
        let tokens := p.tokens.toList
        let made := searches o.hashBits (.ofOptions w o)
        (p.stats.literals = tokens.countP Token.isLiteral ∧
          p.stats.copies = (Token.copyLengths tokens).length ∧
          p.stats.copiedBytes = (Token.copyLengths tokens).sum ∧
          p.stats.longest = (Token.copyLengths tokens).foldl max 0 ∧
          p.stats.fingerprint = fingerprint tokens) ∧
        (p.stats.literals + p.stats.copiedBytes = p.stats.bytes ∧ p.stats.bytes = data.size) ∧
        (p.stats.searches = made.length ∧ p.stats.improved = made.countP Search.Outcome.isNew ∧
          p.stats.improved ≤ p.stats.searches ∧ p.stats.searches ≤ data.size) ∧
        (o.level < lazyLevel → p.stats.improved = p.stats.copies) ∧
        (lazyLevel ≤ o.level → p.stats.copies ≤ p.stats.improved) := by
  have hbounds : Accepts #[0, 97, 98, 99, 98, 99, 100, 101, 97, 98, 99, 100, 101]
      ⟨9, 9, 31, .wordwise⟩ :=
    ⟨by decide, by decide, by decide, by decide⟩
  exact ⟨hbounds, stats_agree hbounds⟩

end Parse

end Backref
