/-
# A parse that writes down how it uses its chain

A parse uses its chain in two ways: it puts positions in, and it searches at positions. The
parse of this file writes down each use as it makes it, in order, and computes the rest as the
plain parse does. Without what is written down it is the plain parse, move by move. And what is
written down is true of the plain parse: its chain ends up as if just these positions had been
put into an empty one, and it counts just as many searches.

A whole run writes down what its iterations write down, and an iteration writes down at most
three things: the position it arrives at, a search there, and the positions under a copy.

Key definitions: `Parse.Use`, `Parse.inserted`, `Parse.Logged`, `Parse.LoggedLoop`,
`Parse.Logged.parse`, `Parse.chainLeft`.
Key theorems: `Parse.LoggedLoop.value_run`, `Parse.LoggedLoop.uses_run`,
`Parse.LoggedLoop.chain_run`, `Parse.LoggedLoop.countP_run`, `Parse.Logged.value_parse`,
`Parse.Logged.chainLeft_eq`, `Parse.Logged.searches_eq`.
-/
import Backref.Proofs.Checked.Moves
import Backref.Proofs.Counts
import Backref.Proofs.Deferral

namespace Backref.Parse

/-! ### Uses of a chain -/

inductive Use where
  | insert (pos : Nat)
  | search (pos : Nat)
  deriving Repr, DecidableEq

def Use.inserted? : Use → Option Nat
  | insert pos => some pos
  | search _ => none

/-- The positions put in, in order. -/
def inserted (uses : List Use) : List Nat := uses.filterMap Use.inserted?

theorem inserted_append (us vs : List Use) : inserted (us ++ vs) = inserted us ++ inserted vs :=
  List.filterMap_append

theorem inserted_map_insert (positions : List Nat) :
    inserted (positions.map .insert) = positions := by
  rw [inserted, List.filterMap_map]
  exact List.filterMap_some

def Use.isSearch : Use → Bool
  | insert _ => false
  | search _ => true

/-- A value, and the uses of the chain on the way to it, in order. -/
structure Logged (α : Type) where
  value : α
  uses : List Use

namespace Logged

instance : Monad Logged where
  pure a := ⟨a, []⟩
  bind x f := ⟨(f x.value).value, x.uses ++ (f x.value).uses⟩

variable {α β : Type}

@[simp] theorem value_pure (a : α) : (pure a : Logged α).value = a := rfl

@[simp] theorem uses_pure (a : α) : (pure a : Logged α).uses = [] := rfl

@[simp] theorem value_bind (x : Logged α) (f : α → Logged β) :
    (x >>= f).value = (f x.value).value := rfl

@[simp] theorem uses_bind (x : Logged α) (f : α → Logged β) :
    (x >>= f).uses = x.uses ++ (f x.value).uses := rfl

/-! ### The moves -/

def insert (chain : HashChain) (bytes : Array UInt8) (pos : Nat) : Logged (Nat × HashChain) :=
  ⟨chain.insert bytes pos, [.insert pos]⟩

def search (s : Setup) (chain : HashChain) (pos head carried : Nat) : Logged Search.Outcome :=
  ⟨s.search chain pos head carried, [.search pos]⟩

def arrive (s : Setup) (chain : HashChain) (pos : Nat) : Logged (Nat × HashChain) :=
  if minMatch ≤ s.window.lookahead pos then insert chain s.window.guarded pos
  else pure (noPosition, chain)

def index (s : Setup) (chain : HashChain) (first stop : Nat) : Logged HashChain :=
  (List.range' first (stop - first)).foldlM (fun chain pos => do
    let arrived ← arrive s chain pos
    return arrived.2) chain

def look (s : Setup) (chain : HashChain) (pos head carried : Nat) (wanted : Bool) :
    Logged (Option Search.Outcome) :=
  if s.inReach pos head && wanted then do
    let outcome ← search s chain pos head carried
    return some outcome
  else return none

section

variable (s : Setup) (chain : HashChain)

theorem value_arrive (pos : Nat) : (arrive s chain pos).value = s.arrive chain pos := by
  unfold arrive Setup.arrive
  split
  · rfl
  · rfl

theorem uses_arrive (pos : Nat) :
    (arrive s chain pos).uses = (s.indexable pos (pos + 1)).map .insert := by
  rw [s.indexable_succ, arrive]
  split
  · rfl
  · rfl

/-- Arriving puts the position into the chain, if it can. -/
theorem chain_arrive (pos : Nat) :
    (s.arrive chain pos).2 = s.index chain (s.indexable pos (pos + 1)) := by
  rw [s.indexable_succ, Setup.arrive]
  split
  · rfl
  · rfl

/-- Arriving at one position after the other is putting in those that have enough bytes
ahead, in order. -/
theorem foldlM_arrive (positions : List Nat) :
    positions.foldlM (fun chain pos => do
        let arrived ← arrive s chain pos
        return arrived.2) chain =
      ⟨s.index chain (positions.filter fun pos => minMatch ≤ s.window.lookahead pos),
        (positions.filter fun pos => minMatch ≤ s.window.lookahead pos).map .insert⟩ := by
  induction positions generalizing chain with
  | nil => rfl
  | cons p ps ih =>
    have huses := uses_arrive s chain p
    rw [Setup.indexable, Nat.add_sub_cancel_left, List.range'_one] at huses
    rw [List.foldlM_cons, s.index_filter_cons, ← List.singleton_append, List.filter_append,
      List.map_append, ← huses, ← value_arrive]
    show Logged.mk _ _ = _
    simp only [value_bind, uses_bind, value_pure, uses_pure, List.append_nil, ih]

theorem value_index (first stop : Nat) :
    (index s chain first stop).value = s.index chain (s.indexable first stop) := by
  rw [index, foldlM_arrive]
  rfl

theorem uses_index (first stop : Nat) :
    (index s chain first stop).uses = (s.indexable first stop).map .insert := by
  rw [index, foldlM_arrive]
  rfl

theorem value_look (pos head carried : Nat) (wanted : Bool) :
    (look s chain pos head carried wanted).value =
      if s.inReach pos head && wanted then some (s.search chain pos head carried) else none := by
  unfold look
  split
  · rfl
  · rfl

theorem uses_look (pos head carried : Nat) (wanted : Bool) :
    (look s chain pos head carried wanted).uses =
      if s.inReach pos head && wanted then [.search pos] else [] := by
  unfold look
  split
  · rfl
  · rfl

/-- What an iteration puts in: its position, and then what is under a copy. -/
theorem inserted_iteration (searched : Bool) (pos : Nat) (first later : List Nat) :
    inserted (first.map .insert ++ ((if searched then [.search pos] else []) ++
      later.map .insert)) = first ++ later := by
  rw [inserted_append, inserted_append, inserted_map_insert, inserted_map_insert]
  cases searched with
  | false => rfl
  | true => rfl

/-- What an iteration counts: its search, if it makes one. -/
theorem countP_iteration (outcome : Option Search.Outcome) (pos : Nat) (first later : List Nat) :
    List.countP Use.isSearch (first.map .insert ++
      ((if outcome.isSome then [.search pos] else []) ++ later.map .insert)) =
      outcome.toList.length := by
  have hnone (positions : List Nat) : (positions.map Use.insert).countP Use.isSearch = 0 := by
    rw [List.countP_map]
    exact congrFun List.countP_false positions
  rw [List.countP_append, List.countP_append, hnone, hnone]
  cases outcome with
  | none => rfl
  | some outcome => rfl

end

end Logged

/-! ### A loop that writes down its uses -/

structure LoggedLoop (σ : Type) where
  size : Nat
  pos : σ → Nat
  step : σ → Logged σ
  pos_lt_step : ∀ st, pos st < pos (step st).value

namespace LoggedLoop

variable {σ : Type}

/-- The loop without what it writes down. -/
def plain (l : LoggedLoop σ) : Loop σ where
  size := l.size
  pos := l.pos
  step st := (l.step st).value
  pos_lt_step := l.pos_lt_step

def run (l : LoggedLoop σ) (st : σ) : Logged σ :=
  if l.pos st < l.size then
    let last := l.run (l.step st).value
    ⟨last.value, (l.step st).uses ++ last.uses⟩
  else pure st
termination_by l.size - l.pos st
decreasing_by have := l.pos_lt_step st; omega

theorem run_of_lt {l : LoggedLoop σ} {st : σ} (h : l.pos st < l.size) :
    l.run st = l.step st >>= l.run := by
  rw [run, if_pos h]
  rfl

theorem run_of_le {l : LoggedLoop σ} {st : σ} (h : l.size ≤ l.pos st) : l.run st = pure st := by
  rw [run, if_neg (Nat.not_lt.mpr h)]

/-- Without what it writes down, a run is a run of the plain loop. -/
theorem value_run (l : LoggedLoop σ) (st : σ) : (l.run st).value = l.plain.run st := by
  fun_induction Loop.run l.plain st with
  | case1 st hlt ih => rw [run_of_lt hlt, Logged.value_bind, ← ih]; rfl
  | case2 st hge => rw [run_of_le (Nat.le_of_not_lt hge), Logged.value_pure]

/-- A run writes down what its iterations write down, in order. -/
theorem uses_run (l : LoggedLoop σ) (st : σ) :
    (l.run st).uses = l.plain.collect (fun st => (l.step st).uses) st := by
  fun_induction Loop.run l.plain st with
  | case1 st hlt ih =>
    rw [run_of_lt hlt, Logged.uses_bind, Loop.collect_of_lt hlt, ← ih]
    rfl
  | case2 st hge =>
    rw [run_of_le (Nat.le_of_not_lt hge), Logged.uses_pure, Loop.collect, if_neg hge]

/-- **The chain holds what is written down**: if each iteration puts into the chain what it
writes down, in order, a run does. -/
theorem chain_run {l : LoggedLoop σ} (s : Setup) (chain : σ → HashChain)
    (hstep : ∀ st, chain (l.step st).value = s.index (chain st) (inserted (l.step st).uses))
    (st : σ) : chain (l.run st).value = s.index (chain st) (inserted (l.run st).uses) := by
  fun_induction Loop.run l.plain st with
  | case1 st hlt ih =>
    rw [run_of_lt hlt, Logged.value_bind, Logged.uses_bind, inserted_append]
    exact ih.trans ((congrArg (s.index · _) (hstep st)).trans
      (HashChain.insertAll_append _ _ _ _).symm)
  | case2 st hge =>
    rw [run_of_le (Nat.le_of_not_lt hge)]
    rfl

/-- **A counter counts the searches written down**, if each iteration adds its own to it. -/
theorem countP_run (l : LoggedLoop σ) (counter : σ → Nat)
    (hstep : ∀ st, counter (l.step st).value =
      counter st + (l.step st).uses.countP Use.isSearch) (st : σ) :
    counter (l.run st).value = counter st + (l.run st).uses.countP Use.isSearch := by
  rw [value_run, uses_run]
  exact l.plain.countP_run Use.isSearch counter (fun st => (l.step st).uses) hstep st

end LoggedLoop

namespace Logged

/-! ### The greedy loop -/

namespace Greedy

open Parse.Greedy

def indexUnder (s : Setup) (chain : HashChain) (pos length : Nat) : Logged HashChain :=
  if length ≤ s.effort.maxLazy then index s chain (pos + 1) (pos + length) else return chain

def step (s : Setup) (st : State) : Logged State := do
  let arrived ← arrive s st.chain st.pos
  let outcome ← look s arrived.2 st.pos arrived.1 (minMatch - 1) true
  let journal := st.journal.note outcome
  match choose outcome with
  | .copy length start =>
    let chain ← indexUnder s arrived.2 st.pos length
    return ⟨st.pos + length, chain, journal.emitCopy length (st.pos - start)⟩
  | .literal => return ⟨st.pos + 1, arrived.2, journal.emitLiteral (s.byteAt st.pos)⟩

/-- The positions that an iteration puts in after it has searched. -/
def later (s : Setup) (st : State) : List Nat :=
  match choose (outcomeAt s st) with
  | .copy length _ => followers s st.pos length
  | .literal => []

variable {s : Setup} {st : State}

theorem value_indexUnder (chain : HashChain) (pos length : Nat) :
    (indexUnder s chain pos length).value = s.index chain (followers s pos length) := by
  unfold indexUnder followers
  split
  · exact value_index s chain _ _
  · rfl

theorem uses_indexUnder (chain : HashChain) (pos length : Nat) :
    (indexUnder s chain pos length).uses = (followers s pos length).map .insert := by
  unfold indexUnder followers
  split
  · exact uses_index s chain _ _
  · rfl

theorem value_look_eq : (look s (s.arrive st.chain st.pos).2 st.pos (s.arrive st.chain st.pos).1
    (minMatch - 1) true).value = outcomeAt s st := by
  rw [value_look, Bool.and_true]
  rfl

theorem value_step (s : Setup) (st : State) : (step s st).value = Parse.Greedy.step s st := by
  unfold step
  rw [value_bind, value_arrive, value_bind, value_look_eq]
  rcases hchoose : choose (outcomeAt s st) with _ | ⟨length, start⟩
  · rw [step_of_literal hchoose]
    rfl
  · rw [step_of_copy hchoose, ← value_indexUnder]
    rfl

/-- **An iteration uses the chain for its position, then for a search, then for the positions
under a copy.** -/
theorem uses_step (s : Setup) (st : State) :
    (step s st).uses = (s.indexable st.pos (st.pos + 1)).map .insert ++
      ((if (outcomeAt s st).isSome then [.search st.pos] else []) ++
        (later s st).map .insert) := by
  have hlook : (look s (s.arrive st.chain st.pos).2 st.pos (s.arrive st.chain st.pos).1
      (minMatch - 1) true).uses = if (outcomeAt s st).isSome then [.search st.pos] else [] := by
    rw [uses_look, Bool.and_true, outcomeAt, Parse.Greedy.look]
    split
    · rfl
    · rfl
  unfold step later
  rw [uses_bind, uses_arrive, value_arrive, uses_bind, hlook, value_look_eq]
  rcases choose (outcomeAt s st) with _ | ⟨length, start⟩
  · rfl
  · show _ ++ (_ ++ ((indexUnder s _ st.pos length).uses ++ [])) = _
    rw [uses_indexUnder, List.append_nil]

/-- An iteration puts into the chain what it writes down. -/
theorem chain_step (s : Setup) (st : State) :
    (step s st).value.chain = s.index st.chain (inserted (step s st).uses) := by
  rw [uses_step, inserted_iteration, value_step, ← s.index_append, ← chain_arrive]
  rcases hchoose : choose (outcomeAt s st) with _ | ⟨length, start⟩
  · rw [step_of_literal hchoose, later, hchoose]
    rfl
  · rw [step_of_copy hchoose, later, hchoose]

theorem searches_step (s : Setup) (st : State) :
    (step s st).value.journal.searches =
      st.journal.searches + (step s st).uses.countP Use.isSearch := by
  rw [uses_step, countP_iteration, value_step, (records_step s st).searches_eq, List.countP_true]

def loop (s : Setup) : LoggedLoop State where
  size := s.window.size
  pos := State.pos
  step := step s
  pos_lt_step st := by
    rw [value_step]
    exact pos_lt_step s st

theorem plain_loop (s : Setup) : (loop s).plain = Parse.Greedy.loop s := by
  have hstep : (fun st => (step s st).value) = Parse.Greedy.step s := funext (value_step s)
  simp only [LoggedLoop.plain, loop, hstep]
  rfl

theorem value_run (s : Setup) (st : State) :
    ((loop s).run st).value = Parse.Greedy.run s st := by
  rw [LoggedLoop.value_run, plain_loop, run_eq]

/-- What the plain loop puts into its chain is what is written down. -/
theorem chain_run (s : Setup) (st : State) :
    (Parse.Greedy.run s st).chain = s.index st.chain (inserted ((loop s).run st).uses) := by
  rw [← value_run]
  exact LoggedLoop.chain_run s State.chain (chain_step s) st

/-- What the plain loop counts is the searches written down. -/
theorem searches_run (s : Setup) (st : State) :
    (Parse.Greedy.run s st).journal.searches =
      st.journal.searches + ((loop s).run st).uses.countP Use.isSearch := by
  rw [← value_run]
  exact (loop s).countP_run (fun st => st.journal.searches) (searches_step s) st

end Greedy

/-! ### The lazy loop -/

namespace Lazy

open Parse.Lazy

/-- What an iteration does after it has searched: it emits the held match, or a pending byte, or
nothing. -/
def settle (s : Setup) (st : State) (chain : HashChain) (outcome : Option Search.Outcome) :
    Logged State :=
  let journal := st.journal.note outcome
  let start := startAfter st.start outcome
  let length := lengthAt st.pos start outcome
  if minMatch ≤ st.length ∧ length ≤ st.length then do
    let next := st.pos - 1 + st.length
    let chain ← index s chain (st.pos + 1) next
    return ⟨next, chain, journal.emitCopy st.length (st.pos - 1 - st.start), noMatch, start, false⟩
  else if st.pending then
    return ⟨st.pos + 1, chain, journal.emitLiteral (s.byteAt (st.pos - 1)), length, start, true⟩
  else return ⟨st.pos + 1, chain, journal, length, start, true⟩

def step (s : Setup) (st : State) : Logged State := do
  let arrived ← arrive s st.chain st.pos
  let outcome ← look s arrived.2 st.pos arrived.1 st.length (st.length < s.effort.maxLazy)
  settle s st arrived.2 outcome

def later (s : Setup) (st : State) : List Nat :=
  if Takes s st then s.indexable (st.pos + 1) (st.pos - 1 + st.length) else []

variable {s : Setup} {st : State}

theorem value_look_eq : (look s (s.arrive st.chain st.pos).2 st.pos (s.arrive st.chain st.pos).1
    st.length (st.length < s.effort.maxLazy)).value = outcomeAt s st :=
  value_look s _ _ _ _ _

theorem value_step (s : Setup) (st : State) : (step s st).value = Parse.Lazy.step s st := by
  unfold step
  rw [value_bind, value_arrive, value_bind, value_look_eq]
  by_cases htakes : Takes s st
  · rw [step_of_takes htakes, ← value_index]
    exact congrArg Logged.value (if_pos htakes)
  · rcases hpending : st.pending with _ | _
    · rw [step_of_idle htakes hpending, settle, hpending]
      exact congrArg Logged.value (if_neg htakes)
    · rw [step_of_pending htakes hpending, settle, hpending]
      exact congrArg Logged.value (if_neg htakes)

theorem uses_settle (chain : HashChain) :
    (settle s st chain (outcomeAt s st)).uses = (later s st).map .insert := by
  unfold later
  by_cases htakes : Takes s st
  · rw [if_pos htakes, ← uses_index s chain, ← List.append_nil (index s chain _ _).uses]
    exact congrArg Logged.uses (if_pos htakes)
  · rw [if_neg htakes]
    refine (congrArg Logged.uses (if_neg htakes)).trans ?_
    split
    · rfl
    · rfl

/-- **An iteration uses the chain for its position, then for a search, then for the positions
under a copy.** -/
theorem uses_step (s : Setup) (st : State) :
    (step s st).uses = (s.indexable st.pos (st.pos + 1)).map .insert ++
      ((if (outcomeAt s st).isSome then [.search st.pos] else []) ++
        (later s st).map .insert) := by
  have hlook : (look s (s.arrive st.chain st.pos).2 st.pos (s.arrive st.chain st.pos).1
      st.length (st.length < s.effort.maxLazy)).uses =
        if (outcomeAt s st).isSome then [.search st.pos] else [] := by
    rw [uses_look, outcomeAt, Parse.Lazy.look]
    split
    · rfl
    · rfl
  unfold step
  rw [uses_bind, uses_arrive, value_arrive, uses_bind, hlook, value_look_eq, uses_settle]

theorem chain_step (s : Setup) (st : State) :
    (step s st).value.chain = s.index st.chain (inserted (step s st).uses) := by
  rw [uses_step, inserted_iteration, value_step, ← s.index_append, ← chain_arrive, later]
  by_cases htakes : Takes s st
  · rw [step_of_takes htakes, if_pos htakes]
  · rw [if_neg htakes]
    rcases hpending : st.pending with _ | _
    · rw [step_of_idle htakes hpending]
      rfl
    · rw [step_of_pending htakes hpending]
      rfl

theorem searches_step (s : Setup) (st : State) :
    (step s st).value.journal.searches =
      st.journal.searches + (step s st).uses.countP Use.isSearch := by
  rw [uses_step, countP_iteration, value_step, (records_step s st).searches_eq, List.countP_true]

def loop (s : Setup) : LoggedLoop State where
  size := s.window.size
  pos := State.pos
  step := step s
  pos_lt_step st := by
    rw [value_step]
    exact pos_lt_step s st

theorem plain_loop (s : Setup) : (loop s).plain = Parse.Lazy.loop s := by
  have hstep : (fun st => (step s st).value) = Parse.Lazy.step s := funext (value_step s)
  simp only [LoggedLoop.plain, loop, hstep]
  rfl

theorem value_run (s : Setup) (st : State) :
    ((loop s).run st).value = Parse.Lazy.run s st := by
  rw [LoggedLoop.value_run, plain_loop, run_eq]

/-- What the plain loop puts into its chain is what is written down. -/
theorem chain_run (s : Setup) (st : State) :
    (Parse.Lazy.run s st).chain = s.index st.chain (inserted ((loop s).run st).uses) := by
  rw [← value_run]
  exact LoggedLoop.chain_run s State.chain (chain_step s) st

/-- What the plain loop counts is the searches written down. -/
theorem searches_run (s : Setup) (st : State) :
    (Parse.Lazy.run s st).journal.searches =
      st.journal.searches + ((loop s).run st).uses.countP Use.isSearch := by
  rw [← value_run]
  exact (loop s).countP_run (fun st => st.journal.searches) (searches_step s) st

end Lazy

/-! ### The parse -/

def journal (hashBits : Nat) (s : Setup) : Logged Journal :=
  match s.effort.strategy with
  | .stored => return stored s
  | .greedy => do
    let last ← (Greedy.loop s).run (Greedy.start hashBits s)
    return last.journal
  | .lazy => do
    let last ← (Lazy.loop s).run (Lazy.start hashBits s)
    return Parse.Lazy.flush s last

/-- Parse a block, and write down how its chain is used. -/
def parse (data : Array UInt8) (o : Options) : Except Error (Logged Parsed) :=
  match checkLevel o.level with
  | .error e => .error (.refused e)
  | .ok _ =>
    match Window.ofData data o.windowBits with
    | .error e => .error (.refused e)
    | .ok window =>
      if hashBitsLimits.Admits o.hashBits then
        .ok do
          let journal ← journal o.hashBits (.ofOptions window o)
          return ⟨journal.tokens, journal.tally.stats⟩
      else .error (.tableTooLarge o.hashBits)

theorem value_journal (hashBits : Nat) (s : Setup) :
    (journal hashBits s).value = Parse.journal hashBits s := by
  unfold journal Parse.journal
  cases s.effort.strategy with
  | stored => rfl
  | greedy => exact congrArg Parse.Greedy.State.journal (Greedy.value_run s _)
  | «lazy» => exact congrArg (Parse.Lazy.flush s) (Lazy.value_run s _)

theorem uses_journal_of_greedy {s : Setup} (h : s.effort.strategy = .greedy) (hashBits : Nat) :
    (journal hashBits s).uses = ((Greedy.loop s).run (Parse.Greedy.start hashBits s)).uses := by
  rw [journal, h]
  exact List.append_nil _

theorem uses_journal_of_lazy {s : Setup} (h : s.effort.strategy = .lazy) (hashBits : Nat) :
    (journal hashBits s).uses = ((Lazy.loop s).run (Parse.Lazy.start hashBits s)).uses := by
  rw [journal, h]
  exact List.append_nil _

/-- **Without what is written down it is the plain parse.** -/
theorem value_parse (data : Array UInt8) (o : Options) :
    (parse data o).map Logged.value = Backref.parse data o := by
  unfold parse Backref.parse
  cases checkLevel o.level with
  | error e => rfl
  | ok level =>
    cases Window.ofData data o.windowBits with
    | error e => rfl
    | ok w =>
      simp only [← value_journal]
      split
      · rfl
      · rfl

end Logged

/-! ### What is written down, against the plain parse -/

/-- The chain as the plain parse of a block leaves it, by the loop of its level. -/
def chainLeft (hashBits : Nat) (s : Setup) : HashChain :=
  match s.effort.strategy with
  | .stored => .empty s.window.bits hashBits
  | .greedy => (Greedy.run s (Greedy.start hashBits s)).chain
  | .lazy => (Lazy.run s (Lazy.start hashBits s)).chain

/-- No search is made where every byte is a literal. -/
theorem searches_stored (s : Setup) : (stored s).searches = 0 :=
  Array.foldl_induction (motive := fun _ (j : Journal) => j.searches = 0) rfl
    fun i j hj => (j.searches_emit (.literal s.window.data[i])).trans hj

namespace Logged

/-- **The plain parse leaves its chain as if the positions written down had been put into an
empty one**, and nothing else. -/
theorem chainLeft_eq (hashBits : Nat) (s : Setup) :
    chainLeft hashBits s =
      s.index (.empty s.window.bits hashBits) (inserted (journal hashBits s).uses) := by
  cases hstrategy : s.effort.strategy with
  | stored =>
    rw [chainLeft, journal, hstrategy]
    rfl
  | greedy =>
    rw [chainLeft, hstrategy, uses_journal_of_greedy hstrategy]
    exact Greedy.chain_run s _
  | «lazy» =>
    rw [chainLeft, hstrategy, uses_journal_of_lazy hstrategy]
    exact Lazy.chain_run s _

/-- **The plain parse counts the searches written down**, and no others. -/
theorem searches_eq (hashBits : Nat) (s : Setup) :
    (Parse.journal hashBits s).searches = (journal hashBits s).uses.countP Use.isSearch := by
  cases hstrategy : s.effort.strategy with
  | stored =>
    rw [Parse.journal, journal, hstrategy]
    exact searches_stored s
  | greedy =>
    rw [Parse.journal, hstrategy, uses_journal_of_greedy hstrategy]
    exact (Greedy.searches_run s _).trans (Nat.zero_add _)
  | «lazy» =>
    rw [Parse.journal, hstrategy, uses_journal_of_lazy hstrategy]
    exact (Parse.Lazy.searches_flush s _).trans
      ((Lazy.searches_run s _).trans (Nat.zero_add _))

end Logged

end Backref.Parse
