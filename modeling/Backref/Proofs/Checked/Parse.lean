/-
# A parse never faults and always advances

The checked parse makes each step of a parse with its checks, from the sums that size
the window and its tables to the last byte that is flushed. It answers what the plain
parse answers, for any block and any settings, so no difference of a parse is below
zero, no sum of positions passes the end of the block, no index is out of bounds and
no assertion fails. Within the limits there is a result, and every iteration of either
loop moves forward until the loop stands at the end of the block.

Key definitions: `Checked.setup`, `Checked.journal`, `Checked.parse`.
Key theorems: `Checked.journal_eq`, `Checked.parse_eq`, `Checked.parse_never_faults`.
-/
import Backref.Proofs.Checked.Loops
import Backref.Proofs.Settings

namespace Backref.Checked

open Parse

/-! ### Before the first iteration -/

def effort (level : Nat) : Checked Effort :=
  get Effort.table.toArray
    (min (if level = 0 then levelLimits.standard else level) levelLimits.greatest)

/-- The window of a block; its buffer has a size that can be addressed. -/
def window (data : Array UInt8) (bits : Nat) : Checked (Except ConfigError Window) := do
  let greatest ← sub maxPosition guardSize
  if windowBitsLimits.Admits bits ∧ data.size ≤ greatest then do
    atMost maxOffset (data.size + guardSize)
    .ok (Window.ofData data bits)
  else .ok (Window.ofData data bits)

def setup (window : Window) (o : Options) : Checked Setup := do
  let row ← effort o.level
  let farthest ← reach window.bits
  .ok
    { window
      effort := row
      params := .ofLevel o.level farthest 0
      comparator := o.comparator }

def tables (windowBits hashBits : Nat) : Checked HashChain := do
  let span ← power windowBits
  let buckets ← power hashBits
  let _ ← sub span 1
  let _ ← sub buckets 1
  .ok (.empty windowBits hashBits)

theorem effort_eq (level : Nat) : effort level = .ok (Effort.ofLevel level) := by
  have hrow : min (if level = 0 then levelLimits.standard else level) levelLimits.greatest
      < Effort.table.length := Nat.lt_of_le_of_lt (Nat.min_le_right _ _) (by decide)
  rw [effort, Effort.ofLevel, List.getD_eq_getElem?_getD, List.getElem?_eq_getElem hrow,
    Option.getD_some]
  refine get_eq_ok_iff.mpr ?_
  rw [List.getElem?_toArray, List.getElem?_eq_getElem hrow]

theorem window_eq (data : Array UInt8) (bits : Nat) :
    window data bits = .ok (Window.ofData data bits) := by
  rw [window, sub_eq_ok (by decide), ok_bind]
  split
  · rename_i h
    have hsize := h.2
    have hroom : data.size + guardSize ≤ maxOffset := by
      simp only [maxPosition, guardSize, wordSize] at hsize ⊢
      simp only [maxOffset]
      omega
    rw [atMost_eq_ok hroom, ok_bind]
  · rfl

theorem setup_eq (w : Window) (o : Options) : setup w o = .ok (.ofOptions w o) := by
  rw [setup, effort_eq, ok_bind, reach_eq w.bits_admitted, ok_bind]
  rfl

theorem tables_eq {windowBits hashBits : Nat} (hwindow : windowBitsLimits.Admits windowBits)
    (hhash : hashBitsLimits.Admits hashBits) :
    tables windowBits hashBits = .ok (.empty windowBits hashBits) := by
  have hw : windowBits ≤ 15 := hwindow.2
  have hh : hashBits ≤ 60 := hhash.2
  rw [tables, power_eq_ok (by omega), ok_bind, power_eq_ok (by omega), ok_bind,
    sub_eq_ok Nat.one_le_two_pow, ok_bind, sub_eq_ok Nat.one_le_two_pow, ok_bind]

/-! ### A whole parse -/

def journal (hashBits : Nat) (s : Setup) : Checked Journal := do
  let chain ← tables s.window.bits hashBits
  match s.effort.strategy with
  | .stored => (List.range s.window.size).foldlM (emitLiteral s) .empty
  | .greedy => do
    let last ← run s.window.size Parse.Greedy.State.pos (Greedy.step hashBits s) s.window.size
      ⟨0, chain, .empty⟩
    .ok last.journal
  | .lazy => do
    let last ← run s.window.size Parse.Lazy.State.pos (Lazy.step hashBits s) s.window.size
      ⟨0, chain, .empty, Parse.Lazy.noMatch, noPosition, false⟩
    Lazy.flush s last

def parse (data : Array UInt8) (o : Options) : Checked (Except Parse.Error Parsed) :=
  match checkLevel o.level with
  | .error e => .ok (.error (.refused e))
  | .ok _ => do
    let window ← window data o.windowBits
    match window with
    | .error e => .ok (.error (.refused e))
    | .ok w =>
      if hashBitsLimits.Admits o.hashBits then do
        let s ← setup w o
        let journal ← journal o.hashBits s
        .ok (.ok ⟨journal.tokens, journal.tally.stats⟩)
      else .ok (.error (.tableTooLarge o.hashBits))

/-- Neither loop faults. -/
theorem journal_eq {hashBits : Nat} (hhash : hashBitsLimits.Admits hashBits) (w : Window)
    {o : Options} (hlevel : levelLimits.Admits o.level) :
    journal hashBits (.ofOptions w o) = .ok (Parse.journal hashBits (.ofOptions w o)) := by
  have hs : (Setup.ofOptions w o).params.maxDistance = (Setup.ofOptions w o).window.reach := rfl
  have htables : tables (Setup.ofOptions w o).window.bits hashBits =
      .ok (.empty (Setup.ofOptions w o).window.bits hashBits) :=
    tables_eq w.bits_admitted hhash
  rw [journal, htables, ok_bind, Parse.journal]
  rcases Nat.lt_or_ge o.level lazyLevel with hgreedy | hlazy
  · have hrun := Greedy.run_eq_ok hs (Greedy.ready_start (.ofOptions w o) hhash)
      (Nat.le_add_left _ _)
    rw [strategy_of_lt_lazyLevel w hlevel hgreedy]
    change (run _ _ _ _ (Parse.Greedy.start hashBits (.ofOptions w o)) >>= _) = _
    rw [hrun, ok_bind]
  · obtain ⟨hrun, hready⟩ := Lazy.run_eq_ok hs (Lazy.ready_start (.ofOptions w o) hhash)
      (Nat.le_add_left _ _)
    rw [strategy_of_lazyLevel_le w hlevel hlazy]
    change (run _ _ _ _ (Parse.Lazy.start hashBits (.ofOptions w o)) >>= _) = _
    rw [hrun, ok_bind, Lazy.flush_eq hready]

/-- **A parse never faults**, for any block and any settings. -/
theorem parse_eq (data : Array UInt8) (o : Options) :
    parse data o = .ok (Backref.parse data o) := by
  rw [parse, Backref.parse]
  rcases hlevel : checkLevel o.level with e | level
  · rfl
  · simp only
    rw [window_eq, ok_bind]
    rcases Window.ofData data o.windowBits with e | w
    · rfl
    · simp only
      split
      · rename_i hhash
        rw [setup_eq, ok_bind, journal_eq hhash w (checkLevel_eq_ok_iff.mp hlevel).1, ok_bind]
      · rfl

/-- **A parse within the limits never faults and always advances.** The checked parse
has the result of the plain one, and both loops move forward with every iteration,
until they stand at the end of the block after no more iterations than it has
bytes. -/
theorem parse_never_faults {data : Array UInt8} {o : Options} (h : Accepts data o) :
    ∃ (w : Window) (p : Parsed), w.data = data ∧ w.bits = o.windowBits ∧
      Backref.parse data o = .ok p ∧ parse data o = .ok (.ok p) ∧
      (Parse.Greedy.loop (.ofOptions w o)).Advances
        (Parse.Greedy.start o.hashBits (.ofOptions w o)) ∧
      (Parse.Lazy.loop (.ofOptions w o)).Advances
        (Parse.Lazy.start o.hashBits (.ofOptions w o)) := by
  obtain ⟨w, hw, hbits, hparse⟩ := parse_eq_ok h
  have hs : (Setup.ofOptions w o).params.maxDistance = (Setup.ofOptions w o).window.reach := rfl
  refine ⟨w, _, hw, hbits, hparse, ?_, ?_, ?_⟩
  · rw [parse_eq, hparse]
  · exact Loop.advances_of_le (fun _ hlt h => Parse.Greedy.described_step hs hlt h)
      (fun _ h => h.pos_le) ⟨Nat.zero_le _, rfl, trivial⟩
  · exact Loop.advances_of_le (fun _ hlt h => Parse.Lazy.sound_step hs hlt h)
      (fun _ h => h.pos_le) (Parse.Lazy.sound_start _ _)

/-- The search at the tenth byte finds nothing new, so the start that it is measured from
is stale, and the block ends inside a match. -/
theorem parse_never_faults_stale :
    let data : Array UInt8 :=
      #[0, 98, 99, 100, 120, 99, 100, 101, 121, 98, 99, 100, 101, 122, 98, 99, 100]
    let o : Options := ⟨6, 9, 31, .wordwise⟩
    Accepts data o ∧
      ∃ (w : Window) (p : Parsed), w.data = data ∧ w.bits = o.windowBits ∧
        Backref.parse data o = .ok p ∧ parse data o = .ok (.ok p) ∧
        (Parse.Greedy.loop (.ofOptions w o)).Advances
          (Parse.Greedy.start o.hashBits (.ofOptions w o)) ∧
        (Parse.Lazy.loop (.ofOptions w o)).Advances
          (Parse.Lazy.start o.hashBits (.ofOptions w o)) := by
  have hbounds : Accepts
      #[0, 98, 99, 100, 120, 99, 100, 101, 121, 98, 99, 100, 101, 122, 98, 99, 100]
      ⟨6, 9, 31, .wordwise⟩ :=
    ⟨by decide, by decide, by decide, by decide⟩
  exact ⟨hbounds, parse_never_faults hbounds⟩

end Backref.Checked
