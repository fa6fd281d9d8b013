/-
# The comparator changes nothing but the speed

Both comparators answer with the longest common prefix of two runs, capped at the
limit. A search sees its comparator only through that answer, a loop sees the
comparator only through its searches, and a scan only through the parses of its
blocks. So wherever a comparator can be chosen, either choice gives the same
outcome: the same match, the same tokens and counters, the same report or the same
refusal.

Key definitions: `Parse.Setup.withComparator`.
Key theorems: `isGreatest_agreement`, `Parse.Setup.search_withComparator`,
`Parse.journal_withComparator`, `parse_withComparator`, `scan_withComparator`,
`comparators_interchangeable`.
-/
import Mathlib.Order.Bounds.Defs
import Backref.Proofs.Answer
import Backref.Proofs.Loops
import Backref.Scan

namespace Backref

/-! ### The longest common prefix -/

/-- The agreement is the length of the longest common prefix within the limit. -/
theorem isGreatest_agreement (xs ys : List UInt8) (limit : Nat) :
    IsGreatest {n | n ≤ limit ∧ n ≤ xs.length ∧ xs.take n <+: ys} (agreement xs ys limit) := by
  have hbyte : ∀ k < agreement xs ys limit, ∃ x, xs[k]? = some x ∧ ys[k]? = some x :=
    fun k hk => getElem?_eq_of_lt_agreement hk
  constructor
  · refine ⟨agreement_le xs ys limit, Nat.le_of_not_lt fun hlong => ?_, ?_⟩
    · obtain ⟨x, hx, -⟩ := hbyte xs.length hlong
      exact absurd hx (by simp)
    · rw [List.prefix_iff_getElem?]
      intro k hk
      rw [List.length_take] at hk
      obtain ⟨x, hx, hy⟩ := hbyte k (by omega)
      rw [hy, List.getElem_take, (List.getElem?_eq_some_iff.mp hx).2]
  · rintro n ⟨hlimit, hlength, hcommon⟩
    rcases n with _ | n
    · exact Nat.zero_le _
    · refine lt_agreement_iff.mpr ⟨hlimit, fun k hk => ⟨xs[k], by simp, ?_⟩⟩
      have := List.prefix_iff_getElem?.mp hcommon k (by rw [List.length_take]; omega)
      rw [this, List.getElem_take]

/-! ### A parse -/

namespace Parse

def Setup.withComparator (s : Setup) (comparator : Comparator) : Setup :=
  { s with comparator := comparator }

variable (s : Setup) (comparator : Comparator)

theorem Setup.search_withComparator : (s.withComparator comparator).search = s.search := by
  funext chain pos head carried
  exact Search.longest_congr fun _ _ => rfl

theorem Greedy.step_withComparator :
    Greedy.step (s.withComparator comparator) = Greedy.step s := by
  funext ⟨pos, chain, journal⟩
  simp only [Greedy.step, Greedy.look, Setup.search_withComparator]
  rfl

theorem Lazy.step_withComparator : Lazy.step (s.withComparator comparator) = Lazy.step s := by
  funext ⟨pos, chain, journal, length, start, pending⟩
  simp only [Lazy.step, Lazy.look, Setup.search_withComparator]
  rfl

theorem Greedy.run_withComparator : Greedy.run (s.withComparator comparator) = Greedy.run s := by
  have hloop : Greedy.loop (s.withComparator comparator) = Greedy.loop s := by
    simp only [Greedy.loop, Greedy.step_withComparator]
    rfl
  funext st
  rw [Greedy.run_eq, Greedy.run_eq, hloop]

theorem Lazy.run_withComparator : Lazy.run (s.withComparator comparator) = Lazy.run s := by
  have hloop : Lazy.loop (s.withComparator comparator) = Lazy.loop s := by
    simp only [Lazy.loop, Lazy.step_withComparator]
    rfl
  funext st
  rw [Lazy.run_eq, Lazy.run_eq, hloop]

/-- **A whole run makes the same journal**, whichever loop makes it. -/
theorem journal_withComparator (hashBits : Nat) :
    journal hashBits (s.withComparator comparator) = journal hashBits s := by
  have heffort : (s.withComparator comparator).effort = s.effort := rfl
  rw [journal, journal, heffort]
  split
  · rfl
  · rw [Greedy.run_withComparator]
    rfl
  · rw [Lazy.run_withComparator]
    rfl

end Parse

theorem parse_withComparator (data : Array UInt8) (o : Parse.Options) (comparator : Comparator) :
    parse data { o with comparator := comparator } = parse data o := by
  have hjournal (w : Window) :
      Parse.journal o.hashBits (.ofOptions w { o with comparator := comparator }) =
        Parse.journal o.hashBits (.ofOptions w o) :=
    Parse.journal_withComparator (.ofOptions w o) comparator o.hashBits
  simp only [parse, hjournal]

/-! ### A scan -/

namespace Scan

variable (o : Options) (comparator : Comparator)

theorem block_withComparator (data : Array UInt8) :
    block { o with comparator := comparator } data = block o data := by
  have hparse : parse data (Options.parseOptions { o with comparator := comparator }) =
      parse data o.parseOptions :=
    parse_withComparator data o.parseOptions comparator
  rw [block, block, hparse]

theorem parseBlocks_withComparator (index : Nat) (blocks : List (Array UInt8)) :
    parseBlocks { o with comparator := comparator } index blocks = parseBlocks o index blocks := by
  induction blocks generalizing index with
  | nil => rfl
  | cons data rest ih => rw [parseBlocks, parseBlocks, block_withComparator, ih]

end Scan

theorem scan_withComparator (data : Array UInt8) (o : Scan.Options) (comparator : Comparator) :
    scan data { o with comparator := comparator } = scan data o := by
  simp only [scan, Scan.parseBlocks_withComparator]

/-! ### Everywhere -/

/-- **The two comparators are interchangeable.** Both answer with the longest common
prefix, capped at the limit; and a search, a parse and a scan have the same outcome
with either. -/
theorem comparators_interchangeable :
    (∀ (a b : View) (limit : Nat),
      Wordwise.agreement a b limit = Bytewise.agreement a b limit ∧
        IsGreatest {n | n ≤ limit ∧ n ≤ a.size ∧ a.toList.take n <+: b.toList}
          (Bytewise.agreement a b limit)) ∧
    (∀ (bytes : Array UInt8) (links : Links) (current head : Nat) (p : Search.Params),
      Search.longest .wordwise bytes links current head p =
        Search.longest .bytewise bytes links current head p) ∧
    (∀ (data : Array UInt8) (o : Parse.Options),
      parse data { o with comparator := .wordwise } =
        parse data { o with comparator := .bytewise }) ∧
    ∀ (data : Array UInt8) (o : Scan.Options),
      scan data { o with comparator := .wordwise } =
        scan data { o with comparator := .bytewise } := by
  refine ⟨fun a b limit => ⟨?_, ?_⟩, fun bytes links current head p => ?_, fun data o => ?_,
    fun data o => ?_⟩
  · rw [Wordwise.agreement_eq, Bytewise.agreement_eq]
  · rw [Bytewise.agreement_eq, ← a.length_toList]
    exact isGreatest_agreement a.toList b.toList limit
  · exact Search.longest_congr fun _ _ => rfl
  · rw [parse_withComparator data o .wordwise, parse_withComparator data o .bytewise]
  · rw [scan_withComparator data o .wordwise, scan_withComparator data o .bytewise]

end Backref
