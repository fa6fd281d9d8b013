/-
# What a parse emits expands to the block

Both loops emit tokens that describe the block from its first byte to its last, so
a parse within the limits has a result, and expanding its tokens gives the block
again.

Key theorems: `Parse.describes_journal`, `Parse.expand_journal`, `Parse.expand_parse`.
-/
import Backref.Proofs.GreedyRun
import Backref.Proofs.LazyRun

namespace Backref.Parse

theorem journal_of_lt_lazyLevel {hashBits : Nat} {w : Window} {o : Options}
    (h : levelLimits.Admits o.level) (hlevel : o.level < lazyLevel) :
    journal hashBits (.ofOptions w o) =
      (Greedy.run (.ofOptions w o) (Greedy.start hashBits (.ofOptions w o))).journal := by
  rw [journal, strategy_of_lt_lazyLevel w h hlevel]

theorem describes_journal (hashBits : Nat) (w : Window) {o : Options}
    (h : levelLimits.Admits o.level) :
    Token.coveredAll (journal hashBits (.ofOptions w o)).tokens.toList = w.size ∧
      Token.AllFrom w.Describes 0 (journal hashBits (.ofOptions w o)).tokens.toList := by
  have hs : (Setup.ofOptions w o).params.maxDistance = (Setup.ofOptions w o).window.reach := rfl
  rcases Nat.lt_or_ge o.level lazyLevel with hlevel | hlevel
  · rw [journal_of_lt_lazyLevel h hlevel]
    exact Greedy.described_run hs ⟨Nat.zero_le _, rfl, trivial⟩
  · rw [journal_of_lazyLevel_le h hlevel, Lazy.tokens_flush_run_start]
    have hheld : (Lazy.usable hashBits (.ofOptions w o) 0 Lazy.noMatch).Repeats
        (.ofOptions w o) 0 :=
      Lazy.repeats_usable hs (.inl (by decide))
    obtain ⟨hcovered, hall⟩ := Lazy.describes_tokensFrom hs (Nat.zero_le _) hheld
    exact ⟨by rw [← Nat.zero_add (Token.coveredAll _)]; exact hcovered, hall⟩

theorem expand_journal (hashBits : Nat) (w : Window) {o : Options}
    (h : levelLimits.Admits o.level) :
    Token.expand (journal hashBits (.ofOptions w o)).tokens.toList = .ok w.data := by
  obtain ⟨hcovered, hall⟩ := describes_journal hashBits w h
  calc Token.expand (journal hashBits (.ofOptions w o)).tokens.toList
      = Token.expandFrom 0 (w.data.extract 0 0)
          (journal hashBits (.ofOptions w o)).tokens.toList := by
        rw [Array.extract_zero, Token.expand]
    _ = .ok (w.data.extract 0 (0 + Token.coveredAll _)) :=
        Token.expandFrom_of_describes (Nat.zero_le _) hall
    _ = .ok w.data := by
        rw [Nat.zero_add, hcovered, Window.size, Array.extract_size]

/-- **A block is given back.** A parse within the limits has a result, and its
tokens expand to the block. -/
theorem expand_parse {data : Array UInt8} {o : Options} (h : Accepts data o) :
    ∃ p, parse data o = .ok p ∧ Token.expand p.tokens.toList = .ok data := by
  obtain ⟨w, rfl, -, hparse⟩ := parse_eq_ok h
  exact ⟨_, hparse, expand_journal o.hashBits w h.level⟩

/-- A run of one byte, which a copy at distance one repeats. -/
theorem expand_parse_overlap :
    Accepts #[7, 7, 7, 7, 7, 7, 7, 8] ⟨9, 15, 31, .wordwise⟩ ∧
      ∃ p, parse #[7, 7, 7, 7, 7, 7, 7, 8] ⟨9, 15, 31, .wordwise⟩ = .ok p ∧
        Token.expand p.tokens.toList = .ok #[7, 7, 7, 7, 7, 7, 7, 8] := by
  have hbounds : Accepts #[7, 7, 7, 7, 7, 7, 7, 8] ⟨9, 15, 31, .wordwise⟩ :=
    ⟨by decide, by decide, by decide, by decide⟩
  exact ⟨hbounds, expand_parse hbounds⟩

end Backref.Parse
