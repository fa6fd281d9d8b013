/-
# A block within the limits is parsed

If the level, the window size and the size of the hash table are in their ranges
and 32-bit positions address the block, the parse has a result: the journal of the
loop that the level chooses, greedy below level four and lazy from there on.

Key definitions: `Parse.Accepts`.
Key theorems: `Parse.strategy_eq`, `Parse.strategy_of_lt_lazyLevel`,
`Parse.strategy_of_lazyLevel_le`, `Parse.parse_eq_ok`.
-/
import Backref.Parse.Basic

namespace Backref.Parse

/-- The settings are in their ranges, and 32-bit positions address the block. -/
structure Accepts (data : Array UInt8) (o : Options) : Prop where
  level : levelLimits.Admits o.level
  windowBits : windowBitsLimits.Admits o.windowBits
  hashBits : hashBitsLimits.Admits o.hashBits
  size : data.size ≤ maxPosition - guardSize

def lazyLevel : Nat := 4

theorem strategy_eq {level : Nat} (h : levelLimits.Admits level) :
    (Effort.ofLevel level).strategy = if level < lazyLevel then .greedy else .lazy := by
  obtain ⟨h1, h2⟩ := h
  simp only [levelLimits] at h1 h2
  have hlevels : level = 1 ∨ level = 2 ∨ level = 3 ∨ level = 4 ∨ level = 5 ∨ level = 6 ∨
      level = 7 ∨ level = 8 ∨ level = 9 := by
    omega
  rcases hlevels with rfl | rfl | rfl | rfl | rfl | rfl | rfl | rfl | rfl <;> rfl

theorem strategy_of_lt_lazyLevel (w : Window) {o : Options} (h : levelLimits.Admits o.level)
    (hlevel : o.level < lazyLevel) : (Setup.ofOptions w o).effort.strategy = .greedy :=
  (strategy_eq h).trans (if_pos hlevel)

theorem strategy_of_lazyLevel_le (w : Window) {o : Options} (h : levelLimits.Admits o.level)
    (hlevel : lazyLevel ≤ o.level) : (Setup.ofOptions w o).effort.strategy = .lazy :=
  (strategy_eq h).trans (if_neg (Nat.not_lt.mpr hlevel))

/-- **A parse within the limits has a result**, the journal of its loop. -/
theorem parse_eq_ok {data : Array UInt8} {o : Options} (h : Accepts data o) :
    ∃ w : Window, w.data = data ∧ w.bits = o.windowBits ∧
      parse data o = .ok ⟨(journal o.hashBits (.ofOptions w o)).tokens,
        (journal o.hashBits (.ofOptions w o)).tally.stats⟩ := by
  have hwindow : Window.ofData data o.windowBits =
      .ok ⟨data, o.windowBits, _, h.windowBits, h.size, rfl⟩ := by
    rw [Window.ofData, dif_pos h.windowBits, dif_pos h.size]
  generalize (⟨data, o.windowBits, _, h.windowBits, h.size, rfl⟩ : Window) = w at hwindow
  obtain ⟨hdata, hbits⟩ := Window.ofData_eq_ok_iff.mp hwindow
  refine ⟨w, hdata, hbits, ?_⟩
  rw [parse, checkLevel, if_pos h.level, hwindow]
  exact if_pos h.hashBits

end Backref.Parse
