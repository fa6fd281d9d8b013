/-
# A level is a row of effort: how long to search and when to stop

Ten rows, one a level, say how hard the match finder works: the longest chain it
follows, the length that is good enough to stop at, the length from which it
quarters the chain, and which parse loop drives it. Level 0 stores the input and
is not offered to users; asking for it gives the standard row, and asking for
more than the last row gives the last.

Key definitions: `Strategy`, `Effort`, `Effort.table`, `Effort.ofLevel`.
Key theorems: `Effort.ofLevel_mem_table`.
-/
import Backref.Limits

namespace Backref

inductive Strategy where
  | stored
  | greedy
  /-- A match is held back for one byte, in case the next position has a longer
  one. -/
  | lazy
  deriving Repr, DecidableEq

def Strategy.name : Strategy → String
  | stored => "Stored"
  | greedy => "Greedy"
  | lazy => "Lazy"

structure Effort where
  /-- A carried match at least this long quarters the chain budget. -/
  goodLength : Nat
  /-- Lazy: a held match at least this long is not searched past. Greedy: the
  positions under a longer match are not indexed. -/
  maxLazy : Nat
  /-- A match at least this long ends the search. -/
  niceLength : Nat
  maxChain : Nat
  strategy : Strategy
  deriving Repr, DecidableEq

namespace Effort

def stored : Effort := ⟨0, 0, 0, 0, .stored⟩

def standard : Effort := ⟨8, 16, 128, 128, .lazy⟩

def table : List Effort :=
  [stored,
   ⟨4, 4, 8, 4, .greedy⟩,
   ⟨4, 5, 16, 8, .greedy⟩,
   ⟨4, 6, 32, 32, .greedy⟩,
   ⟨4, 4, 16, 16, .lazy⟩,
   ⟨8, 16, 32, 32, .lazy⟩,
   standard,
   ⟨8, 32, 128, 256, .lazy⟩,
   ⟨32, 128, 258, 1024, .lazy⟩,
   ⟨32, 258, 258, 4096, .lazy⟩]

/-- The row of a level: the standard one for level 0, the last one beyond the
table. -/
def ofLevel (level : Nat) : Effort :=
  let row := if level = 0 then levelLimits.standard else level
  table.getD (min row levelLimits.greatest) standard

theorem ofLevel_mem_table (level : Nat) : ofLevel level ∈ table := by
  have h : min (if level = 0 then levelLimits.standard else level) levelLimits.greatest
      < table.length := by
    simp only [levelLimits, table, List.length_cons, List.length_nil]
    omega
  simp only [ofLevel, List.getD_eq_getElem?_getD, List.getElem?_eq_getElem h, Option.getD_some]
  exact List.getElem_mem h

end Effort

end Backref
