/-
# Every copy is in range and as long as it can be, and narrowing it loses nothing

A copy that a parse emits has a length and a distance that the format can encode,
its source starts behind the first byte and within reach, and it ends within the
block. No copy stops short: either no longer one can be said there, or the byte behind
it differs from the one its distance back. Each loop computes the length and the
distance as plain numbers and narrows them to 16 bits when it emits the token; `copies`
lists those numbers, and reading them back from the tokens gives the same list.

Key definitions: `Token.copy?`, `Token.InRange`, `Token.Maximal`, `Parse.copies`.
Key theorems: `Parse.Greedy.copies_run`, `Parse.Lazy.copies_run`,
`Parse.copies_in_range`, `Parse.copies_maximal`.
-/
import Backref.Proofs.LazyStates
import Backref.Proofs.RoundTrip

namespace Backref

namespace Token

def copy? : Token → Option (Nat × Nat)
  | literal _ => none
  | copy length distance => some (length.toNat, distance.toNat)

/-- What a copy at an offset may say in a block of `size` bytes and a window of
`2 ^ bits`. -/
def InRange (size bits offset : Nat) : Token → Prop
  | literal _ => True
  | copy length distance =>
    (minMatch ≤ length.toNat ∧ length.toNat ≤ maxMatch) ∧
      (1 ≤ distance.toNat ∧ distance.toNat ≤ reach bits) ∧
      1 ≤ offset - distance.toNat ∧ offset + length.toNat ≤ size

/-- A token that describes the block is in range. -/
theorem inRange_of_describes {w : Window} {offset : Nat} {t : Token}
    (h : w.Describes offset t) : t.InRange w.size w.bits offset := by
  cases t with
  | literal byte => trivial
  | copy length distance =>
    have hpos : 0 < offset - distance.toNat := h.positive
    have hbefore := h.before
    have hnear := h.near
    have hdistance : 1 ≤ distance.toNat ∧ distance.toNat ≤ w.reach := by omega
    exact ⟨⟨h.minMatch_le, h.le_maxMatch⟩, hdistance, hpos, h.fits⟩

/-- A copy at an offset of a block is maximal if it has the greatest length, it ends with
the block, or the byte behind it is not the one its distance back. -/
def Maximal (data : Array UInt8) (offset : Nat) : Token → Prop
  | literal _ => True
  | copy length distance =>
    length.toNat = maxMatch ∨ offset + length.toNat = data.size ∨
      ∃ next source, data[offset + length.toNat]? = some next ∧
        data[offset + length.toNat - distance.toNat]? = some source ∧ next ≠ source

/-- A token that describes the block cannot go on. -/
theorem maximal_of_describes {w : Window} {offset : Nat} {t : Token}
    (h : w.Describes offset t) : t.Maximal w.data offset := by
  cases t with
  | literal byte => trivial
  | copy length distance =>
    have hrep : w.Repeats offset (offset - distance.toNat) length.toNat := h
    have hpositive : 0 < offset - distance.toNat := hrep.positive
    have hle := hrep.le_maxMatch
    have hfits : offset + length.toNat ≤ w.data.size := hrep.fits
    by_cases hlong : length.toNat = maxMatch
    · exact .inl hlong
    · by_cases hend : offset + length.toNat = w.data.size
      · exact .inr (.inl hend)
      · -- the byte behind the copy is there, and so is the one its distance back
        have hnext : offset + length.toNat < w.data.size := by omega
        have hback : offset + length.toNat - distance.toNat =
            offset - distance.toNat + length.toNat := by
          omega
        have hsource : offset + length.toNat - distance.toNat < w.data.size := by omega
        have hstops := hrep.stops (by omega) hnext
        rw [← hback, Array.getElem?_eq_getElem hnext, Array.getElem?_eq_getElem hsource] at hstops
        exact .inr (.inr ⟨_, _, Array.getElem?_eq_getElem hnext,
          Array.getElem?_eq_getElem hsource, fun heq => hstops (congrArg some heq)⟩)

end Token

namespace Parse

theorem Journal.copies_emit (j : Journal) (token : Token) :
    (j.emit token).tokens.toList.filterMap Token.copy? =
      j.tokens.toList.filterMap Token.copy? ++ token.copy?.toList := by
  rw [tokens_emit, Array.toList_push, List.filterMap_append]
  cases token <;> rfl

/-- A copy that repeats earlier bytes is narrowed without loss. -/
theorem copy?_of_repeats {w : Window} {pos start length : Nat} (h : w.Repeats pos start length) :
    (Token.copy length.toUInt16 (pos - start).toUInt16).copy? = some (length, pos - start) := by
  rw [Token.copy?, h.toNat_eq.1, h.toNat_eq.2]

/-! ### The copies of each loop, before they are narrowed -/

namespace Greedy

variable {s : Setup} {st : State}

/-- The length and the distance that an iteration makes a copy of, if it does. -/
def copyAt (s : Setup) (st : State) : Option (Nat × Nat) :=
  match choose (outcomeAt s st) with
  | .copy length start => some (length, st.pos - start)
  | .literal => none

def copies (s : Setup) (st : State) : List (Nat × Nat) :=
  (loop s).collect (fun st => (copyAt s st).toList) st

theorem copies_step (hs : s.params.maxDistance = s.window.reach) (st : State) :
    (step s st).journal.tokens.toList.filterMap Token.copy? =
      st.journal.tokens.toList.filterMap Token.copy? ++ (copyAt s st).toList := by
  rw [copyAt]
  rcases hchoose : choose (outcomeAt s st) with _ | ⟨length, start⟩
  · rw [step_of_literal hchoose]
    simp only [Journal.emitLiteral, Journal.copies_emit, Journal.tokens_note, Token.copy?]
  · rw [step_of_copy hchoose]
    simp only [Journal.emitCopy, Journal.copies_emit, Journal.tokens_note,
      copy?_of_repeats (repeats_of_choose hs hchoose)]

/-- **Reading the copies back from the tokens of the greedy loop gives the numbers
it narrowed.** -/
theorem copies_run (hs : s.params.maxDistance = s.window.reach) (st : State) :
    (run s st).journal.tokens.toList.filterMap Token.copy? =
      st.journal.tokens.toList.filterMap Token.copy? ++ copies s st := by
  rw [run_eq]
  exact Loop.output_run (l := loop s) (P := fun _ => True)
    (fun st => st.journal.tokens.toList.filterMap Token.copy?) (fun st => (copyAt s st).toList)
    (fun _ _ _ => trivial) (fun st _ => copies_step hs st) trivial

end Greedy

namespace Lazy

variable {s : Setup} {st : State}

def copyAt (s : Setup) (st : State) : Option (Nat × Nat) :=
  if Takes s st then some (st.length, st.pos - 1 - st.start) else none

def copies (s : Setup) (st : State) : List (Nat × Nat) :=
  (loop s).collect (fun st => (copyAt s st).toList) st

theorem copies_step (h : Sound s st) :
    (step s st).journal.tokens.toList.filterMap Token.copy? =
      st.journal.tokens.toList.filterMap Token.copy? ++ (copyAt s st).toList := by
  rw [copyAt]
  by_cases htakes : Takes s st
  · obtain ⟨-, hrep⟩ := h.held htakes.1
    rw [step_of_takes htakes, if_pos htakes]
    simp only [Journal.emitCopy, Journal.copies_emit, Journal.tokens_note, copy?_of_repeats hrep]
  · rw [if_neg htakes]
    rcases hpending : st.pending with _ | _
    · rw [step_of_idle htakes hpending]
      simp only [Journal.tokens_note, Option.toList_none, List.append_nil]
    · rw [step_of_pending htakes hpending]
      simp only [Journal.emitLiteral, Journal.copies_emit, Journal.tokens_note, Token.copy?]

/-- **Reading the copies back from the tokens of the lazy loop gives the numbers it
narrowed.** -/
theorem copies_run (hs : s.params.maxDistance = s.window.reach) (h : Sound s st) :
    (run s st).journal.tokens.toList.filterMap Token.copy? =
      st.journal.tokens.toList.filterMap Token.copy? ++ copies s st := by
  rw [run_eq]
  exact Loop.output_run (l := loop s) (P := Sound s)
    (fun st => st.journal.tokens.toList.filterMap Token.copy?) (fun st => (copyAt s st).toList)
    (fun _ hlt h => sound_step hs hlt h) (fun _ h => copies_step h) h

/-- The byte that is flushed at the end is no copy. -/
theorem copies_flush (s : Setup) (st : State) :
    (flush s st).tokens.toList.filterMap Token.copy? =
      st.journal.tokens.toList.filterMap Token.copy? := by
  rw [flush]
  split
  · rw [Journal.emitLiteral, Journal.copies_emit, Token.copy?, Option.toList_none, List.append_nil]
  · rfl

end Lazy

/-! ### A whole parse -/

/-- The length and the distance of each copy that the loop of a level makes, before
they are narrowed. -/
def copies (hashBits : Nat) (s : Setup) : List (Nat × Nat) :=
  match s.effort.strategy with
  | .stored => []
  | .greedy => Greedy.copies s (Greedy.start hashBits s)
  | .lazy => Lazy.copies s (Lazy.start hashBits s)

theorem copies_journal (hashBits : Nat) (w : Window) {o : Options}
    (h : levelLimits.Admits o.level) :
    (journal hashBits (.ofOptions w o)).tokens.toList.filterMap Token.copy? =
      copies hashBits (.ofOptions w o) := by
  have hs : (Setup.ofOptions w o).params.maxDistance = (Setup.ofOptions w o).window.reach := rfl
  rcases Nat.lt_or_ge o.level lazyLevel with hlevel | hlevel
  · rw [journal, copies, strategy_of_lt_lazyLevel w h hlevel]
    exact Greedy.copies_run hs _
  · rw [journal, copies, strategy_of_lazyLevel_le w h hlevel]
    exact (Lazy.copies_flush _ _).trans (Lazy.copies_run hs (Lazy.sound_start _ _))

/-- **Every copy of a parse is in range.** A parse within the limits has a result;
each of its copies can be encoded, has its source behind the first byte and within
reach, and ends within the block; and its tokens say the same lengths and distances
that the loop computed. -/
theorem copies_in_range {data : Array UInt8} {o : Options} (h : Accepts data o) :
    ∃ (w : Window) (p : Parsed), w.data = data ∧ w.bits = o.windowBits ∧ parse data o = .ok p ∧
      Token.AllFrom (Token.InRange data.size o.windowBits) 0 p.tokens.toList ∧
      p.tokens.toList.filterMap Token.copy? = copies o.hashBits (.ofOptions w o) := by
  obtain ⟨w, rfl, hbits, hparse⟩ := parse_eq_ok h
  refine ⟨w, _, rfl, hbits, hparse, ?_, copies_journal o.hashBits w h.level⟩
  obtain ⟨-, hall⟩ := describes_journal o.hashBits w h.level
  rw [← hbits]
  exact hall.imp fun _ _ => Token.inRange_of_describes

/-- The block ends inside a run, and the held match of the lazy loop gives way to a
longer one. -/
theorem copies_in_range_deferral :
    let data : Array UInt8 := #[0, 97, 98, 99, 98, 99, 100, 101, 97, 98, 99, 100, 101]
    let o : Options := ⟨9, 9, 31, .bytewise⟩
    Accepts data o ∧
      ∃ (w : Window) (p : Parsed), w.data = data ∧ w.bits = o.windowBits ∧ parse data o = .ok p ∧
        Token.AllFrom (Token.InRange data.size o.windowBits) 0 p.tokens.toList ∧
        p.tokens.toList.filterMap Token.copy? = copies o.hashBits (.ofOptions w o) := by
  have hbounds : Accepts #[0, 97, 98, 99, 98, 99, 100, 101, 97, 98, 99, 100, 101]
      ⟨9, 9, 31, .bytewise⟩ :=
    ⟨by decide, by decide, by decide, by decide⟩
  exact ⟨hbounds, copies_in_range hbounds⟩

/-- **No copy of a parse stops short.** A parse within the limits has a result; each of its
copies has the greatest length, ends with the block, or is followed by another byte than its
source. -/
theorem copies_maximal {data : Array UInt8} {o : Options} (h : Accepts data o) :
    ∃ p, parse data o = .ok p ∧ Token.AllFrom (Token.Maximal data) 0 p.tokens.toList := by
  obtain ⟨w, rfl, -, hparse⟩ := parse_eq_ok h
  refine ⟨_, hparse, ?_⟩
  obtain ⟨-, hall⟩ := describes_journal o.hashBits w h.level
  exact hall.imp fun _ _ => Token.maximal_of_describes

/-- One copy ends before another byte, and one with the block. -/
theorem copies_maximal_twice :
    let data : Array UInt8 := #[0, 97, 98, 99, 100, 97, 98, 99, 101, 97, 98, 99]
    let o : Options := ⟨1, 9, 6, .wordwise⟩
    Accepts data o ∧
      ∃ p, parse data o = .ok p ∧ Token.AllFrom (Token.Maximal data) 0 p.tokens.toList := by
  have hbounds : Accepts #[0, 97, 98, 99, 100, 97, 98, 99, 101, 97, 98, 99] ⟨1, 9, 6, .wordwise⟩ :=
    ⟨by decide, by decide, by decide, by decide⟩
  exact ⟨hbounds, copies_maximal hbounds⟩

end Parse

end Backref
