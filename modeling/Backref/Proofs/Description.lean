/-
# Tokens that describe a block expand to it

A token describes the block at an offset if it is a literal of the byte there, or
a copy whose bytes repeat the ones its distance back. A list of tokens describes
the block from an offset on if each token describes it where the tokens before it
end. Expanding such a list to what comes before the offset gives the block up to
where the list ends, overlapping copies included. Of the lengths and distances this
needs only that no copy reaches before the first byte, or has distance zero.

Key definitions: `Token.AllFrom`, `Token.placed`, `Token.Grounded`, `Token.SpelledBy`,
`Window.Repeats`, `Window.Describes`.
Key theorems: `Token.allFrom_append`, `Token.AllFrom.imp`, `Token.appendCopy_extract`,
`Token.expandFrom_of_spelledBy`, `Window.Repeats.describes`,
`Token.expandFrom_of_describes`.
-/
import Backref.Token.Expand
import Backref.Window

namespace Backref

/-! ### Tokens and their offsets -/

namespace Token

/-- Each token satisfies the predicate at its offset, which is where the tokens
before it end; the first one is at `offset`. -/
def AllFrom (P : Nat → Token → Prop) : (offset : Nat) → List Token → Prop
  | _, [] => True
  | offset, t :: ts => P offset t ∧ AllFrom P (offset + t.covered) ts

theorem allFrom_append {P : Nat → Token → Prop} {offset : Nat} {ts us : List Token} :
    AllFrom P offset (ts ++ us) ↔
      AllFrom P offset ts ∧ AllFrom P (offset + coveredAll ts) us := by
  induction ts generalizing offset with
  | nil => simp [AllFrom, coveredAll_nil]
  | cons t ts ih =>
    rw [List.cons_append, AllFrom, AllFrom, ih, coveredAll_cons, and_assoc, Nat.add_assoc]

theorem AllFrom.imp {P Q : Nat → Token → Prop} (h : ∀ offset t, P offset t → Q offset t) :
    ∀ {offset : Nat} {ts : List Token}, AllFrom P offset ts → AllFrom Q offset ts
  | _, [], _ => trivial
  | offset, t :: _, hall => ⟨h offset t hall.1, hall.2.imp h⟩

/-- The tokens with the offsets where they start. -/
def placed : (offset : Nat) → List Token → List (Nat × Token)
  | _, [] => []
  | offset, t :: ts => (offset, t) :: placed (offset + t.covered) ts

theorem placed_append (offset : Nat) (ts us : List Token) :
    placed offset (ts ++ us) = placed offset ts ++ placed (offset + coveredAll ts) us := by
  induction ts generalizing offset with
  | nil => rfl
  | cons t ts ih =>
    rw [List.cons_append, placed, placed, ih, coveredAll_cons, Nat.add_assoc, List.cons_append]

theorem le_of_mem_placed {offset : Nat} {ts : List Token} {x : Nat × Token}
    (h : x ∈ placed offset ts) : offset ≤ x.1 := by
  induction ts generalizing offset with
  | nil => cases h
  | cons t ts ih =>
    rcases List.mem_cons.mp h with rfl | h
    · exact Nat.le_refl _
    · exact Nat.le_trans (Nat.le_add_right _ _) (ih h)

theorem filter_placed_of_isPrefix {ts us : List Token} {stop : Nat} (h : ts <+: us)
    (hstop : stop ≤ coveredAll ts) :
    (placed 0 us).filter (·.1 < stop) = (placed 0 ts).filter (·.1 < stop) := by
  obtain ⟨vs, rfl⟩ := h
  have hnone : (placed (0 + coveredAll ts) vs).filter (·.1 < stop) = [] := by
    refine List.filter_eq_nil_iff.mpr fun x hx => ?_
    have hle := le_of_mem_placed hx
    rw [decide_eq_true_eq]
    omega
  rw [placed_append, List.filter_append, hnone, List.append_nil]

/-- Two lists that have the tokens up to an offset in common agree before it. -/
theorem filter_placed_of_common {common ts us : List Token} {stop : Nat}
    (hstop : stop ≤ coveredAll common) (hts : common <+: ts) (hus : common <+: us) :
    (placed 0 ts).filter (·.1 < stop) = (placed 0 us).filter (·.1 < stop) := by
  rw [filter_placed_of_isPrefix hts hstop, filter_placed_of_isPrefix hus hstop]

end Token

/-! ### Expanding what bytes spell out -/

namespace Token

/-- A copy reaches back by at least one byte, and not before the first. -/
def Grounded (offset : Nat) : Token → Prop
  | literal _ => True
  | copy _ distance => 1 ≤ distance.toNat ∧ distance.toNat ≤ offset

/-- The bytes from the offset on are what the token says: the literal, or the bytes its
distance back once more, those that it has written itself included. -/
def SpelledBy (bytes : Array UInt8) (offset : Nat) : Token → Prop
  | literal byte => bytes[offset]? = some byte
  | copy length distance =>
    ∀ k < length.toNat, bytes[offset + k]? = bytes[offset + k - distance.toNat]?

theorem push_extract {data : Array UInt8} {pos : Nat} {byte : UInt8}
    (h : data[pos]? = some byte) : (data.extract 0 pos).push byte = data.extract 0 (pos + 1) := by
  obtain ⟨hlt, rfl⟩ := Array.getElem?_eq_some_iff.mp h
  exact (Array.extract_succ_right (Nat.succ_pos pos) hlt).symm

/-- A copy whose bytes repeat earlier ones extends what has been expanded. -/
theorem appendCopy_extract {data : Array UInt8} {distance : Nat} (hd : 1 ≤ distance) :
    ∀ (n pos : Nat), distance ≤ pos → pos + n ≤ data.size →
      (∀ k < n, data[pos + k]? = data[pos - distance + k]?) →
      appendCopy (data.extract 0 pos) distance n = data.extract 0 (pos + n)
  | 0, _, _, _, _ => rfl
  | n + 1, pos, hle, hfit, hsame => by
    have hsize : (data.extract 0 pos).size = pos := by
      rw [Array.size_extract]; omega
    have hbyte : data[pos]? = some ((data.extract 0 pos).getD (pos - distance) 0) := by
      have h0 : data[pos]? = data[pos - distance]? := hsame 0 (Nat.succ_pos n)
      have hlt : pos - distance < data.size := by omega
      rw [h0, Array.getD_eq_getD_getElem?, Array.getElem?_extract, if_pos (by omega),
        Nat.zero_add, Array.getElem?_eq_getElem hlt, Option.getD_some]
    rw [appendCopy, hsize, push_extract hbyte,
      appendCopy_extract hd n (pos + 1) (by omega) (by omega) ?_]
    · rw [Nat.add_right_comm, Nat.add_assoc]
    · intro k hk
      have := hsame (k + 1) (by omega)
      rw [show pos + 1 + k = pos + (k + 1) by omega, this]
      congr 1
      omega

/-- **Grounded tokens expand to the bytes they are spelled by.** -/
theorem expandFrom_of_spelledBy {bytes : Array UInt8} {tokens : List Token} :
    ∀ {index offset : Nat}, offset + coveredAll tokens ≤ bytes.size →
      AllFrom Grounded offset tokens → AllFrom (SpelledBy bytes) offset tokens →
      expandFrom index (bytes.extract 0 offset) tokens =
        .ok (bytes.extract 0 (offset + coveredAll tokens)) := by
  induction tokens with
  | nil => intros; rfl
  | cons t ts ih =>
    intro index offset hfits hgrounded hspelled
    obtain ⟨ht, hts⟩ := hgrounded
    obtain ⟨hspells, hrest⟩ := hspelled
    rw [coveredAll_cons, ← Nat.add_assoc] at hfits ⊢
    cases t with
    | literal byte =>
      rw [expandFrom, push_extract hspells]
      exact ih hfits hts hrest
    | copy length distance =>
      obtain ⟨hpositive, hle⟩ := ht
      have hroom : offset + length.toNat ≤ bytes.size :=
        Nat.le_trans (Nat.le_add_right _ _) hfits
      have hsize : (bytes.extract 0 offset).size = offset := by
        rw [Array.size_extract]; omega
      have hsame : ∀ k < length.toNat,
          bytes[offset + k]? = bytes[offset - distance.toNat + k]? := by
        intro k hk
        rw [hspells k hk, Nat.sub_add_comm hle]
      rw [expandFrom, if_neg (by omega), appendCopy_extract hpositive _ _ hle hroom hsame]
      exact ih hfits hts hrest

end Token

/-! ### What a token says of the block -/

/-- The `length` bytes at `pos` repeat those at `start`, a copy can say so, and no
longer copy could. -/
structure Window.Repeats (w : Window) (pos start length : Nat) : Prop where
  minMatch_le : minMatch ≤ length
  le_maxMatch : length ≤ maxMatch
  /-- The first byte is never a source: its position ends every chain. -/
  positive : noPosition < start
  before : start < pos
  near : pos - start ≤ w.reach
  fits : pos + length ≤ w.size
  same : ∀ k < length, w.data[pos + k]? = w.data[start + k]?
  stops : length < maxMatch → pos + length < w.size →
    w.data[pos + length]? ≠ w.data[start + length]?

/-- The token is the byte at the offset, or a copy that repeats earlier bytes. -/
def Window.Describes (w : Window) (offset : Nat) : Token → Prop
  | .literal byte => w.data[offset]? = some byte
  | .copy length distance => w.Repeats offset (offset - distance.toNat) length.toNat

namespace Window

theorem reach_lt (w : Window) : w.reach < 2 ^ 16 := by
  have h : 2 ^ w.bits ≤ 2 ^ 15 := Nat.pow_le_pow_right Nat.two_pos w.bits_admitted.2
  simp only [reach, Backref.reach]
  omega

theorem Repeats.toNat_eq {w : Window} {pos start length : Nat} (h : w.Repeats pos start length) :
    length.toUInt16.toNat = length ∧ (pos - start).toUInt16.toNat = pos - start := by
  have hle := h.le_maxMatch
  have hnear := h.near
  have hreach := w.reach_lt
  simp only [maxMatch] at hle
  have h1 : length < 2 ^ 16 := by omega
  have h2 : pos - start < 2 ^ 16 := by omega
  exact ⟨UInt16.toNat_ofNat_of_lt' h1, UInt16.toNat_ofNat_of_lt' h2⟩

theorem Repeats.describes {w : Window} {pos start length : Nat}
    (h : w.Repeats pos start length) :
    w.Describes pos (.copy length.toUInt16 (pos - start).toUInt16) := by
  have hbefore := h.before
  rw [Describes, h.toNat_eq.1, h.toNat_eq.2, show pos - (pos - start) = start by omega]
  exact h

end Window

/-! ### Expanding what describes a block -/

namespace Token

theorem of_describes {w : Window} {offset : Nat} {t : Token} (h : w.Describes offset t) :
    t.Grounded offset ∧ t.SpelledBy w.data offset ∧ offset + t.covered ≤ w.size := by
  cases t with
  | literal byte => exact ⟨trivial, h, (Array.getElem?_eq_some_iff.mp h).1⟩
  | copy length distance =>
    have hbefore := h.before
    have hpositive := h.positive
    refine ⟨⟨by omega, by omega⟩, fun k hk => ?_, h.fits⟩
    rw [h.same k hk]
    congr 1
    omega

/-- If each token ends within so many bytes, the list does. -/
theorem AllFrom.end_le {n : Nat} {tokens : List Token} :
    ∀ {offset : Nat}, offset ≤ n → AllFrom (fun offset t => offset + t.covered ≤ n) offset tokens →
      offset + coveredAll tokens ≤ n := by
  induction tokens with
  | nil => intro offset hle _; exact hle
  | cons t ts ih =>
    intro offset _ hall
    rw [coveredAll_cons, ← Nat.add_assoc]
    exact ih hall.1 hall.2

/-- **Tokens that describe a block expand to it.** -/
theorem expandFrom_of_describes {w : Window} {tokens : List Token} {index offset : Nat}
    (hle : offset ≤ w.size) (h : AllFrom w.Describes offset tokens) :
    expandFrom index (w.data.extract 0 offset) tokens =
      .ok (w.data.extract 0 (offset + coveredAll tokens)) :=
  expandFrom_of_spelledBy (AllFrom.end_le hle (h.imp fun _ _ ht => (of_describes ht).2.2))
    (h.imp fun _ _ ht => (of_describes ht).1) (h.imp fun _ _ ht => (of_describes ht).2.1)

end Token

end Backref
