/-
# Expanding never reads past what it has written

The checked expansion takes the source of a copy as a difference, and reads each byte of
the copy from what has been written so far, where it has to be there. A copy that passed
the test of its distance starts before the end, and with every byte it reads one more is
written, so the source never catches up with the end. It answers what the plain expansion
answers, whatever the tokens.

Key definitions: `Checked.appendCopy`, `Checked.expandFrom`, `Checked.expand`.
Key theorems: `Checked.appendCopy_eq`, `Checked.expand_eq`.
-/
import Backref.Proofs.Checked.Basic
import Backref.Token.Expand

namespace Backref.Checked

def appendCopy (out : Array UInt8) (source : Nat) : Nat → Checked (Array UInt8)
  | 0 => .ok out
  | n + 1 => do
    let byte ← get out source
    appendCopy (out.push byte) (source + 1) n

def expandFrom (index : Nat) (out : Array UInt8) :
    List Token → Checked (Except Token.ExpandError (Array UInt8))
  | [] => .ok (.ok out)
  | .literal byte :: rest => expandFrom (index + 1) (out.push byte) rest
  | .copy length distance :: rest =>
    if distance.toNat = 0 ∨ out.size < distance.toNat then
      .ok (.error ⟨index, distance.toNat, out.size⟩)
    else do
      let source ← sub out.size distance.toNat
      let longer ← appendCopy out source length.toNat
      expandFrom (index + 1) longer rest

def expand (tokens : List Token) : Checked (Except Token.ExpandError (Array UInt8)) :=
  expandFrom 0 #[] tokens

/-- The source of a copy stays its distance behind the end, so every byte is there. -/
theorem appendCopy_eq {distance : Nat} (hpositive : 1 ≤ distance) (n : Nat) :
    ∀ {out : Array UInt8}, distance ≤ out.size →
      appendCopy out (out.size - distance) n = .ok (Token.appendCopy out distance n) := by
  induction n with
  | zero => intros; rfl
  | succ n ih =>
    intro out hle
    have hthere : out.size - distance < out.size := by omega
    have hbyte : get out (out.size - distance) = .ok (out.getD (out.size - distance) 0) := by
      rw [get_eq_ok_iff, Array.getD_eq_getD_getElem?, Array.getElem?_eq_getElem hthere,
        Option.getD_some]
    have hnext (byte : UInt8) : out.size - distance + 1 = (out.push byte).size - distance := by
      rw [Array.size_push]; omega
    rw [appendCopy, hbyte, ok_bind, hnext, Token.appendCopy]
    exact ih (by rw [Array.size_push]; omega)

theorem expandFrom_eq (tokens : List Token) (index : Nat) (out : Array UInt8) :
    expandFrom index out tokens = .ok (Token.expandFrom index out tokens) := by
  induction tokens generalizing index out with
  | nil => rfl
  | cons t ts ih =>
    cases t with
    | literal byte => exact ih (index + 1) (out.push byte)
    | copy length distance =>
      rw [expandFrom, Token.expandFrom]
      by_cases hbad : distance.toNat = 0 ∨ out.size < distance.toNat
      · rw [if_pos hbad, if_pos hbad]
      · have hpositive : 1 ≤ distance.toNat := by omega
        have hle : distance.toNat ≤ out.size := by omega
        rw [if_neg hbad, if_neg hbad, sub_eq_ok hle, ok_bind, appendCopy_eq hpositive _ hle,
          ok_bind]
        exact ih _ _

/-- **Expanding never faults**, whatever the tokens. -/
theorem expand_eq (tokens : List Token) : expand tokens = .ok (Token.expand tokens) :=
  expandFrom_eq tokens 0 #[]

end Backref.Checked
