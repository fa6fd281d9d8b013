/-
# A token is a literal byte or a copy of earlier bytes

A parse describes its input as tokens: a literal stands for one byte, a copy
for `length` bytes that repeat those `distance` back. For fingerprints every
token has a canonical byte form, a tag followed by the payload: `0, byte` for a
literal, `1`, the length and the distance (each low byte first) for a copy. The
form of a list of tokens is the concatenation, and it can be read back.

Key definitions: `Token`, `Token.covered`, `Token.encode`, `Token.encodeAll`,
`Token.decodeAll?`.
Key theorems: `Token.decodeAll?_encodeAll`, `Token.covered_append`.
-/
namespace Backref

inductive Token where
  | literal (byte : UInt8)
  /-- A run of `length` bytes that repeats the bytes `distance` back. -/
  | copy (length distance : UInt16)
  deriving Repr, DecidableEq

namespace Token

/-- The bytes of input a token stands for. -/
def covered : Token → Nat
  | literal _ => 1
  | copy length _ => length.toNat

def coveredAll : List Token → Nat
  | [] => 0
  | t :: ts => t.covered + coveredAll ts

theorem coveredAll_nil : coveredAll [] = 0 := rfl

theorem coveredAll_cons (t : Token) (ts : List Token) :
    coveredAll (t :: ts) = t.covered + coveredAll ts := rfl

theorem covered_append (ts us : List Token) :
    coveredAll (ts ++ us) = coveredAll ts + coveredAll us := by
  induction ts with
  | nil => rw [List.nil_append, coveredAll_nil, Nat.zero_add]
  | cons t ts ih => rw [List.cons_append, coveredAll_cons, coveredAll_cons, ih, Nat.add_assoc]

/-! ### The canonical byte form -/

def lowByte (n : UInt16) : UInt8 := n.toUInt8

def highByte (n : UInt16) : UInt8 := (n >>> 8).toUInt8

def ofBytes (low high : UInt8) : UInt16 := low.toUInt16 ||| (high.toUInt16 <<< 8)

/-- The canonical byte form of a token. -/
def encode : Token → List UInt8
  | literal byte => [0, byte]
  | copy length distance =>
    [1, lowByte length, highByte length, lowByte distance, highByte distance]

def encodeAll (tokens : List Token) : List UInt8 := tokens.flatMap encode

/-- The tokens of a canonical byte form; `none` if it is not one. -/
def decodeAll? : List UInt8 → Option (List Token)
  | [] => some []
  | 0 :: byte :: rest => (decodeAll? rest).map (literal byte :: ·)
  | 1 :: lengthLow :: lengthHigh :: distanceLow :: distanceHigh :: rest =>
    (decodeAll? rest).map
      (copy (ofBytes lengthLow lengthHigh) (ofBytes distanceLow distanceHigh) :: ·)
  | _ => none

theorem ofBytes_lowByte_highByte (n : UInt16) : ofBytes (lowByte n) (highByte n) = n := by
  apply UInt16.toNat_inj.mp
  have hn := n.toNat_lt
  have h8 : (8 : UInt16).toNat % 16 = 8 := rfl
  have hsum : (n.toNat % 2 ^ 8 ||| (n.toNat >>> 8 % 2 ^ 8) <<< 8 % 2 ^ 16) = n.toNat := by
    rw [Nat.shiftRight_eq_div_pow, Nat.shiftLeft_eq, Nat.or_comm, Nat.mul_comm]
    rw [Nat.mod_eq_of_lt (b := 2 ^ 16) (by omega),
      ← Nat.two_pow_add_eq_or_of_lt (Nat.mod_lt _ (by decide))]
    omega
  simpa [ofBytes, lowByte, highByte, h8] using hsum

theorem decodeAll?_encode_append (t : Token) (bytes : List UInt8) :
    decodeAll? (t.encode ++ bytes) = (decodeAll? bytes).map (t :: ·) := by
  cases t with
  | literal byte => simp [encode, decodeAll?]
  | copy length distance =>
    simp [encode, decodeAll?, ofBytes_lowByte_highByte]

theorem decodeAll?_encodeAll (tokens : List Token) :
    decodeAll? (encodeAll tokens) = some tokens := by
  induction tokens with
  | nil => simp [encodeAll, decodeAll?]
  | cons t ts ih =>
    simp only [encodeAll, List.flatMap_cons] at ih ⊢
    rw [decodeAll?_encode_append, ih]
    rfl

end Token

end Backref
