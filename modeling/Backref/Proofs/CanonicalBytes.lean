/-
# The canonical bytes of tokens can be read in one way only

A token's canonical bytes start with a tag, and the tag says how many bytes belong to
it. So whatever follows them, the first token can be told from the rest, although a
byte of its payload may look like a tag. By induction a list of tokens can be told from
its bytes: reading them gives back the list, nothing but canonical bytes can be read, and
the bytes of a list begin with those of another exactly if the list begins with the
other. A fingerprint is the digest of these bytes, and a tally pushes them token by
token, whatever searches it counts in between.

Key definitions: `Token.layout`.
Key theorems: `Token.encode_append_inj`, `Token.decodeAll?_eq_some_iff`,
`Token.encodeAll_isPrefix_iff`, `Tally.digest_recordAll`,
`Token.encodeAll_uniquely_decodable`.
-/
import Backref.Proofs.EventStreams

namespace Backref

namespace Token

/-! ### Two bytes of a number -/

theorem toNat_lowByte (n : UInt16) : (lowByte n).toNat = n.toNat % 256 := by
  simp [lowByte]

theorem toNat_highByte (n : UInt16) : (highByte n).toNat = n.toNat / 256 := by
  have hn := n.toNat_lt
  have h8 : (8 : UInt16).toNat % 16 = 8 := rfl
  unfold highByte
  rw [UInt16.toNat_toUInt8, UInt16.toNat_shiftRight, h8, Nat.shiftRight_eq_div_pow]
  omega

theorem eq_of_bytes {m n : UInt16} (hlow : lowByte m = lowByte n)
    (hhigh : highByte m = highByte n) : m = n := by
  calc m = ofBytes (lowByte m) (highByte m) := (ofBytes_lowByte_highByte m).symm
    _ = ofBytes (lowByte n) (highByte n) := by rw [hlow, hhigh]
    _ = n := ofBytes_lowByte_highByte n

theorem bytes_ofBytes (low high : UInt8) :
    lowByte (ofBytes low high) = low ∧ highByte (ofBytes low high) = high := by
  have h := ofBytes_lowByte_highByte (ofBytes low high)
  exact Search.Hunt.byte_or_shift_inj.mp h

/-! ### One token -/

/-- The canonical bytes of a token as numbers: its tag, and then the byte, or the length
and the distance, each as remainder and quotient by 256. -/
def layout : Token → List Nat
  | literal byte => [0, byte.toNat]
  | copy length distance =>
    [1, length.toNat % 256, length.toNat / 256, distance.toNat % 256, distance.toNat / 256]

theorem map_toNat_encode (t : Token) : t.encode.map UInt8.toNat = t.layout := by
  cases t with
  | literal byte => rfl
  | copy length distance => simp [encode, layout, toNat_lowByte, toNat_highByte]

/-- **A token is told from what follows it.** -/
theorem encode_append_inj {t u : Token} {as bs : List UInt8} :
    t.encode ++ as = u.encode ++ bs ↔ t = u ∧ as = bs := by
  constructor
  · intro h
    cases t with
    | literal byte =>
      cases u with
      | literal byte' =>
        simp only [encode, List.cons_append, List.nil_append, List.cons.injEq, true_and] at h
        exact ⟨congrArg literal h.1, h.2⟩
      | copy length' distance' => simp [encode] at h
    | copy length distance =>
      cases u with
      | literal byte' => simp [encode] at h
      | copy length' distance' =>
        simp only [encode, List.cons_append, List.nil_append, List.cons.injEq, true_and] at h
        obtain ⟨hl, hl', hd, hd', hrest⟩ := h
        rw [eq_of_bytes hl hl', eq_of_bytes hd hd']
        exact ⟨rfl, hrest⟩
  · rintro ⟨rfl, rfl⟩
    rfl

theorem encode_ne_nil (t : Token) : t.encode ≠ [] := by
  cases t <;> simp [encode]

/-! ### A list of tokens -/

@[simp] theorem encodeAll_nil : encodeAll [] = [] := rfl

@[simp] theorem encodeAll_cons (t : Token) (ts : List Token) :
    encodeAll (t :: ts) = t.encode ++ encodeAll ts := rfl

/-- **Nothing but canonical bytes can be read**, and they are read as the tokens that they
are the bytes of. -/
theorem decodeAll?_eq_some_iff {bytes : List UInt8} {tokens : List Token} :
    decodeAll? bytes = some tokens ↔ bytes = encodeAll tokens := by
  constructor
  · intro h
    fun_induction decodeAll? bytes generalizing tokens with
    | case1 =>
      obtain rfl := Option.some.inj h
      rfl
    | case2 byte rest ih =>
      obtain ⟨ts, hts, rfl⟩ := Option.map_eq_some_iff.mp h
      rw [encodeAll_cons, ← ih hts]
      rfl
    | case3 lengthLow lengthHigh distanceLow distanceHigh rest ih =>
      obtain ⟨ts, hts, rfl⟩ := Option.map_eq_some_iff.mp h
      obtain ⟨hl, hl'⟩ := bytes_ofBytes lengthLow lengthHigh
      obtain ⟨hd, hd'⟩ := bytes_ofBytes distanceLow distanceHigh
      rw [encodeAll_cons, ← ih hts, encode, hl, hl', hd, hd']
      rfl
    | case4 => cases h
  · rintro rfl
    exact decodeAll?_encodeAll tokens

/-- **The bytes of a list begin with those of another exactly if the list begins with the
other.** -/
theorem encodeAll_isPrefix_iff {ts us : List Token} :
    encodeAll ts <+: encodeAll us ↔ ts <+: us := by
  induction ts generalizing us with
  | nil => simp
  | cons t ts ih =>
    cases us with
    | nil => simp [encode_ne_nil]
    | cons u us =>
      rw [List.cons_prefix_cons, ← ih, encodeAll_cons, encodeAll_cons]
      constructor
      · rintro ⟨rest, hrest⟩
        rw [List.append_assoc, encode_append_inj] at hrest
        exact ⟨hrest.1, rest, hrest.2⟩
      · rintro ⟨rfl, rest, hrest⟩
        exact ⟨rest, by rw [List.append_assoc, hrest]⟩

end Token

/-! ### What is hashed -/

/-- A tally has pushed the canonical bytes of its tokens, one token after the other, and
nothing for its searches. -/
theorem Tally.digest_recordAll (events : List Event) :
    (empty.recordAll events).digest =
      (Digest.empty fingerprintSeed).append
        (Token.encodeAll (events.filterMap Event.token?)) := by
  have hempty : empty = ofTokens [] 0 0 := rfl
  rw [hempty, recordAll_ofTokens, List.nil_append]
  rfl

/-- **The canonical bytes of tokens are uniquely decodable.** Both a fingerprint and a tally
digest exactly these bytes, tag and payload of each token in order. The decoder gives back
the list from its bytes and accepts no others; lists are equal exactly if their bytes are;
and no list has the bytes of a shorter one that it begins with. -/
theorem Token.encodeAll_uniquely_decodable :
    (∀ tokens, Backref.fingerprint tokens =
      ((Digest.empty fingerprintSeed).append (encodeAll tokens)).value) ∧
    (∀ events, (Tally.empty.recordAll events).digest =
      (Digest.empty fingerprintSeed).append (encodeAll (events.filterMap Event.token?))) ∧
    (∀ tokens, (encodeAll tokens).map UInt8.toNat = tokens.flatMap layout) ∧
    (∀ bytes tokens, decodeAll? bytes = some tokens ↔ bytes = encodeAll tokens) ∧
    (∀ ts us, ts = us ↔ encodeAll ts = encodeAll us) ∧
    (∀ ts us, encodeAll ts <+: encodeAll us ↔ ts <+: us) ∧
    ∀ ts t us, encodeAll ts ≠ encodeAll (ts ++ t :: us) := by
  have hinj (ts us : List Token) : ts = us ↔ encodeAll ts = encodeAll us := by
    constructor
    · exact congrArg encodeAll
    · intro h
      apply Option.some.inj
      rw [← decodeAll?_encodeAll ts, h, decodeAll?_encodeAll]
  refine ⟨fun _ => rfl, Tally.digest_recordAll, fun tokens => ?_,
    fun _ _ => decodeAll?_eq_some_iff, hinj, fun _ _ => encodeAll_isPrefix_iff,
    fun ts t us h => ?_⟩
  · rw [encodeAll, List.map_flatMap]
    exact congrArg (tokens.flatMap ·) (funext map_toNat_encode)
  · have hlength := congrArg List.length ((hinj _ _).mpr h)
    simp at hlength

end Backref
