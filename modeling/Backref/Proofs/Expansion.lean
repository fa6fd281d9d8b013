/-
# A list of tokens expands exactly if no copy reaches before the first byte

A copy is grounded if it reaches back by at least one byte and not before the first. If
every copy is, the tokens expand, to the one run of bytes that is as long as they cover and
is spelled out by them: each literal at its offset, and every byte of a copy the one that
lies the distance of the copy before it, be that a byte of the same copy. Otherwise the
error names the first copy that is not grounded. Tokens expand from the front, so the
expansion of an initial part is the initial part of the expansion.

Key theorems: `Token.exists_expandFrom_iff`, `Token.expandFrom_eq_error_iff`,
`Token.getElem?_appendCopy_add`, `Token.spelledBy_of_expandFrom`,
`Token.expand_eq_ok_iff`, `Token.expand_outcome`.
-/
import Backref.Proofs.Checked.Expand
import Backref.Proofs.Description

namespace Backref.Token

instance (offset : Nat) (t : Token) : Decidable (t.Grounded offset) :=
  match t with
  | literal _ => isTrue trivial
  | copy _ distance => inferInstanceAs (Decidable (1 ≤ distance.toNat ∧ distance.toNat ≤ offset))

/-! ### When tokens expand, and where they fail -/

theorem expandFrom_literal (index : Nat) (out : Array UInt8) (byte : UInt8) (rest : List Token) :
    expandFrom index out (literal byte :: rest) = expandFrom (index + 1) (out.push byte) rest := rfl

theorem expandFrom_copy {out : Array UInt8} {length distance : UInt16}
    (h : (copy length distance).Grounded out.size) (index : Nat) (rest : List Token) :
    expandFrom index out (copy length distance :: rest) =
      expandFrom (index + 1) (appendCopy out distance.toNat length.toNat) rest := by
  obtain ⟨hpositive, hle⟩ := h
  rw [expandFrom, if_neg (by omega)]

theorem expandFrom_copy_eq_error {out : Array UInt8} {length distance : UInt16}
    (h : ¬(copy length distance).Grounded out.size) (index : Nat) (rest : List Token) :
    expandFrom index out (copy length distance :: rest) =
      .error ⟨index, distance.toNat, out.size⟩ := by
  have hbad : distance.toNat = 0 ∨ out.size < distance.toNat := by
    rw [Grounded] at h
    omega
  rw [expandFrom, if_pos hbad]

theorem exists_expandFrom_iff (tokens : List Token) :
    ∀ (index : Nat) (out : Array UInt8),
      (∃ bytes, expandFrom index out tokens = .ok bytes) ↔ AllFrom Grounded out.size tokens := by
  induction tokens with
  | nil => exact fun _ out => ⟨fun _ => trivial, fun _ => ⟨out, rfl⟩⟩
  | cons t ts ih =>
    intro index out
    cases t with
    | literal byte =>
      rw [expandFrom_literal, ih, Array.size_push]
      exact (and_iff_right trivial).symm
    | copy length distance =>
      by_cases hgrounded : (copy length distance).Grounded out.size
      · rw [expandFrom_copy hgrounded, ih, size_appendCopy]
        exact (and_iff_right hgrounded).symm
      · rw [expandFrom_copy_eq_error hgrounded]
        exact ⟨fun ⟨_, h⟩ => (nomatch h), fun h => absurd h.1 hgrounded⟩

/-- The first copy that is not grounded, `index` being the number of the first token and
`offset` where it starts. -/
def Fails (index offset : Nat) (tokens : List Token) (e : ExpandError) : Prop :=
  ∃ before length distance after, tokens = before ++ copy length distance :: after ∧
    AllFrom Grounded offset before ∧
    ¬(copy length distance).Grounded (offset + coveredAll before) ∧
    e = ⟨index + before.length, distance.toNat, offset + coveredAll before⟩

/-- Behind a grounded token, the first that is not is the first of the rest. -/
theorem fails_cons_iff {t : Token} {offset : Nat} (ht : t.Grounded offset) (index : Nat)
    (ts : List Token) (e : ExpandError) :
    Fails index offset (t :: ts) e ↔ Fails (index + 1) (offset + t.covered) ts e := by
  have hindex (before : List Token) :
      index + (t :: before).length = index + 1 + before.length := by
    rw [List.length_cons]; omega
  have hoffset (before : List Token) :
      offset + coveredAll (t :: before) = offset + t.covered + coveredAll before := by
    rw [coveredAll_cons, Nat.add_assoc]
  constructor
  · rintro ⟨_ | ⟨u, before⟩, length, distance, after, hsplit, hbefore, hbad, rfl⟩
    · obtain ⟨rfl, -⟩ := List.cons.inj hsplit
      exact absurd ht hbad
    · obtain ⟨rfl, rfl⟩ := List.cons.inj hsplit
      rw [hoffset] at hbad
      exact ⟨before, length, distance, after, rfl, hbefore.2, hbad, by rw [hindex, hoffset]⟩
  · rintro ⟨before, length, distance, after, rfl, hbefore, hbad, rfl⟩
    rw [← hoffset] at hbad
    exact ⟨t :: before, length, distance, after, rfl, ⟨ht, hbefore⟩, hbad,
      by rw [hindex, hoffset]⟩

theorem expandFrom_eq_error_iff (tokens : List Token) (e : ExpandError) :
    ∀ (index : Nat) (out : Array UInt8),
      expandFrom index out tokens = .error e ↔ Fails index out.size tokens e := by
  induction tokens with
  | nil =>
    intro index out
    constructor
    · intro h
      cases h
    · rintro ⟨before, _, _, _, hsplit, -⟩
      cases before <;> cases hsplit
  | cons t ts ih =>
    intro index out
    cases t with
    | literal byte =>
      rw [expandFrom_literal, ih, Array.size_push]
      exact (fails_cons_iff (t := literal byte) trivial index ts e).symm
    | copy length distance =>
      by_cases hgrounded : (copy length distance).Grounded out.size
      · rw [expandFrom_copy hgrounded, ih, size_appendCopy]
        exact (fails_cons_iff hgrounded index ts e).symm
      · rw [expandFrom_copy_eq_error hgrounded]
        constructor
        · intro h
          exact ⟨[], length, distance, ts, rfl, trivial, hgrounded, (Except.error.inj h).symm⟩
        · rintro ⟨_ | ⟨u, before⟩, _, _, _, hsplit, hbefore, -, rfl⟩
          · obtain ⟨hcopy, -⟩ := List.cons.inj hsplit
            obtain ⟨rfl, rfl⟩ := Token.copy.inj hcopy
            rfl
          · obtain ⟨rfl, -⟩ := List.cons.inj hsplit
            exact absurd hbefore.1 hgrounded

/-! ### What tokens expand to -/

/-- Every byte of a copy is the one its distance before it. -/
theorem getElem?_appendCopy_add {distance : Nat} (hpositive : 1 ≤ distance) (n : Nat) :
    ∀ {out : Array UInt8}, distance ≤ out.size → ∀ k < n,
      (appendCopy out distance n)[out.size + k]? =
        (appendCopy out distance n)[out.size + k - distance]? := by
  induction n with
  | zero => exact fun _ k hk => absurd hk (Nat.not_lt_zero k)
  | succ n ih =>
    intro out hle k hk
    rw [appendCopy]
    have hsize : (out.push (out.getD (out.size - distance) 0)).size = out.size + 1 :=
      Array.size_push _
    cases k with
    | zero =>
      -- the byte that has just been written
      have hthere : out.size - distance < out.size := by omega
      rw [Nat.add_zero, getElem?_appendCopy_of_lt (by omega), getElem?_appendCopy_of_lt (by omega),
        Array.getElem?_push, if_pos rfl, Array.getElem?_push, if_neg (by omega),
        Array.getD_eq_getD_getElem?, Array.getElem?_eq_getElem hthere, Option.getD_some]
    | succ k =>
      have hnext := @ih (out.push (out.getD (out.size - distance) 0)) (by omega) k (by omega)
      rwa [hsize, Nat.add_right_comm, Nat.add_assoc] at hnext

/-- Expanding keeps what is there, and what it appends is spelled out by the tokens. -/
theorem spelledBy_of_expandFrom {tokens : List Token} {bytes : Array UInt8} :
    ∀ {index : Nat} {out : Array UInt8}, expandFrom index out tokens = .ok bytes →
      (∀ k < out.size, bytes[k]? = out[k]?) ∧ AllFrom (SpelledBy bytes) out.size tokens := by
  induction tokens with
  | nil =>
    rintro _ out ⟨⟩
    exact ⟨fun _ _ => rfl, trivial⟩
  | cons t ts ih =>
    intro index out h
    cases t with
    | literal byte =>
      obtain ⟨hkept, hrest⟩ := ih h
      rw [Array.size_push] at hkept hrest
      refine ⟨fun k hk => ?_, ?_, hrest⟩
      · rw [hkept k (by omega), Array.getElem?_push, if_neg (by omega)]
      · rw [SpelledBy, hkept _ (Nat.lt_succ_self _), Array.getElem?_push, if_pos rfl]
    | copy length distance =>
      have hgrounded : (copy length distance).Grounded out.size :=
        ((exists_expandFrom_iff _ index out).mp ⟨bytes, h⟩).1
      obtain ⟨hpositive, hle⟩ := hgrounded
      rw [expandFrom_copy ⟨hpositive, hle⟩] at h
      obtain ⟨hkept, hrest⟩ := ih h
      rw [size_appendCopy] at hkept hrest
      refine ⟨fun k hk => ?_, fun k hk => ?_, hrest⟩
      · rw [hkept k (by omega), getElem?_appendCopy_of_lt hk]
      · rw [hkept _ (by omega), hkept _ (by omega), getElem?_appendCopy_add hpositive _ hle k hk]

/-- **Tokens expand to the bytes that they spell out**, if all of them are grounded. -/
theorem expand_eq_ok_iff (tokens : List Token) (bytes : Array UInt8) :
    expand tokens = .ok bytes ↔
      AllFrom Grounded 0 tokens ∧ bytes.size = coveredAll tokens ∧
        AllFrom (SpelledBy bytes) 0 tokens := by
  constructor
  · intro h
    exact ⟨(exists_expandFrom_iff tokens 0 #[]).mp ⟨bytes, h⟩, size_expand h,
      (spelledBy_of_expandFrom h).2⟩
  · rintro ⟨hgrounded, hsize, hspelled⟩
    have hfits : 0 + coveredAll tokens ≤ bytes.size := by omega
    have hexpand : expandFrom 0 (bytes.extract 0 0) tokens =
        .ok (bytes.extract 0 (0 + coveredAll tokens)) :=
      expandFrom_of_spelledBy hfits hgrounded hspelled
    rwa [Nat.zero_add, ← hsize, Array.extract_size, Array.extract_zero] at hexpand

/-- The expansion of an initial part is the initial part of the expansion. -/
theorem expand_of_append {ts us : List Token} {bytes : Array UInt8}
    (h : expand (ts ++ us) = .ok bytes) :
    expand ts = .ok (bytes.extract 0 (coveredAll ts)) := by
  obtain ⟨hgrounded, hsize, hspelled⟩ := (expand_eq_ok_iff _ _).mp h
  have hfits : 0 + coveredAll ts ≤ bytes.size := by
    rw [hsize, covered_append]
    omega
  have hexpand : expandFrom 0 (bytes.extract 0 0) ts =
      .ok (bytes.extract 0 (0 + coveredAll ts)) :=
    expandFrom_of_spelledBy hfits (allFrom_append.mp hgrounded).1 (allFrom_append.mp hspelled).1
  rwa [Nat.zero_add, Array.extract_zero] at hexpand

/-- **A list of tokens expands exactly if no copy reaches before the first byte** or has
distance zero, and the error names the first copy that does. What it expands to is as long
as the tokens cover and is spelled out by them, nothing else is, and the expansion of an
initial part is the initial part that it covers. On the way no byte is read that has not
been written. -/
theorem expand_outcome (tokens : List Token) :
    ((∃ bytes, expand tokens = .ok bytes) ↔ AllFrom Grounded 0 tokens) ∧
    (∀ e, expand tokens = .error e ↔
      ∃ before length distance after, tokens = before ++ copy length distance :: after ∧
        AllFrom Grounded 0 before ∧
        ¬(1 ≤ distance.toNat ∧ distance.toNat ≤ coveredAll before) ∧
        e = ⟨before.length, distance.toNat, coveredAll before⟩) ∧
    (∀ i d n, ExpandError.message ⟨i, d, n⟩ =
      s!"token {i}: distance {d} reaches before the start of {n} bytes") ∧
    (∀ bytes, expand tokens = .ok bytes →
      bytes.size = coveredAll tokens ∧ AllFrom (SpelledBy bytes) 0 tokens ∧
      (∀ other, other.size = coveredAll tokens → AllFrom (SpelledBy other) 0 tokens →
        other = bytes) ∧
      ∀ before after, tokens = before ++ after →
        expand before = .ok (bytes.extract 0 (coveredAll before))) ∧
    Checked.expand tokens = .ok (expand tokens) := by
  refine ⟨exists_expandFrom_iff tokens 0 #[], fun e => ?_, fun _ _ _ => rfl, fun bytes h => ?_,
    Checked.expand_eq tokens⟩
  · have hfails := expandFrom_eq_error_iff tokens e 0 #[]
    simp only [Fails, Array.size_empty, Nat.zero_add] at hfails
    exact hfails
  · obtain ⟨hgrounded, hsize, hspelled⟩ := (expand_eq_ok_iff tokens bytes).mp h
    refine ⟨hsize, hspelled, fun other hother hspells => ?_, fun before after hsplit => ?_⟩
    · have hexpand := (expand_eq_ok_iff tokens other).mpr ⟨hgrounded, hother, hspells⟩
      exact Except.ok.inj (hexpand.symm.trans h)
    · rw [hsplit] at h
      exact expand_of_append h

/-- A copy longer than its distance repeats what it writes, one of length zero says
nothing, and the first of two bad copies is named. -/
theorem expand_outcome_overlap :
    (∃ bytes, expand [literal 97, literal 98, copy 5 2, copy 0 7, literal 99] = .ok bytes ∧
      bytes.size = 8 ∧ (∀ k < 5, bytes[2 + k]? = bytes[2 + k - 2]?) ∧
      expand [literal 97, literal 98, copy 5 2] = .ok (bytes.extract 0 7)) ∧
    expand [literal 97, copy 3 1, copy 2 5, copy 1 0] = .error ⟨2, 5, 4⟩ := by
  obtain ⟨hexpands, -, -, hspelled, -⟩ :=
    expand_outcome [literal 97, literal 98, copy 5 2, copy 0 7, literal 99]
  obtain ⟨-, herror, -⟩ := expand_outcome [literal 97, copy 3 1, copy 2 5, copy 1 0]
  obtain ⟨bytes, hbytes⟩ :=
    hexpands.mpr ⟨trivial, trivial, by decide, by decide, trivial, trivial⟩
  obtain ⟨hsize, ⟨-, -, hcopy, -⟩, -, hinitial⟩ := hspelled bytes hbytes
  exact ⟨⟨bytes, hbytes, hsize, hcopy, hinitial _ [copy 0 7, literal 99] rfl⟩,
    (herror _).mpr ⟨[literal 97, copy 3 1], 2, 5, [copy 1 0], rfl,
      ⟨trivial, by decide, trivial⟩, by decide, rfl⟩⟩

end Backref.Token
