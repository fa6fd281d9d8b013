/-
# Sizes are read by their grammar, but for a unit that ends in `i`

A size is spelled as digits and a suffix: nothing or `B` for bytes, or one of the letters `K`,
`M` and `G`, each with or without an `i` and with or without a `B` behind it. Blanks around a
size do not count. A text that spells a size of 64 bits is read as that size, and any other
text is refused. The suffixes `Ki`, `Mi` and `Gi` are refused as well, as unknown ones, though
the same units are read with a `B` behind them.

Key definitions: `Size.suffixes`, `Size.Spells`.
Key theorems: `Size.suffixBits?_eq_some_iff`, `Size.read_eq_ok_iff`, `Size.read_outcome`.
-/
import Backref.Size
import Backref.Proofs.Numerals

namespace Backref.Size

open Text

/-! ### The grammar -/

def unitLetters : List (Char × Nat) := [('K', 10), ('M', 20), ('G', 30)]

/-- The suffixes of sizes, with the power of two that each stands for: nothing or `B`, and for
a unit its letter, `i` or not, and `B` or not. -/
def suffixes : List (List Char × Nat) :=
  [([], 0), (['B'], 0)] ++
    unitLetters.flatMap fun (letter, bits) =>
      [[], ['i']].flatMap fun mark => [[], ['B']].map fun tail => (letter :: (mark ++ tail), bits)

/-- The text spells a size of 64 bits: digits, and a suffix that multiplies their value. -/
def Spells (cs : List Char) (n : Nat) : Prop :=
  ∃ run suffix bits, cs = run ++ suffix ∧ IsRun run ∧ (suffix, bits) ∈ suffixes ∧
    n = digitsValue run * 2 ^ bits ∧ n < bound

/-- The text ends in `i`, as a unit does whose `B` is left out. -/
def EndsInMark (cs : List Char) : Prop := cs.getLast? = some 'i'

instance (cs : List Char) : Decidable (EndsInMark cs) := inferInstanceAs (Decidable (_ = _))

variable {cs suffix : List Char} {bits n : Nat}

/-! ### Suffixes -/

/-- **A suffix is read unless it ends in `i`.** -/
theorem suffixBits?_eq_some_iff :
    suffixBits? (String.ofList suffix) = some bits ↔
      (suffix, bits) ∈ suffixes ∧ ¬ EndsInMark suffix := by
  constructor
  · intro h
    have hsuffix : suffix = (String.ofList suffix).toList := String.toList_ofList.symm
    rw [hsuffix]
    generalize String.ofList suffix = text at h
    unfold suffixBits? at h
    simp only [List.mem_cons, List.not_mem_nil, or_false] at h
    split at h
    · next htext => obtain rfl := Option.some.inj h; rcases htext with rfl | rfl <;> decide
    split at h
    · next htext => obtain rfl := Option.some.inj h; rcases htext with rfl | rfl | rfl <;> decide
    split at h
    · next htext => obtain rfl := Option.some.inj h; rcases htext with rfl | rfl | rfl <;> decide
    split at h
    · next htext => obtain rfl := Option.some.inj h; rcases htext with rfl | rfl | rfl <;> decide
    · cases h
  · rintro ⟨hmem, hmark⟩
    have hread : ∀ s ∈ suffixes, ¬ EndsInMark s.1 → suffixBits? (String.ofList s.1) = some s.2 := by
      decide
    exact hread (suffix, bits) hmem hmark

theorem undigited_of_mem_suffixes (h : (suffix, bits) ∈ suffixes) : Undigited suffix := by
  have hall : suffixes.all fun s => s.1.head?.all fun c => !c.isDigit := by decide
  have hhead := List.all_eq_true.mp hall (suffix, bits) h
  intro c hc
  rw [Option.mem_def.mp hc, Option.all_some, Bool.not_eq_true'] at hhead
  exact Bool.eq_false_iff.mp hhead

theorem endsInMark_append {run : List Char} (hrun : IsRun run) :
    EndsInMark (run ++ suffix) ↔ EndsInMark suffix := by
  unfold EndsInMark
  rcases hlast : suffix.getLast? with _ | c
  · obtain rfl := List.getLast?_eq_none_iff.mp hlast
    rw [List.append_nil]
    refine iff_of_false (fun hrunLast => ?_) nofun
    exact absurd (hrun.2 'i' (List.mem_of_getLast? hrunLast)) (by decide)
  · rw [List.getLast?_append, hlast, Option.some_or]

/-! ### Reading -/

theorem read_eq_ok {text : String} :
    read text = .ok n ↔ digits (trim text.toList) ≠ [] ∧ ∃ bits,
      suffixBits? (String.ofList (afterDigits (trim text.toList))) = some bits ∧
        n = digitsValue (digits (trim text.toList)) * 2 ^ bits ∧ n < bound := by
  unfold read
  generalize trim text.toList = cs
  simp only [Nat.shiftLeft_eq]
  constructor
  · intro h
    split at h
    · cases h
    next hrun =>
    split at h
    · cases h
    split at h
    · cases h
    next bits hbits =>
    split at h
    · cases h
    next hlt =>
    obtain rfl := Except.ok.inj h
    exact ⟨hrun, bits, hbits, rfl, Nat.lt_of_not_le hlt⟩
  · rintro ⟨hrun, bits, hbits, rfl, hlt⟩
    have hvalue : digitsValue (digits cs) < bound :=
      Nat.lt_of_le_of_lt (Nat.le_mul_of_pos_right _ (Nat.two_pow_pos bits)) hlt
    rw [if_neg hrun, if_neg (Nat.not_le.mpr hvalue), hbits]
    exact if_neg (Nat.not_le.mpr hlt)

/-- **A size is read exactly if the text spells it and does not end in `i`.** -/
theorem read_eq_ok_iff {text : String} :
    read text = .ok n ↔ Spells (trim text.toList) n ∧ ¬ EndsInMark (trim text.toList) := by
  rw [read_eq_ok]
  generalize trim text.toList = cs
  constructor
  · rintro ⟨hdigits, bits, hbits, hvalue, hlt⟩
    have hrun : IsRun (digits cs) := isRun_digits hdigits
    have hsplit : cs = digits cs ++ afterDigits cs := (digits_append_afterDigits cs).symm
    obtain ⟨hmem, hmark⟩ := suffixBits?_eq_some_iff.mp hbits
    refine ⟨⟨_, _, bits, hsplit, hrun, hmem, hvalue, hlt⟩, ?_⟩
    rwa [hsplit, endsInMark_append hrun]
  · rintro ⟨⟨run, suffix, bits, rfl, hrun, hmem, hvalue, hlt⟩, hmark⟩
    have hrest : Undigited suffix := undigited_of_mem_suffixes hmem
    rw [endsInMark_append hrun] at hmark
    rw [digits_append hrun hrest, afterDigits_append hrun hrest]
    exact ⟨hrun.1, bits, suffixBits?_eq_some_iff.mpr ⟨hmem, hmark⟩, hvalue, hlt⟩

/-- A unit whose `B` is left out behind its `i` is refused as an unknown suffix. -/
theorem read_of_endsInMark {text : String} (hspells : Spells (trim text.toList) n)
    (hmark : EndsInMark (trim text.toList)) :
    ∃ suffix ∈ ["Ki", "Mi", "Gi"], read text = .error (.unknownSuffix suffix) := by
  obtain ⟨run, suffix, bits, hcs, hrun, hmem, hvalue, hlt⟩ := hspells
  have hrest : Undigited suffix := undigited_of_mem_suffixes hmem
  rw [hcs, endsInMark_append hrun] at hmark
  have hunits : ∀ s ∈ suffixes, EndsInMark s.1 → String.ofList s.1 ∈ ["Ki", "Mi", "Gi"] := by
    decide
  have hnone : suffixBits? (String.ofList suffix) = none := by
    rcases hbits : suffixBits? (String.ofList suffix) with _ | bits'
    · rfl
    · exact absurd hmark (suffixBits?_eq_some_iff.mp hbits).2
  have hdigits : digitsValue run < bound := by
    have hle : digitsValue run ≤ n := hvalue ▸ Nat.le_mul_of_pos_right _ (Nat.two_pow_pos bits)
    exact Nat.lt_of_le_of_lt hle hlt
  refine ⟨String.ofList suffix, hunits (suffix, bits) hmem hmark, ?_⟩
  unfold read
  simp only [hcs, digits_append hrun hrest, afterDigits_append hrun hrest, hnone]
  rw [if_neg hrun.1, if_neg (Nat.not_le.mpr hdigits)]

/-- **What reading a size answers.** A text that spells a size is read as that size, unless it
ends in `i`; then its suffix is refused as unknown. Every other text is an error. -/
theorem read_outcome (text : String) :
    (∀ n, read text = .ok n ↔ Spells (trim text.toList) n ∧ ¬ EndsInMark (trim text.toList)) ∧
    (∀ n, Spells (trim text.toList) n → EndsInMark (trim text.toList) →
      ∃ suffix ∈ ["Ki", "Mi", "Gi"], read text = .error (.unknownSuffix suffix)) ∧
    ((¬ ∃ n, Spells (trim text.toList) n) → ∃ cause, read text = .error cause) := by
  refine ⟨fun n => read_eq_ok_iff, fun n => read_of_endsInMark, fun hother => ?_⟩
  rcases hread : read text with cause | n
  · exact ⟨cause, rfl⟩
  · exact absurd ⟨n, (read_eq_ok_iff.mp hread).1⟩ hother

/-- Leading zeros and blanks do not count; a unit without its `B` is refused, and so is one
without digits. -/
theorem read_outcome_units :
    (Spells (trim " 0064KiB\n".toList) 65536 ∧ ¬ EndsInMark (trim " 0064KiB\n".toList) ∧
        read " 0064KiB\n" = .ok 65536) ∧
      (Spells (trim "1Mi".toList) 1048576 ∧ EndsInMark (trim "1Mi".toList) ∧
        ∃ suffix ∈ ["Ki", "Mi", "Gi"], read "1Mi" = .error (.unknownSuffix suffix)) ∧
      (¬ ∃ n, Spells (trim "K".toList) n) ∧ ∃ cause, read "K" = .error cause := by
  have hkibi : Spells (trim " 0064KiB\n".toList) 65536 :=
    ⟨['0', '0', '6', '4'], ['K', 'i', 'B'], 10, by decide,
      ⟨by decide, List.all_eq_true.mp (by decide)⟩, by decide, by decide, by decide⟩
  have hmebi : Spells (trim "1Mi".toList) 1048576 :=
    ⟨['1'], ['M', 'i'], 20, by decide, ⟨by decide, List.all_eq_true.mp (by decide)⟩,
      by decide, by decide, by decide⟩
  have hletter : ¬ ∃ n, Spells (trim "K".toList) n := by
    rintro ⟨n, run, suffix, bits, hcs, ⟨hne, hall⟩, -⟩
    obtain ⟨c, tail, rfl⟩ := List.exists_cons_of_ne_nil hne
    have hhead : 'K' = c := (List.cons.inj hcs).1
    exact absurd (hhead ▸ hall c List.mem_cons_self) (by decide)
  refine ⟨⟨hkibi, by decide, ?_⟩, ⟨hmebi, by decide, ?_⟩, hletter, ?_⟩
  · exact ((read_outcome " 0064KiB\n").1 65536).mpr ⟨hkibi, by decide⟩
  · exact (read_outcome "1Mi").2.1 1048576 hmebi (by decide)
  · exact (read_outcome "K").2.2 hletter

/-- A text that spells a size is not always read. -/
theorem read_kibi_refused :
    Spells (trim "64Ki".toList) 65536 ∧ read "64Ki" = .error (.unknownSuffix "Ki") :=
  ⟨⟨['6', '4'], ['K', 'i'], 10, by decide, ⟨by decide, List.all_eq_true.mp (by decide)⟩,
    by decide, by decide, by decide⟩, by rfl⟩

end Backref.Size
