/-
# A level variable that is no level is passed over with one warning

A run whose level comes from the variable is a run whose level is given, behind the warning
about the variable if there is one. If the text of the variable, trimmed, is a numeral from 1
to 9, that level is given and nothing is warned of. Any other text is passed over for level 6,
and one note says so. Bytes that are no text are passed over for level 6 too, but no note says
so: to the run the variable is not set.

No other line a run notes can be mistaken for the warning, because every line starts with
words that part from it.

Key definitions: `Warning.levelHead`, `Warning.isOfLevel`, `Warning.Apart`.
Key theorems: `Environment.level?_eq_some_iff`, `run_eq_map_put`, `Run.apart_withOptions`,
`run_levelVariable`.
-/
import Backref.Proofs.Numerals
import Backref.Proofs.Quiet

namespace Backref

/-! ### The level a text stands for -/

namespace Environment

variable {e : Environment} {text : String} {n : Nat}

theorem level?_eq_some_iff :
    level? text = some n ↔ Text.IsNumeral (Text.trim text.toList) n ∧ 1 ≤ n ∧ n ≤ 9 := by
  unfold level?
  rw [Option.filter_eq_some_iff, Text.numeral?_eq_some_iff, decide_eq_true_eq]
  constructor
  · rintro ⟨⟨hnumeral, -⟩, hlow, hhigh⟩
    exact ⟨hnumeral, hlow, hhigh⟩
  · rintro ⟨hnumeral, hlow, hhigh⟩
    exact ⟨⟨hnumeral, Nat.lt_of_le_of_lt hhigh (by decide)⟩, hlow, hhigh⟩

theorem level?_eq_none_iff :
    level? text = none ↔ ∀ n, Text.IsNumeral (Text.trim text.toList) n → ¬ (1 ≤ n ∧ n ≤ 9) := by
  rw [Option.eq_none_iff_forall_ne_some]
  exact forall_congr' fun n => by rw [Ne, level?_eq_some_iff, not_and]

theorem chosenLevel_of_some (htext : text? e.level = some text) (hlevel : level? text = some n) :
    e.chosenLevel = (n, []) := by
  simp only [chosenLevel, htext, hlevel]

theorem chosenLevel_of_none (htext : text? e.level = some text) (hlevel : level? text = none) :
    e.chosenLevel = (levelLimits.standard, [.level text]) := by
  simp only [chosenLevel, htext, hlevel]

theorem chosenLevel_of_no_text (htext : text? e.level = none) :
    e.chosenLevel = (levelLimits.standard, []) := by
  simp only [chosenLevel, htext]

end Environment

/-! ### A level from the variable is a level that is given -/

theorem Arguments.level_of_scanOptions {a : Arguments} {e : Environment} {o : Scan.Options}
    (h : a.scanOptions e = .ok o) (hlevel : a.level = none) : o.level = e.chosenLevel.1 := by
  obtain ⟨level, hchecked, h⟩ := bind_eq_ok_iff.mp h
  obtain ⟨bits, -, h⟩ := bind_eq_ok_iff.mp h
  obtain ⟨size, -, h⟩ := bind_eq_ok_iff.mp h
  obtain ⟨-, rfl⟩ := checkLevel_eq_ok_iff.mp hchecked
  obtain rfl := Except.ok.inj h
  show (a.chosenLevel e).1 = _
  rw [chosenLevel, hlevel]

theorem Transcript.append_assoc (s t u : Transcript) : s ++ t ++ u = s ++ (t ++ u) := by
  show Transcript.mk _ _ _ = Transcript.mk _ _ _
  rw [Transcript.mk.injEq]
  exact ⟨List.append_assoc .., List.append_assoc .., Nat.max_assoc ..⟩

theorem Run.warnings_append (display : Nat) (ws vs : List Warning) :
    warnings display (ws ++ vs) = warnings display ws ++ warnings display vs := by
  show Transcript.mk _ _ _ = Transcript.mk _ _ _
  rw [List.map_append, atLevel_append]
  rfl

theorem Run.warnings_nil (display : Nat) (t : Transcript) : warnings display [] ++ t = t := by
  have hsilent : atLevel display 2 [] = [] := ite_self _
  show Transcript.mk _ (atLevel display 2 [] ++ t.notes) (max 0 t.exitCode) = t
  rw [hsilent, Nat.zero_max]
  rfl

/-- **A run with the level of the variable** is a run with that level given, behind the
warnings about the variable. -/
theorem run_eq_map_put {m : Type → Type} [Monad m] [LawfulMonad m] (host : Host m)
    (e : Environment) {a : Arguments} (hlevel : a.level = none) :
    run host e a = (Run.warnings a.displayLevel e.chosenLevel.2 ++ ·) <$>
      run host e (a.put e.chosenLevel.1 .level) := by
  have hchosen : a.chosenLevel e = e.chosenLevel := by simp only [Arguments.chosenLevel, hlevel]
  have hwarned : a.warnings e = e.chosenLevel.2 ++ (a.put e.chosenLevel.1 .level).warnings e := by
    show (a.chosenLevel e).2 ++ _ = _
    rw [hchosen]
    rfl
  have hoptions : a.scanOptions e = (a.put e.chosenLevel.1 .level).scanOptions e := by
    unfold Arguments.scanOptions
    rw [hchosen]
    rfl
  unfold run
  rw [hwarned, hoptions, Run.warnings_append]
  cases (a.put e.chosenLevel.1 .level).scanOptions e with
  | error cause =>
    simp only [map_pure, Transcript.append_assoc]
    rfl
  | ok o =>
    simp only [map_bind, map_pure, Transcript.append_assoc]
    rfl

/-! ### Lines that are no warning about the variable -/

namespace Warning

def levelHead : String := s!"Ignore environment variable setting {levelVariable}="

/-- The line is a warning about the level variable. -/
def isOfLevel (line : String) : Bool := levelHead.toList.isPrefixOf line.toList

/-- The text parts from the warning about the level variable: neither starts with the other. -/
def Apart (text : String) : Prop :=
  ¬ text.toList <+: levelHead.toList ∧ ¬ levelHead.toList <+: text.toList

instance (text : String) : Decidable (Apart text) :=
  inferInstanceAs (Decidable (¬ _ ∧ ¬ _))

variable {s : String}

/-- Texts that have parted stay apart. -/
theorem Apart.append (h : Apart s) (t : String) : Apart (s ++ t) := by
  unfold Apart
  rw [String.toList_append]
  constructor
  · intro hshort
    exact h.1 ((List.prefix_append _ _).trans hshort)
  · intro hlong
    exact (List.prefix_or_prefix_of_prefix (List.prefix_append _ _) hlong).elim h.1 h.2

theorem Apart.isOfLevel_eq_false (h : Apart s) : isOfLevel s = false := by
  rw [isOfLevel, Bool.eq_false_iff, Ne, List.isPrefixOf_iff_prefix]
  exact h.2

theorem isOfLevel_message (text : String) : isOfLevel (level text).message = true := by
  rw [isOfLevel, List.isPrefixOf_iff_prefix]
  show levelHead.toList <+: (levelHead ++ text ++ ": not a valid level").toList
  rw [String.append_assoc, String.toList_append]
  exact List.prefix_append _ _

theorem apart_workers (text : String) : Apart (workers text).message := by
  have hname : Apart ("Ignore environment variable setting " ++ workersVariable) := by decide
  exact ((hname.append "=").append text).append ": not a number"

/-- A number parts from the warning at its first digit. -/
theorem apart_toString (n : Nat) : Apart (toString n) := by
  have hdigits : ∀ c ∈ (toString n).toList, c.isDigit := by
    intro c hc
    rw [show toString n = Nat.repr n from rfl, Nat.toList_repr] at hc
    exact Nat.isDigit_of_mem_toDigits (Nat.zero_lt_succ 9) (Nat.le_refl 10) hc
  obtain ⟨c, cs, hcs⟩ : ∃ c cs, (toString n).toList = c :: cs := by
    apply List.exists_cons_of_ne_nil
    rw [show toString n = Nat.repr n from rfl, Nat.toList_repr]
    exact Nat.toDigits_ne_nil
  have hfirst : 'I' ≠ c := by
    rintro rfl
    exact absurd (hdigits 'I' (hcs ▸ List.mem_cons_self)) (by decide)
  have hhead : levelHead.toList = 'I' :: levelHead.toList.tail := by decide
  unfold Apart
  rw [hcs, hhead, List.cons_prefix_cons, List.cons_prefix_cons]
  exact ⟨fun h => hfirst h.1.symm, fun h => hfirst h.1⟩

end Warning

/-! ### The notes of a run -/

namespace Run

open Warning

variable {display needed : Nat} {line : String}

theorem mem_of_mem_atLevel {lines : List String} (h : line ∈ atLevel display needed lines) :
    line ∈ lines := by
  unfold atLevel at h
  split at h
  · exact h
  · cases h

theorem apart_errorLine (message : String) : Apart (errorLine message) := by
  show Apart (programName ++ ": " ++ message)
  apply Apart.append
  decide

theorem apart_failure (message : String) : ∀ line ∈ (failure message).notes, Apart line :=
  List.forall_mem_singleton.mpr (apart_errorLine message)

theorem apart_opening (cores : Nat) (o : Scan.Options) :
    ∀ line ∈ (opening display cores o).notes, Apart line := by
  intro line h
  obtain rfl | h := List.mem_cons.mp (mem_of_mem_atLevel h)
  · show Apart ("*** " ++ _ ++ _ ++ _ ++ _ ++ _ ++ _)
    repeat apply Apart.append
    decide
  · obtain rfl := List.mem_singleton.mp h
    show Apart ("level " ++ _ ++ _ ++ _ ++ _ ++ _ ++ _)
    repeat apply Apart.append
    decide

theorem apart_fileTranscript (size : Nat) (path : String) (result : FileResult) :
    ∀ line ∈ (fileTranscript display size path result).notes, Apart line := by
  intro line h
  cases result with
  | error e =>
    obtain rfl := List.mem_singleton.mp (mem_of_mem_atLevel h)
    exact apart_errorLine _
  | ok found =>
    rcases List.mem_append.mp h with hblock | hdetail
    · obtain ⟨⟨stats, index⟩, -, rfl⟩ := List.mem_map.mp (mem_of_mem_atLevel hblock)
      show Apart ("block " ++ _ ++ _ ++ _ ++ _ ++ _ ++ _ ++ _ ++ _ ++ _ ++ _)
      repeat apply Apart.append
      decide
    · obtain rfl := List.mem_singleton.mp (mem_of_mem_atLevel hdetail)
      show Apart ("  " ++ _ ++ _ ++ _ ++ _ ++ _ ++ _ ++ _ ++ _ ++ _ ++ _)
      repeat apply Apart.append
      decide

theorem apart_totals (results : List FileResult) :
    ∀ line ∈ (totals display results).notes, Apart line := by
  intro line h
  unfold totals at h
  simp only at h
  split at h
  · cases h
  · obtain rfl := List.mem_singleton.mp (mem_of_mem_atLevel h)
    exact (((((apart_toString _).append _).append _).append _).append _).append _

theorem apart_transcript (size : Nat) (results : List (String × FileResult)) :
    ∀ line ∈ (transcript display size results).notes, Apart line := by
  intro line h
  rw [notes_transcript] at h
  rcases List.mem_append.mp h with hfile | htotal
  · obtain ⟨lines, hlines, hline⟩ := List.mem_flatten.mp hfile
    obtain ⟨r, -, rfl⟩ := List.mem_map.mp hlines
    exact apart_fileTranscript _ _ _ line hline
  · exact apart_totals _ line htotal

/-- Whatever the machine answers, no note on the files is a warning about the level. -/
theorem apart_withOptions {σ : Type} (host : Host (StateM σ)) (a : Arguments) (o : Scan.Options)
    (s : σ) : ∀ line ∈ ((withOptions host a o).run s).1.notes, Apart line := by
  unfold withOptions
  rw [StateT.run_bind]
  obtain ⟨listed, s'⟩ := (expandInputs host a.recursive a.paths).run s
  cases listed with
  | error e => exact apart_failure _
  | ok files =>
    cases files with
    | nil => exact apart_failure _
    | cons path rest => exact apart_transcript _ _

end Run

/-! ### The variable as a whole -/

section

open Warning

variable {σ : Type} {e : Environment} {a : Arguments} {bytes : Array UInt8}

/-- A run whose level is given warns of no level. -/
theorem apart_run_put (host : Host (StateM σ)) (e : Environment) (a : Arguments) (n : Nat)
    (s : σ) : ∀ line ∈ ((run host e (a.put n .level)).run s).1.notes, Apart line := by
  have hwarned : ∀ line ∈ (Run.warnings a.displayLevel ((a.put n .level).warnings e)).notes,
      Apart line := by
    intro line h
    obtain ⟨w, hw, rfl⟩ := List.mem_map.mp (Run.mem_of_mem_atLevel h)
    have hworkers : w ∈ (a.chosenWorkers e).2 := hw
    unfold Arguments.chosenWorkers Environment.chosenWorkers at hworkers
    split at hworkers
    · cases hworkers
    · split at hworkers
      · cases hworkers
      · split at hworkers
        · cases hworkers
        · obtain rfl := List.mem_singleton.mp hworkers
          exact apart_workers _
  unfold run
  cases (a.put n .level).scanOptions e with
  | error cause => exact List.forall_mem_append.mpr ⟨hwarned, Run.apart_failure _⟩
  | ok o =>
    exact List.forall_mem_append.mpr ⟨List.forall_mem_append.mpr ⟨hwarned, Run.apart_opening _ _⟩,
      Run.apart_withOptions host _ o _⟩

theorem countP_isOfLevel_eq_zero {lines : List String} (h : ∀ line ∈ lines, Apart line) :
    lines.countP isOfLevel = 0 := by
  rw [List.countP_eq_zero]
  intro line hline
  exact Bool.eq_false_iff.mp (h line hline).isOfLevel_eq_false

/-- What is printed is what is printed with the level given, behind the warnings. -/
theorem transcript_run_eq (host : Host (StateM σ)) (e : Environment) (hlevel : a.level = none)
    (s : σ) : ((run host e a).run s).1 = Run.warnings a.displayLevel e.chosenLevel.2 ++
      ((run host e (a.put e.chosenLevel.1 .level)).run s).1 := by
  rw [run_eq_map_put host e hlevel]
  rfl

/-- **A level variable that is no level is passed over with one warning**, if it is text. What
a run prints without a level of its own, but with the variable set, is what it prints with a
level given: the numeral from 1 to 9 that the trimmed text is, or else level 6. The text that is
no such numeral is noted first, once; bytes that are no text are noted nowhere. -/
theorem run_levelVariable (host : Host (StateM σ)) (hset : e.level = some bytes)
    (hlevel : a.level = none) (hdisplay : 2 ≤ a.displayLevel) (s : σ) :
    let t := ((run host e a).run s).1
    let given (n : Nat) := ((run host e (a.put n .level)).run s).1
    let uses (n : Nat) := ∀ o, a.scanOptions e = .ok o → o.level = n
    (∀ text n, String.fromUTF8? ⟨bytes⟩ = some text →
      Text.IsNumeral (Text.trim text.toList) n → 1 ≤ n → n ≤ 9 →
      uses n ∧ t = given n ∧ t.notes.countP isOfLevel = 0) ∧
    (∀ text, String.fromUTF8? ⟨bytes⟩ = some text →
      (∀ n, Text.IsNumeral (Text.trim text.toList) n → ¬ (1 ≤ n ∧ n ≤ 9)) →
      uses 6 ∧ t.output = (given 6).output ∧ t.exitCode = (given 6).exitCode ∧
      t.notes = (Warning.level text).message :: (given 6).notes ∧
      t.notes.countP isOfLevel = 1) ∧
    (String.fromUTF8? ⟨bytes⟩ = none →
      uses 6 ∧ t = given 6 ∧ t.notes.countP isOfLevel = 0) := by
  intro t given uses
  have ht : t = Run.warnings a.displayLevel e.chosenLevel.2 ++ given e.chosenLevel.1 :=
    transcript_run_eq host e hlevel s
  have huses : uses e.chosenLevel.1 := fun o ho => Arguments.level_of_scanOptions ho hlevel
  have hnone (n : Nat) : (given n).notes.countP isOfLevel = 0 :=
    countP_isOfLevel_eq_zero (apart_run_put host e a n s)
  have htext : Environment.text? e.level = String.fromUTF8? ⟨bytes⟩ := by rw [hset]; rfl
  refine ⟨fun text n hutf8 hnumeral hlow hhigh => ?_, fun text hutf8 hno => ?_, fun hbytes => ?_⟩
  · have hchosen := Environment.chosenLevel_of_some (htext.trans hutf8)
      (Environment.level?_eq_some_iff.mpr ⟨hnumeral, hlow, hhigh⟩)
    rw [hchosen] at ht huses
    rw [Run.warnings_nil] at ht
    exact ⟨huses, ht, ht ▸ hnone n⟩
  · have hchosen := Environment.chosenLevel_of_none (htext.trans hutf8)
      (Environment.level?_eq_none_iff.mpr hno)
    rw [hchosen] at ht huses
    have hnotes : t.notes = (Warning.level text).message :: (given 6).notes := by
      rw [ht, Transcript.append_notes]
      exact congrArg (· ++ (given 6).notes) (Run.atLevel_of_le hdisplay _)
    refine ⟨huses, by rw [ht]; rfl, ?_, hnotes, ?_⟩
    · rw [ht]
      exact Nat.zero_max _
    · rw [hnotes, List.countP_cons_of_pos (isOfLevel_message text), hnone]
  · have hchosen := Environment.chosenLevel_of_no_text (htext.trans hbytes)
    rw [hchosen] at ht huses
    rw [Run.warnings_nil] at ht
    exact ⟨huses, ht, ht ▸ hnone 6⟩

/-- The variable is "10". -/
theorem run_levelVariable_ten :
    let host := (Files.single "f" #[97, 98, 99]).ticking 1 0
    let e : Environment := ⟨some #[49, 48], none⟩
    let a : Arguments := { paths := ["f"] }
    let t := ((run host e a).run 0).1
    (e.level = some #[49, 48] ∧ a.level = none ∧ 2 ≤ a.displayLevel) ∧
      t.notes = "Ignore environment variable setting LZMATCH_CLEVEL=10: not a valid level" ::
        ((run host e (a.put 6 .level)).run 0).1.notes ∧
      t.notes.countP isOfLevel = 1 := by
  intro host e a t
  have hno := Environment.level?_eq_none_iff.mp (by decide +kernel : Environment.level? "10" = none)
  obtain ⟨-, hother, -⟩ := run_levelVariable host (e := e) (a := a) rfl rfl (by decide) 0
  obtain ⟨-, -, -, hnotes, hone⟩ := hother "10" (by decide +kernel) hno
  exact ⟨⟨rfl, rfl, by decide⟩, hnotes, hone⟩

/-- Bytes that are no text are not warned of. -/
theorem run_levelVariable_not_text :
    let host := (Files.single "f" #[97, 98, 99]).ticking 1 0
    let e : Environment := ⟨some #[255], none⟩
    let a : Arguments := { paths := ["f"] }
    (Arguments.read ["f"] = .ok a ∧ a.level = none ∧ 2 ≤ a.displayLevel ∧
        String.fromUTF8? ⟨#[255]⟩ = none) ∧
      ((run host e a).run 0).1.notes.countP isOfLevel ≠ 1 := by
  intro host e a
  have hbytes : String.fromUTF8? ⟨#[255]⟩ = none := by decide +kernel
  have hchosen := Environment.chosenLevel_of_no_text (e := e) hbytes
  refine ⟨⟨by decide, rfl, by decide, hbytes⟩, ?_⟩
  rw [transcript_run_eq host e rfl 0, hchosen, Run.warnings_nil,
    countP_isOfLevel_eq_zero (apart_run_put host e a levelLimits.standard 0)]
  decide

end

end Backref
