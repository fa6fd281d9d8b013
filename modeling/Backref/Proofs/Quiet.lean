/-
# A quiet run still says why it cannot start, and what it scanned

Below level 2 nothing is printed but errors and the lines of files. An error that keeps a run
from starting is noted at every level, also at level 0, where all else is silent. From level 1
on there is one line of output for each file that can be read, and one note for each that
cannot.

Key definitions: `Run.errorLines`, `Files.obstacle?`, `Files.readErrors`.
Key theorems: `Run.output_eq_atLevel`, `Run.notes_of_quiet`, `Files.Ends.quiet`,
`Files.run_quiet`.
-/
import Backref.Proofs.Isolation

namespace Backref

/-! ### What is left below level 2 -/

namespace Run

variable {display needed size : Nat}

theorem atLevel_of_le (h : needed ≤ display) (lines : List String) :
    atLevel display needed lines = lines :=
  if_pos h

theorem atLevel_of_lt (h : display < needed) (lines : List String) :
    atLevel display needed lines = [] :=
  if_neg (Nat.not_le.mpr h)

theorem atLevel_append (display needed : Nat) (xs ys : List String) :
    atLevel display needed (xs ++ ys) = atLevel display needed xs ++ atLevel display needed ys := by
  unfold atLevel
  split
  · rfl
  · rfl

theorem output_eq_atLevel (display size : Nat) (results : List (String × FileResult)) :
    (transcript display size results).output =
      atLevel display 1 ((reports results).map lineOf) := by
  by_cases h : 1 ≤ display
  · rw [output_transcript h, atLevel_of_le h]
  · have hlt : display < 1 := Nat.lt_of_not_le h
    have hsilent :
        (results.flatMap fun r => (fileTranscript display size r.1 r.2).output) = [] := by
      apply List.flatMap_eq_nil_iff.mpr
      rintro ⟨path, result⟩ -
      cases result with
      | error e => rfl
      | ok found => exact atLevel_of_lt hlt _
    rw [atLevel_of_lt hlt, transcript_eq, Transcript.output_foldr, List.flatMap_map, hsilent]
    rfl

/-- The errors of the files that were not scanned, in order. -/
def errorLines (results : List (String × FileResult)) : List String :=
  results.filterMap fun (_, result) =>
    match result with
    | .ok _ => none
    | .error e => some (errorLine e.message)

/-- Below level 2 the errors of the files are the only notes on them. -/
theorem flatten_notes_of_quiet (hquiet : display ≤ 1) (results : List (String × FileResult)) :
    (results.map fun r => (fileTranscript display size r.1 r.2).notes).flatten =
      atLevel display 1 (errorLines results) := by
  induction results with
  | nil => exact (ite_self _).symm
  | cons r rest ih =>
    obtain ⟨path, result⟩ := r
    rw [List.map_cons, List.flatten_cons, ih]
    cases result with
    | error e => exact (atLevel_append display 1 [errorLine e.message] (errorLines rest)).symm
    | ok found =>
      have hnotes : (fileTranscript display size path (.ok found)).notes = [] := by
        show atLevel display 4 _ ++ atLevel display 3 _ = []
        rw [atLevel_of_lt (by omega), atLevel_of_lt (by omega), List.append_nil]
      rw [hnotes]
      rfl

theorem notes_of_quiet (hquiet : display ≤ 1) (results : List (String × FileResult)) :
    (transcript display size results).notes = atLevel display 1 (errorLines results) := by
  have htotals : (totals display (results.map (·.2))).notes = [] := by
    rw [notes_totals, atLevel_of_lt (by omega), ite_self]
  rw [notes_transcript, htotals, List.append_nil, flatten_notes_of_quiet hquiet]

theorem warnings_of_quiet (hquiet : display ≤ 1) (ws : List Warning) :
    (warnings display ws).notes = [] :=
  atLevel_of_lt (by omega) _

theorem opening_of_quiet (hquiet : display ≤ 1) (cores : Nat) (o : Scan.Options) :
    (opening display cores o).notes = [] :=
  atLevel_of_lt (by omega) _

/-- What comes before the files needs at least level 2. -/
theorem notes_append_of_quiet (hquiet : display ≤ 1) (ws : List Warning) (cores : Nat)
    (o : Scan.Options) (rest : Transcript) :
    (warnings display ws ++ opening display cores o ++ rest).notes = rest.notes := by
  rw [Transcript.append_notes, Transcript.append_notes, warnings_of_quiet hquiet,
    opening_of_quiet hquiet]
  rfl

end Run

/-! ### Why a run cannot start -/

namespace Files

variable {σ : Type} {host : Host (StateM σ)} {files : Files} {o : Scan.Options}
  {listed : List String} {results : List (String × Run.FileResult)} {a : Arguments}
  {e : Environment} {t : Transcript}

/-- Why a run cannot start: its settings are refused, its inputs cannot be listed, or there are
none. -/
def obstacle? (files : Files) (e : Environment) (a : Arguments) : Option String :=
  match a.scanOptions e, files.inputs a.recursive a.paths with
  | .error cause, _ => some cause.message
  | .ok _, .error cause => some cause.message
  | .ok _, .ok [] => some "no input files"
  | .ok _, .ok (_ :: _) => none

/-- One error for each file that cannot be read, in order. -/
def readErrors (files : Files) (listed : List String) : List String :=
  listed.filterMap fun path =>
    match files.read path with
    | .ok _ => none
    | .error cause => some (Run.errorLine (FileScanError.unreadable path cause).message)

theorem readErrors_cons_of_error {path : String} {cause : FileError}
    (hread : files.read path = .error cause) :
    files.readErrors (path :: listed) =
      Run.errorLine (FileScanError.unreadable path cause).message :: files.readErrors listed := by
  simp only [readErrors, List.filterMap_cons, hread]

theorem readErrors_cons_of_ok {path : String} {bytes : Array UInt8}
    (hread : files.read path = .ok bytes) :
    files.readErrors (path :: listed) = files.readErrors listed := by
  simp only [readErrors, List.filterMap_cons, hread]

/-- The errors among the results are those of the files that cannot be read. -/
theorem errorLines_eq_readErrors (h : List.Forall₂ (files.Gives o) listed results) :
    Run.errorLines results = files.readErrors listed := by
  induction h with
  | nil => rfl
  | cons hfirst _ ih =>
    cases hfirst with
    | unreadable hread =>
      rw [readErrors_cons_of_error hread, ← ih]
      rfl
    | scanned hread =>
      rw [readErrors_cons_of_ok hread, ← ih]
      rfl

/-- **Below level 2** a run that cannot start says why, and any other has the lines of its files
and their errors, if there is a level for them. -/
theorem Ends.quiet (h : files.Ends e a t) (hsizes : files.Addressable)
    (hquiet : a.displayLevel ≤ 1) :
    (∃ message, files.obstacle? e a = some message ∧ t.output = [] ∧
        t.notes = [Run.errorLine message]) ∨
      files.obstacle? e a = none ∧ ∃ o listed, a.scanOptions e = .ok o ∧
        files.inputs a.recursive a.paths = .ok listed ∧
        t.output = Run.atLevel a.displayLevel 1 ((files.scans o listed).map Run.lineOf) ∧
        t.notes = Run.atLevel a.displayLevel 1 (files.readErrors listed) := by
  cases h with
  | @refused cause hoptions =>
    refine .inl ⟨cause.message, ?_, rfl, ?_⟩
    · rw [obstacle?, hoptions]
    · rw [Transcript.append_notes, Run.warnings_of_quiet hquiet]
      rfl
  | @unlisted o cores cause hoptions hinputs =>
    refine .inl ⟨cause.message, ?_, rfl, Run.notes_append_of_quiet hquiet _ _ _ _⟩
    rw [obstacle?, hoptions, hinputs]
  | empty hoptions hinputs =>
    refine .inl ⟨"no input files", ?_, rfl, Run.notes_append_of_quiet hquiet _ _ _ _⟩
    rw [obstacle?, hoptions, hinputs]
  | @scanned o cores listed results hoptions hinputs hlisted hresults =>
    have ho : o.Accepted := Arguments.accepted_of_scanOptions hoptions
    refine .inr ⟨?_, o, listed, hoptions, hinputs, ?_, ?_⟩
    · obtain ⟨path, rest, rfl⟩ := List.exists_cons_of_ne_nil hlisted
      rw [obstacle?, hoptions, hinputs]
    · rw [← reports_eq_scans hsizes ho hresults]
      exact Run.output_eq_atLevel _ _ _
    · rw [Run.notes_append_of_quiet hquiet, Run.notes_of_quiet hquiet,
        errorLines_eq_readErrors hresults]

/-- **A quiet run still says why it cannot start, and what it scanned.** At level 0 it has no
output, and its only note is why it cannot start. At level 1 it has the lines of the files that
can be read for output, and its notes are errors: why it cannot start, or one for each file that
cannot be read. -/
theorem run_quiet (hhost : host.Serves files) (hsizes : files.Addressable) (e : Environment)
    (a : Arguments) (s : σ) :
    let t := ((run host e a).run s).1
    (a.displayLevel = 0 → t.output = [] ∧
      t.notes = ((files.obstacle? e a).map Run.errorLine).toList) ∧
    (a.displayLevel = 1 →
      (∀ message, files.obstacle? e a = some message →
        t.output = [] ∧ t.notes = [Run.errorLine message]) ∧
      (files.obstacle? e a = none → ∃ o listed, a.scanOptions e = .ok o ∧
        files.inputs a.recursive a.paths = .ok listed ∧
        t.output = (files.scans o listed).map Run.lineOf ∧
        t.notes = files.readErrors listed)) := by
  intro t
  have hends : files.Ends e a t := ends_run hhost hsizes e a s
  constructor
  · intro hsilent
    obtain ⟨message, hobstacle, houtput, hnotes⟩ | ⟨hnone, o, listed, -, -, houtput, hnotes⟩ :=
      hends.quiet hsizes (by omega)
    · exact ⟨houtput, by rw [hnotes, hobstacle]; rfl⟩
    · rw [houtput, hnotes, hnone, hsilent]
      exact ⟨rfl, rfl⟩
  · intro hquiet
    obtain ⟨message, hobstacle, hprinted⟩ | ⟨hnone, o, listed, hoptions, hinputs, hprinted⟩ :=
      hends.quiet hsizes (by omega)
    · refine ⟨fun message' hmessage => ?_, fun hnone => ?_⟩
      · obtain rfl := Option.some.inj (hobstacle.symm.trans hmessage)
        exact hprinted
      · exact nomatch hobstacle.symm.trans hnone
    · refine ⟨fun message hmessage => ?_, fun _ => ⟨o, listed, hoptions, hinputs, ?_⟩⟩
      · exact nomatch hnone.symm.trans hmessage
      · rw [hquiet] at hprinted
        exact hprinted

/-! ### One file -/

def single (name : String) (bytes : Array UInt8) : Files where
  isDirectory _ := false
  filesBelow path := .ok [path]
  read path := if path = name then .ok bytes else .error .notFound

theorem addressable_single {name : String} {bytes : Array UInt8} (h : bytes.size ≤ maxCounter) :
    (single name bytes).Addressable := by
  intro path found hread
  simp only [single] at hread
  split at hread
  · obtain rfl := Except.ok.inj hread
    exact h
  · cases hread

/-- A file that is there and one that is not, at level 1; and a block size that is refused, at
level 0. -/
theorem run_quiet_missing :
    let files := single "kept" #[1, 2, 3, 1, 2]
    let host := files.ticking 4 1000
    let a : Arguments := { paths := ["kept", "gone"], quiet := 1 }
    let b : Arguments := { paths := ["kept"], blockSize := some 1, quiet := 2 }
    let t := ((run host ⟨none, none⟩ a).run 0).1
    let u := ((run host ⟨none, none⟩ b).run 0).1
    (host.Serves files ∧ files.Addressable ∧ a.displayLevel = 1 ∧ b.displayLevel = 0 ∧
        files.obstacle? ⟨none, none⟩ a = none) ∧
      (∃ report, t.output = [Run.lineOf ("kept", report)]) ∧
      t.notes = ["lzmatch: gone: cannot read: No such file or directory (os error 2)"] ∧
      u.output = [] ∧ u.notes = ["lzmatch: block size 1 is out of range"] := by
  intro files host a b t u
  have hserves : host.Serves files := serves_ticking files 4 1000
  have hsizes : files.Addressable := addressable_single (by decide)
  have hstarts : files.obstacle? ⟨none, none⟩ a = none := rfl
  have hrefused : (files.obstacle? ⟨none, none⟩ b).map Run.errorLine =
      some "lzmatch: block size 1 is out of range" := by
    decide +kernel
  have hkept : files.read "kept" = .ok #[1, 2, 3, 1, 2] := rfl
  have hgone : files.read "gone" = .error .notFound := rfl
  obtain ⟨-, hquiet⟩ := run_quiet hserves hsizes ⟨none, none⟩ a 0
  obtain ⟨hsilent, -⟩ := run_quiet hserves hsizes ⟨none, none⟩ b 0
  obtain ⟨o, listed, hoptions, hinputs, houtput, hnotes⟩ := (hquiet rfl).2 hstarts
  obtain rfl : ["kept", "gone"] = listed := Except.ok.inj hinputs
  rw [hrefused] at hsilent
  refine ⟨⟨hserves, hsizes, rfl, rfl, hstarts⟩, ?_, ?_, hsilent rfl⟩
  · have ho : o.Accepted := Arguments.accepted_of_scanOptions hoptions
    rw [scans_cons_of_ok hsizes ho hkept, scans_cons_of_error hgone] at houtput
    exact ⟨_, houtput⟩
  · rw [readErrors_cons_of_ok hkept, readErrors_cons_of_error hgone] at hnotes
    exact hnotes

/-- Level 1 is not without output, nor is level 0 without notes. -/
theorem quiet_run_not_silent :
    let files := single "f" #[97, 98, 99]
    let host := files.ticking 1 0
    let a : Arguments := { paths := ["f"], quiet := 1 }
    let b : Arguments := { paths := ["f"], blockSize := some 1, quiet := 2 }
    (Arguments.read ["-q", "f"] = .ok a ∧ a.displayLevel = 1 ∧
        ((run host ⟨none, none⟩ a).run 0).1.output ≠ []) ∧
      Arguments.read ["-qq", "-B", "1", "f"] = .ok b ∧ b.displayLevel = 0 ∧
        ((run host ⟨none, none⟩ b).run 0).1.notes ≠ [] := by
  intro files host a b
  have hserves : host.Serves files := serves_ticking files 1 0
  have hsizes : files.Addressable := addressable_single (by decide)
  have hread : files.read "f" = .ok #[97, 98, 99] := rfl
  refine ⟨⟨by decide, rfl, ?_⟩, by decide, rfl, List.cons_ne_nil _ _⟩
  obtain ⟨message, hobstacle, -⟩ | ⟨-, o, listed, hoptions, hinputs, houtput, -⟩ :=
    (ends_run hserves hsizes ⟨none, none⟩ a 0).quiet hsizes (Nat.le_refl 1)
  · have hstarts : files.obstacle? ⟨none, none⟩ a = none := rfl
    exact nomatch hstarts.symm.trans hobstacle
  · obtain rfl : ["f"] = listed := Except.ok.inj hinputs
    have ho : o.Accepted := Arguments.accepted_of_scanOptions hoptions
    rw [houtput, scans_cons_of_ok hsizes ho hread]
    exact List.cons_ne_nil _ _

end Files

end Backref
