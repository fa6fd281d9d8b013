/-
# A file that cannot be read fails the run and changes nothing else

What a run prints is put together from one part for each file, in the order of the files, and
the totals. The part of a file hangs on that file only: one line if it can be read, the line
of scanning it by itself, and one error if it cannot. So the run fails exactly if the block
size is refused, the inputs stand for no files, or one of these cannot be read; and the totals
are those of the files that can.

Key definitions: `Run.reports`, `Run.lineOf`, `Files.Readable`, `Files.scans`, `Files.Noted`.
Key theorems: `Transcript.exitCode_foldr_le_iff`, `Run.output_transcript`,
`Run.notes_transcript`, `Run.exitCode_transcript`, `Files.reports_eq_scans`,
`Files.run_outcome`.
-/
import Mathlib.Algebra.GroupWithZero.Nat
import Backref.Proofs.StillFiles

namespace Backref

/-! ### Transcripts put together -/

namespace Transcript

theorem output_foldr (parts : List Transcript) (last : Transcript) :
    (parts.foldr (· ++ ·) last).output = parts.flatMap (·.output) ++ last.output := by
  induction parts with
  | nil => rfl
  | cons t rest ih =>
    rw [List.foldr_cons, append_output, ih, List.flatMap_cons, List.append_assoc]

theorem notes_foldr (parts : List Transcript) (last : Transcript) :
    (parts.foldr (· ++ ·) last).notes = parts.flatMap (·.notes) ++ last.notes := by
  induction parts with
  | nil => rfl
  | cons t rest ih =>
    rw [List.foldr_cons, append_notes, ih, List.flatMap_cons, List.append_assoc]

theorem exitCode_append (s t : Transcript) : (s ++ t).exitCode = max s.exitCode t.exitCode := rfl

/-- The exit code is the greatest of the parts. -/
theorem exitCode_foldr_le_iff {parts : List Transcript} {last : Transcript} {n : Nat} :
    (parts.foldr (· ++ ·) last).exitCode ≤ n ↔
      (∀ t ∈ parts, t.exitCode ≤ n) ∧ last.exitCode ≤ n := by
  induction parts with
  | nil => simp
  | cons t rest ih =>
    rw [List.foldr_cons, exitCode_append, Nat.max_le, ih, List.forall_mem_cons, and_assoc]

end Transcript

/-! ### What a run prints about its results -/

namespace Run

/-- The files that were scanned, and what was found, in order. -/
def reports (results : List (String × FileResult)) : List (String × Scan) :=
  results.filterMap fun (path, result) => result.toOption.map fun (report, _) => (path, report)

def lineOf : String × Scan → String
  | (path, report) =>
    Report.fileLine path report.bytes report.blockCount report.stats report.verified

variable {display size : Nat}

theorem transcript_eq (results : List (String × FileResult)) :
    transcript display size results =
      (results.map fun r => fileTranscript display size r.1 r.2).foldr (· ++ ·)
        (totals display (results.map (·.2))) := rfl

theorem flatMap_output (hdisplay : 1 ≤ display) (results : List (String × FileResult)) :
    (results.flatMap fun r => (fileTranscript display size r.1 r.2).output) =
      (reports results).map lineOf := by
  induction results with
  | nil => rfl
  | cons r rest ih =>
    obtain ⟨path, result⟩ := r
    rw [List.flatMap_cons, ih]
    cases result with
    | error e => rfl
    | ok found =>
      show atLevel display 1 [lineOf (path, found.1)] ++ _ = _
      rw [atLevel, if_pos hdisplay]
      rfl

theorem output_transcript (hdisplay : 1 ≤ display) (results : List (String × FileResult)) :
    (transcript display size results).output = (reports results).map lineOf := by
  rw [transcript_eq, Transcript.output_foldr, List.flatMap_map, flatMap_output hdisplay]
  exact List.append_nil _

theorem scanned_eq (results : List (String × FileResult)) :
    scanned (results.map (·.2)) = (reports results).map (·.2) := by
  induction results with
  | nil => rfl
  | cons r rest ih =>
    obtain ⟨path, result⟩ := r
    cases result with
    | error e => exact ih
    | ok found => exact congrArg (found.1 :: ·) ih

/-- The totals are those of the files that were scanned. -/
theorem notes_totals (display : Nat) (results : List (String × FileResult)) :
    (totals display (results.map (·.2))).notes =
      if 1 < results.length then
        atLevel display 2 [Report.totalLine (reports results).length
          ((reports results).map (·.2.bytes)).sum
          ((reports results).map (·.2.stats.copiedBytes)).sum]
      else [] := by
  have hsum (f : Scan → Nat) : ((reports results).map (·.2)).foldl (fun sum r => sum + f r) 0 =
      ((reports results).map fun r => f r.2).sum := by
    rw [List.sum_eq_foldl, List.foldl_map, List.foldl_map]
  simp only [totals, scanned_eq, List.length_map, hsum]
  split
  · next hle => rw [if_neg (Nat.not_lt.mpr hle)]
  · next hlt => rw [if_pos (Nat.lt_of_not_le hlt)]

theorem notes_transcript (results : List (String × FileResult)) :
    (transcript display size results).notes =
      (results.map fun r => (fileTranscript display size r.1 r.2).notes).flatten ++
        (totals display (results.map (·.2))).notes := by
  rw [transcript_eq, Transcript.notes_foldr, List.flatMap_map, List.flatMap_def]

/-- The exit code is zero or one, and one exactly if a file was not scanned. -/
theorem exitCode_transcript (results : List (String × FileResult)) :
    (transcript display size results).exitCode ≤ 1 ∧
      ((transcript display size results).exitCode = 0 ↔ ∀ r ∈ results, r.2.isOk) := by
  have hcode (r : String × FileResult) : (fileTranscript display size r.1 r.2).exitCode ≤ 1 ∧
      ((fileTranscript display size r.1 r.2).exitCode ≤ 0 ↔ r.2.isOk) := by
    obtain ⟨path, result⟩ := r
    cases result with
    | error e => exact ⟨Nat.le_refl 1, by simp [fileTranscript, Except.isOk, Except.toBool]⟩
    | ok found => exact ⟨Nat.zero_le 1, by simp [fileTranscript, Except.isOk, Except.toBool]⟩
  -- the totals never fail, so a bound on the run is a bound on each file
  have hle {n : Nat} : (transcript display size results).exitCode ≤ n ↔
      ∀ r ∈ results, (fileTranscript display size r.1 r.2).exitCode ≤ n := by
    rw [transcript_eq, Transcript.exitCode_foldr_le_iff, List.forall_mem_map]
    exact and_iff_left (Nat.zero_le n)
  constructor
  · exact hle.mpr fun r _ => (hcode r).1
  · rw [← Nat.le_zero, hle]
    exact forall₂_congr fun r _ => (hcode r).2

end Run

/-! ### What the files decide -/

namespace Files

variable {σ : Type} {host : Host (StateM σ)} {files : Files} {o : Scan.Options}
  {listed : List String} {results : List (String × Run.FileResult)}

def Readable (files : Files) (path : String) : Prop := ∃ bytes, files.read path = .ok bytes

/-- The files that can be read, in order, each with the scan of its bytes alone. -/
def scans (files : Files) (o : Scan.Options) (listed : List String) : List (String × Scan) :=
  listed.filterMap fun path =>
    match files.read path with
    | .error _ => none
    | .ok bytes => (scan bytes o).toOption.map fun report => (path, report)

/-- What is noted about one file, if errors are shown: one error if it cannot be read, and no
error if it can. -/
inductive Noted (files : Files) (display : Nat) (o : Scan.Options) :
    String → List String → Prop
  | unreadable {path : String} {cause : FileError} (hread : files.read path = .error cause) :
    Noted files display o path [Run.errorLine (FileScanError.unreadable path cause).message]
  | scanned {path : String} {bytes : Array UInt8} {report : Scan} {elapsed : Elapsed}
    (hread : files.read path = .ok bytes) (hscan : scan bytes o = .ok report) :
    Noted files display o path
      (Run.atLevel display 4 (Run.blockLines o.blockSize report) ++
        Run.atLevel display 3 [Report.detailLine report.bytes report.stats elapsed])

theorem scans_cons_of_error {path : String} {cause : FileError}
    (hread : files.read path = .error cause) :
    files.scans o (path :: listed) = files.scans o listed := by
  simp only [scans, List.filterMap_cons, hread]

theorem scans_cons_of_ok (hsizes : files.Addressable) (ho : o.Accepted) {path : String}
    {bytes : Array UInt8} (hread : files.read path = .ok bytes) :
    files.scans o (path :: listed) = (path, Scan.found o bytes) :: files.scans o listed := by
  have hscan := Scan.scan_eq_ok ho (hsizes path bytes hread)
  simp only [scans, List.filterMap_cons, hread, hscan]
  rfl

/-- **Each report is that of its file scanned alone**, and there is one for each file that can
be read. -/
theorem reports_eq_scans (hsizes : files.Addressable) (ho : o.Accepted)
    (h : List.Forall₂ (files.Gives o) listed results) :
    Run.reports results = files.scans o listed := by
  induction h with
  | nil => rfl
  | cons hfirst _ ih =>
    cases hfirst with
    | unreadable hread => rw [scans_cons_of_error hread, ← ih]; rfl
    | scanned hread => rw [scans_cons_of_ok hsizes ho hread, ← ih]; rfl

theorem map_scans (hsizes : files.Addressable) (ho : o.Accepted) (listed : List String) :
    (files.scans o listed).map (fun r => (r.1, r.2.bytes)) =
      listed.filterMap fun path =>
        (files.read path).toOption.map fun bytes => (path, bytes.size) := by
  induction listed with
  | nil => rfl
  | cons path rest ih =>
    cases hread : files.read path with
    | error cause =>
      rw [scans_cons_of_error hread, ih, List.filterMap_cons_none (by rw [hread]; rfl)]
    | ok bytes =>
      rw [scans_cons_of_ok hsizes ho hread, List.map_cons, ih,
        List.filterMap_cons_some (by rw [hread]; rfl)]
      rfl

theorem forall_isOk_iff (h : List.Forall₂ (files.Gives o) listed results) :
    (∀ r ∈ results, r.2.isOk) ↔ ∀ path ∈ listed, files.Readable path := by
  induction h with
  | nil => simp
  | cons hfirst _ ih =>
    rw [List.forall_mem_cons, List.forall_mem_cons, ih]
    cases hfirst with
    | unreadable hread => simp [Readable, hread, Except.isOk, Except.toBool]
    | scanned hread => simp [Readable, hread, Except.isOk, Except.toBool]

theorem Gives.noted (hsizes : files.Addressable) (ho : o.Accepted) {display : Nat}
    (hdisplay : 1 ≤ display) {path : String} {r : String × Run.FileResult}
    (h : files.Gives o path r) :
    files.Noted display o path (Run.fileTranscript display o.blockSize r.1 r.2).notes := by
  cases h with
  | unreadable hread =>
    show files.Noted display o path (Run.atLevel display 1 [Run.errorLine _])
    rw [Run.atLevel, if_pos hdisplay]
    exact .unreadable hread
  | scanned hread => exact .scanned hread (Scan.scan_eq_ok ho (hsizes path _ hread))

theorem noted_results (hsizes : files.Addressable) (ho : o.Accepted) {display : Nat}
    (hdisplay : 1 ≤ display) (h : List.Forall₂ (files.Gives o) listed results) :
    List.Forall₂ (files.Noted display o) listed
      (results.map fun r => (Run.fileTranscript display o.blockSize r.1 r.2).notes) := by
  rw [List.forall₂_map_right_iff]
  exact h.imp fun _ _ hgives => hgives.noted hsizes ho hdisplay

/-! ### The whole run -/

/-- The inputs stand for some files, and each of these can be read. -/
def Complete (files : Files) (a : Arguments) : Prop :=
  ∃ listed, files.inputs a.recursive a.paths = .ok listed ∧ listed ≠ [] ∧
    ∀ path ∈ listed, files.Readable path

variable {a : Arguments} {e : Environment} {t : Transcript}

/-- What is printed before the files are listed cannot fail the run. -/
theorem exitCode_after (ws : List Warning) (display cores : Nat) (o : Scan.Options)
    (rest : Transcript) :
    (Run.warnings display ws ++ Run.opening display cores o ++ rest).exitCode = rest.exitCode :=
  Nat.zero_max rest.exitCode

/-- **The exit code is zero or one, and zero exactly if the block size is accepted and the
inputs stand for files that can be read.** -/
theorem Ends.exitCode (h : files.Ends e a t) (ha : a.InRange) :
    t.exitCode ≤ 1 ∧
      (t.exitCode = 0 ↔
        blockSizeLimits.Admits a.blockSizeOrStandard ∧ files.Complete a) := by
  have hfailed {P : Prop} (hP : ¬P) : 1 ≤ 1 ∧ (1 = 0 ↔ P) :=
    ⟨Nat.le_refl 1, iff_of_false Nat.one_ne_zero hP⟩
  cases h with
  | refused hoptions =>
    refine hfailed fun ⟨hsize, _⟩ => ?_
    obtain ⟨o, ho⟩ := (Arguments.exists_scanOptions_iff ha e).mpr hsize
    exact nomatch ho.symm.trans hoptions
  | unlisted hoptions hinputs =>
    refine hfailed fun ⟨_, listed, hlisted, _⟩ => ?_
    exact nomatch hlisted.symm.trans hinputs
  | empty hoptions hinputs =>
    refine hfailed fun ⟨_, listed, hlisted, hne, _⟩ => ?_
    exact hne (Except.ok.inj (hlisted.symm.trans hinputs))
  | scanned hoptions hinputs hlisted hresults =>
    have hsize := (Arguments.exists_scanOptions_iff ha e).mp ⟨_, hoptions⟩
    obtain ⟨hle, hzero⟩ := Run.exitCode_transcript _
    rw [exitCode_after, hzero, forall_isOk_iff hresults]
    refine ⟨hle, fun hread => ⟨hsize, _, hinputs, hlisted, hread⟩, ?_⟩
    rintro ⟨-, listed, hlisted', -, hread⟩
    obtain rfl := Except.ok.inj (hinputs.symm.trans hlisted')
    exact hread

/-- A run that scans nothing has no output. -/
theorem Ends.output_eq_nil (h : files.Ends e a t) (ha : a.InRange)
    (hnothing : ¬blockSizeLimits.Admits a.blockSizeOrStandard ∨
      (∃ cause, files.inputs a.recursive a.paths = .error cause) ∨
      files.inputs a.recursive a.paths = .ok []) :
    t.output = [] := by
  cases h with
  | refused | unlisted | empty => rfl
  | scanned hoptions hinputs hlisted hresults =>
    have hsize := (Arguments.exists_scanOptions_iff ha e).mp ⟨_, hoptions⟩
    obtain hrefused | ⟨cause, herror⟩ | hempty := hnothing
    · exact absurd hsize hrefused
    · exact nomatch hinputs.symm.trans herror
    · exact absurd (Except.ok.inj (hinputs.symm.trans hempty)) hlisted

/-- A run that scans files prints the parts of the files and the totals. -/
theorem Ends.parts (h : files.Ends e a t) (ha : a.InRange) (hsizes : files.Addressable)
    (hsize : blockSizeLimits.Admits a.blockSizeOrStandard)
    (hinputs : files.inputs a.recursive a.paths = .ok listed) (hlisted : listed ≠ [])
    (hdisplay : 1 ≤ a.displayLevel) :
    ∃ (o : Scan.Options) (cores : Nat) (noted : List (List String)),
      a.scanOptions e = .ok o ∧
      t.output = (files.scans o listed).map Run.lineOf ∧
      (files.scans o listed).map (fun r => (r.1, r.2.bytes)) =
        (listed.filterMap fun path =>
          (files.read path).toOption.map fun bytes => (path, bytes.size)) ∧
      List.Forall₂ (files.Noted a.displayLevel o) listed noted ∧
      t.notes = (Run.warnings a.displayLevel (a.warnings e)).notes ++
        (Run.opening a.displayLevel cores o).notes ++ noted.flatten ++
        if 1 < listed.length then
          Run.atLevel a.displayLevel 2 [Report.totalLine (files.scans o listed).length
            ((files.scans o listed).map (·.2.bytes)).sum
            ((files.scans o listed).map (·.2.stats.copiedBytes)).sum]
        else [] := by
  cases h with
  | refused hoptions =>
    obtain ⟨o, ho⟩ := (Arguments.exists_scanOptions_iff ha e).mpr hsize
    exact nomatch ho.symm.trans hoptions
  | unlisted hoptions hinputs' => exact nomatch hinputs.symm.trans hinputs'
  | empty hoptions hinputs' =>
    exact absurd (Except.ok.inj (hinputs.symm.trans hinputs')) hlisted
  | @scanned o cores listed' results hoptions hinputs' _ hresults =>
    obtain rfl := Except.ok.inj (hinputs.symm.trans hinputs')
    have ho : o.Accepted := Arguments.accepted_of_scanOptions hoptions
    have hreports := reports_eq_scans hsizes ho hresults
    refine ⟨o, cores, _, hoptions, ?_, map_scans hsizes ho listed,
      noted_results hsizes ho hdisplay hresults, ?_⟩
    · rw [← hreports]
      exact Run.output_transcript hdisplay results
    · rw [Transcript.append_notes, Transcript.append_notes, Run.notes_transcript,
        Run.notes_totals, hreports, hresults.length_eq]
      simp only [List.append_assoc]

/-- **A file that cannot be read fails the run and changes nothing else.** The run exits with
zero exactly if the block size is in its range, the inputs can be listed and stand for at
least one file, and every one of these can be read, and with one otherwise. If it scans
nothing, it has no output. If it scans files and shows errors, its output is one line for each
file that can be read, the line of scanning that file alone; it notes one error for each file
that cannot. If it was given more than one, a last line shows the number of those that can be
read, the size of their bytes together, and the share of these that copies cover. -/
theorem run_outcome (hhost : host.Serves files) (hsizes : files.Addressable)
    {arguments : List String} (ha : Arguments.read arguments = .ok a) (e : Environment) (s : σ) :
    let t := ((run host e a).run s).1
    let inputs := files.inputs a.recursive a.paths
    let sized := 4096 ≤ a.blockSizeOrStandard ∧ a.blockSizeOrStandard ≤ 2 ^ 32 - 1 - 16
    let complete := sized ∧ ∃ listed, inputs = .ok listed ∧ listed ≠ [] ∧
      ∀ path ∈ listed, ∃ bytes, files.read path = .ok bytes
    (t.exitCode = 0 ↔ complete) ∧ (¬complete → t.exitCode = 1) ∧
    (¬sized ∨ (∃ cause, inputs = .error cause) ∨ inputs = .ok [] → t.output = []) ∧
    ∀ listed, sized → inputs = .ok listed → listed ≠ [] → 1 ≤ a.displayLevel →
      ∃ (o : Scan.Options) (cores : Nat) (noted : List (List String)),
        a.scanOptions e = .ok o ∧
        t.output = (files.scans o listed).map Run.lineOf ∧
        (files.scans o listed).map (fun r => (r.1, r.2.bytes)) =
          (listed.filterMap fun path =>
            (files.read path).toOption.map fun bytes => (path, bytes.size)) ∧
        List.Forall₂ (files.Noted a.displayLevel o) listed noted ∧
        t.notes = (Run.warnings a.displayLevel (a.warnings e)).notes ++
          (Run.opening a.displayLevel cores o).notes ++ noted.flatten ++
          if 1 < listed.length then
            Run.atLevel a.displayLevel 2 [
              toString (files.scans o listed).length ++ " files, " ++
                Size.render ((files.scans o listed).map (·.2.bytes)).sum ++ " total, " ++
                (Stats.percent ((files.scans o listed).map (·.2.stats.copiedBytes)).sum
                  ((files.scans o listed).map (·.2.bytes)).sum).fixed 1 ++ "% matched"]
          else [] := by
  intro t inputs sized complete
  have hrange : a.InRange := Arguments.inRange_of_read ha
  have hends : files.Ends e a t := ends_run hhost hsizes e a s
  obtain ⟨hle, hzero⟩ := hends.exitCode hrange
  refine ⟨hzero, fun hfailed => ?_, hends.output_eq_nil hrange, ?_⟩
  · have hne : t.exitCode ≠ 0 := fun h => hfailed (hzero.mp h)
    omega
  · intro listed hsize hinputs hlisted hdisplay
    exact hends.parts hrange hsizes hsize hinputs hlisted hdisplay

/-- A file that is there and one that is not: the run fails, shows the line of the first, and
sums up the first alone. -/
theorem run_outcome_missing :
    let files : Files :=
      { isDirectory := fun _ => false
        filesBelow := fun path => .ok [path]
        read := fun path => if path = "kept" then .ok #[1, 2, 3, 1, 2] else .error .notFound }
    let host := files.ticking 4 1000
    let a : Arguments := { paths := ["kept", "gone"] }
    let t := ((run host ⟨none, none⟩ a).run 0).1
    host.Serves files ∧ files.Addressable ∧ Arguments.read ["kept", "gone"] = .ok a ∧
      t.exitCode = 1 ∧ (∃ report, t.output = [Run.lineOf ("kept", report)] ∧ report.bytes = 5) ∧
      ∃ share, t.notes.getLast? = some ("1 files, 5 B total, " ++ share ++ "% matched") := by
  intro files host a t
  have hserves : host.Serves files := serves_ticking files 4 1000
  have hsizes : files.Addressable := by
    intro path bytes hread
    simp only [files] at hread
    split at hread
    · obtain rfl := Except.ok.inj hread
      decide
    · cases hread
  have ha : Arguments.read ["kept", "gone"] = .ok a := by decide
  have hinputs : files.inputs a.recursive a.paths = .ok ["kept", "gone"] := rfl
  have hkept : files.read "kept" = .ok #[1, 2, 3, 1, 2] := rfl
  have hgone : files.read "gone" = .error .notFound := rfl
  obtain ⟨-, hfailed, -, hscanned⟩ := run_outcome hserves hsizes ha ⟨none, none⟩ 0
  refine ⟨hserves, hsizes, ha, hfailed ?_, ?_⟩
  · rintro ⟨-, listed, hlisted, -, hread⟩
    obtain rfl := Except.ok.inj (hinputs.symm.trans hlisted)
    obtain ⟨bytes, hbytes⟩ := hread "gone" (by decide)
    exact nomatch hgone.symm.trans hbytes
  · obtain ⟨o, _, _, hoptions, houtput, -, -, hnotes⟩ :=
      hscanned ["kept", "gone"] (by decide) hinputs (by decide) (by decide)
    have ho : o.Accepted := Arguments.accepted_of_scanOptions hoptions
    have hscans : files.scans o ["kept", "gone"] = [("kept", Scan.found o #[1, 2, 3, 1, 2])] := by
      rw [scans_cons_of_ok hsizes ho hkept, scans_cons_of_error hgone]
      rfl
    rw [hscans] at houtput hnotes
    refine ⟨⟨Scan.found o #[1, 2, 3, 1, 2], houtput, rfl⟩,
      (Stats.percent (Scan.found o #[1, 2, 3, 1, 2]).stats.copiedBytes 5).fixed 1, ?_⟩
    have hstart : toString 1 ++ " files, " ++ Size.render 5 ++ " total, " =
        "1 files, 5 B total, " := rfl
    rw [hnotes, if_pos (by decide), ← hstart]
    exact List.getLast?_concat

end Files

end Backref
