/-
# A run is settled by what the files answer

A run asks a machine about paths, the number of cores and the time. Where the files always
give the same answers, whatever was asked before, the inputs stand for one list of files, and
what becomes of a file depends on its own bytes only: it cannot be read, or it is scanned, for
a scan with accepted settings cannot fail. The clock decides no more than how long that took.
So there are four ways a run can end.

Key definitions: `Files`, `Files.Addressable`, `Host.Serves`, `Files.inputs`, `Files.Gives`,
`Files.Ends`.
Key theorems: `FileTree.mem_of_read`, `Files.expandInputs_eq`, `Files.gives_scanFiles`,
`Files.ends_run`.
-/
import Mathlib.Data.List.Forall2
import Backref.CommandLine.Run
import Backref.Files.Tree
import Backref.Proofs.DeclaredRanges

namespace Backref

/-- What the files of a machine answer, as long as nothing changes them. -/
structure Files where
  isDirectory : String → Bool
  filesBelow : String → Except PathError (List String)
  read : String → Except FileError (Array UInt8)

def FileTree.files (t : FileTree) : Files := ⟨t.isDirectory, t.filesBelow, t.read⟩

/-- Sizes are 64-bit numbers. -/
def Files.Addressable (files : Files) : Prop :=
  ∀ path bytes, files.read path = .ok bytes → bytes.size ≤ maxCounter

/-! ### Trees -/

def Entry.bytes? : Entry → Option (Array UInt8)
  | .file bytes | .device bytes => some bytes
  | .directory | .link _ => none

namespace FileTree

variable {t : FileTree} {entry : Entry}

theorem mem_of_lookup {here : List String} (h : t.lookup here = some entry) :
    entry = .directory ∨ ∃ named ∈ t.entries, named.2 = entry := by
  unfold lookup at h
  split at h
  · exact .inl (Option.some.inj h).symm
  · obtain ⟨named, hfind, hnamed⟩ := Option.map_eq_some_iff.mp h
    exact .inr ⟨named, List.mem_of_find?_eq_some hfind, hnamed⟩

theorem mem_of_find {path : String} (h : t.find path = .ok entry) :
    entry = .directory ∨ ∃ named ∈ t.entries, named.2 = entry := by
  unfold find at h
  split at h
  · cases h
  · split at h
    · cases h
    · next hlookup => exact mem_of_lookup (Except.ok.inj h ▸ hlookup)

/-- What is read from a tree are the bytes of one of its entries. -/
theorem mem_of_read {path : String} {bytes : Array UInt8} (h : t.read path = .ok bytes) :
    ∃ named ∈ t.entries, named.2.bytes? = some bytes := by
  have hentry {found : Entry} (hfind : t.find path = .ok found)
      (hbytes : found.bytes? = some bytes) : ∃ named ∈ t.entries, named.2.bytes? = some bytes := by
    obtain rfl | ⟨named, hmem, rfl⟩ := mem_of_find hfind
    · cases hbytes
    · exact ⟨named, hmem, hbytes⟩
  unfold read at h
  split at h
  · next hfile => exact hentry hfile (congrArg some (Except.ok.inj h))
  · next hdevice => exact hentry hdevice (congrArg some (Except.ok.inj h))
  · cases h
  · cases h
  · cases h

theorem addressable_files (h : ∀ named ∈ t.entries, ∀ bytes ∈ named.2.bytes?,
    bytes.size ≤ maxCounter) : t.files.Addressable := by
  intro path bytes hread
  obtain ⟨named, hmem, hbytes⟩ := mem_of_read hread
  exact h named hmem bytes hbytes

end FileTree

/-! ### Machines -/

/-- The machine has these files. Its cores and its clock may be anything. -/
structure Host.Serves {m : Type → Type} [Monad m] (host : Host m) (files : Files) : Prop where
  isDirectory : ∀ path, host.isDirectory path = pure (files.isDirectory path)
  filesBelow : ∀ path, host.filesBelow path = pure (files.filesBelow path)
  read : ∀ path, host.read path = pure (files.read path)

namespace Files

def host (files : Files) : Host Id where
  isDirectory := files.isDirectory
  filesBelow := files.filesBelow
  read := files.read
  cores := (1 : Nat)
  clock := (0 : Nat)

theorem serves_host (files : Files) : files.host.Serves files :=
  ⟨fun _ => rfl, fun _ => rfl, fun _ => rfl⟩

theorem serves_tree (t : FileTree) (cores : Nat) : (t.host cores).Serves t.files :=
  ⟨fun _ => rfl, fun _ => rfl, fun _ => rfl⟩

/-- A machine with these files, so many cores, and a clock that goes on by `tick` nanoseconds
whenever it is read. -/
def ticking (files : Files) (cores tick : Nat) : Host (StateM Nat) where
  isDirectory path := pure (files.isDirectory path)
  filesBelow path := pure (files.filesBelow path)
  read path := pure (files.read path)
  cores := pure cores
  clock := modifyGet fun now => (now, now + tick)

theorem serves_ticking (files : Files) (cores tick : Nat) :
    (files.ticking cores tick).Serves files :=
  ⟨fun _ => rfl, fun _ => rfl, fun _ => rfl⟩

def inputs (files : Files) (recursive : Bool) (paths : List String) :
    Except InputError (List String) :=
  (expandInputs files.host recursive paths).run

/-! ### Any machine with the same files -/

section Monads

variable {m : Type → Type} [Monad m] [LawfulMonad m] {host : Host m} {files : Files}

theorem expandInput_eq (h : host.Serves files) (recursive : Bool) (path : String) :
    expandInput host recursive path = pure (expandInput files.host recursive path).run := by
  unfold expandInput listFiles
  rw [h.isDirectory, h.filesBelow, pure_bind, files.serves_host.isDirectory,
    files.serves_host.filesBelow, pure_bind]
  cases files.isDirectory path with
  | false => rfl
  | true =>
    cases recursive with
    | false => rfl
    | true => cases files.filesBelow path <;> simp

/-- **Every machine with these files lists the same inputs.** -/
theorem expandInputs_eq (h : host.Serves files) (recursive : Bool) (paths : List String) :
    expandInputs host recursive paths = pure (files.inputs recursive paths) := by
  unfold inputs
  induction paths with
  | nil => rfl
  | cons path rest ih =>
    rw [expandInputs, expandInput_eq h, pure_bind, expandInputs]
    cases hfirst : (expandInput files.host recursive path).run with
    | error e => simp [hfirst]
    | ok listed =>
      simp only [ih, pure_bind, Id.run_bind, hfirst]
      cases (expandInputs files.host recursive rest).run <;> rfl

theorem scanFile_of_error (h : host.Serves files) {path : String} {cause : FileError}
    (hread : files.read path = .error cause) (o : Scan.Options) :
    scanFile host o path = pure (.error (.unreadable path cause)) := by
  rw [scanFile, h.read, hread, pure_bind]

/-- A file that can be read is scanned, and the clock is read before and after. -/
theorem scanFile_of_ok (h : host.Serves files) {path : String} {bytes : Array UInt8}
    (hread : files.read path = .ok bytes) {o : Scan.Options} (ho : o.Accepted)
    (hsize : bytes.size ≤ maxCounter) :
    scanFile host o path = do
      let before ← host.clock
      let after ← host.clock
      return .ok (Scan.found o bytes, .ofNanoseconds (after - before)) := by
  rw [scanFile, h.read, hread, pure_bind]
  simp only [Scan.scan_eq_ok ho hsize]

end Monads

/-! ### What becomes of the files -/

variable {σ : Type} {host : Host (StateM σ)} {files : Files}

/-- What scanning a file can give: that it cannot be read, or what its bytes hold, after some
time. -/
inductive Gives (files : Files) (o : Scan.Options) : String → String × Run.FileResult → Prop
  | unreadable {path : String} {cause : FileError} (hread : files.read path = .error cause) :
    Gives files o path (path, .error (.unreadable path cause))
  | scanned {path : String} {bytes : Array UInt8} {elapsed : Elapsed}
    (hread : files.read path = .ok bytes) :
    Gives files o path (path, .ok (Scan.found o bytes, elapsed))

theorem gives_scanFile (h : host.Serves files) (hsizes : files.Addressable) {o : Scan.Options}
    (ho : o.Accepted) (path : String) (s : σ) :
    files.Gives o path (path, ((scanFile host o path).run s).1) := by
  cases hread : files.read path with
  | error cause =>
    rw [scanFile_of_error h hread]
    exact .unreadable hread
  | ok bytes =>
    rw [scanFile_of_ok h hread ho (hsizes path bytes hread)]
    exact .scanned hread

/-- **What becomes of a file hangs on its own bytes**, not on the files before it. -/
theorem gives_scanFiles (h : host.Serves files) (hsizes : files.Addressable) {o : Scan.Options}
    (ho : o.Accepted) (paths : List String) (s : σ) :
    List.Forall₂ (files.Gives o) paths ((Run.scanFiles host o paths).run s).1 := by
  -- the files before leave the machine in any state, which is why it is generalized
  induction paths generalizing s with
  | nil => exact .nil
  | cons path rest ih => exact .cons (gives_scanFile h hsizes ho path s) (ih _)

/-! ### The ways a run can end -/

/-- How a run with these files can end. -/
inductive Ends (files : Files) (e : Environment) (a : Arguments) : Transcript → Prop
  | refused {cause : ConfigError} (hoptions : a.scanOptions e = .error cause) :
    Ends files e a (Run.warnings a.displayLevel (a.warnings e) ++ Run.failure cause.message)
  | unlisted {o : Scan.Options} {cores : Nat} {cause : InputError}
    (hoptions : a.scanOptions e = .ok o)
    (hinputs : files.inputs a.recursive a.paths = .error cause) :
    Ends files e a (Run.warnings a.displayLevel (a.warnings e) ++
      Run.opening a.displayLevel cores o ++ Run.failure cause.message)
  | empty {o : Scan.Options} {cores : Nat} (hoptions : a.scanOptions e = .ok o)
    (hinputs : files.inputs a.recursive a.paths = .ok []) :
    Ends files e a (Run.warnings a.displayLevel (a.warnings e) ++
      Run.opening a.displayLevel cores o ++ Run.failure "no input files")
  | scanned {o : Scan.Options} {cores : Nat} {listed : List String}
    {results : List (String × Run.FileResult)} (hoptions : a.scanOptions e = .ok o)
    (hinputs : files.inputs a.recursive a.paths = .ok listed) (hlisted : listed ≠ [])
    (hresults : List.Forall₂ (files.Gives o) listed results) :
    Ends files e a (Run.warnings a.displayLevel (a.warnings e) ++
      Run.opening a.displayLevel cores o ++
      Run.transcript a.displayLevel o.blockSize results)

/-- **A run ends in one of these ways.** -/
theorem ends_run (h : host.Serves files) (hsizes : files.Addressable) (e : Environment)
    (a : Arguments) (s : σ) : files.Ends e a ((run host e a).run s).1 := by
  cases hoptions : a.scanOptions e with
  | error cause =>
    unfold run
    rw [hoptions]
    exact .refused hoptions
  | ok o =>
    have ho : o.Accepted := Arguments.accepted_of_scanOptions hoptions
    unfold run Run.withOptions
    rw [hoptions, expandInputs_eq h]
    cases hinputs : files.inputs a.recursive a.paths with
    | error cause => exact .unlisted hoptions hinputs
    | ok listed =>
      cases listed with
      | nil => exact .empty hoptions hinputs
      | cons path rest =>
        exact .scanned hoptions hinputs (List.cons_ne_nil path rest)
          (gives_scanFiles h hsizes ho (path :: rest) _)

end Files

end Backref
