/-
# Accepted arguments keep the declared ranges

The level and the window size are checked when an argument is read, and nothing that is read
later changes them; so arguments that are accepted hold only values in the declared ranges.
The level that the environment stands in with is in its range as well. Of the three checks
that the settings of a scan pass, only that of the block size can fail.

Key definitions: `Arguments.InRange`, `Arguments.settings`.
Key theorems: `Reading.inRange_argument`, `Arguments.inRange_of_read`,
`Arguments.scanOptions_eq`, `Arguments.accepted_of_scanOptions`.
-/
import Backref.CommandLine.Arguments
import Backref.Proofs.Checked.Basic
import Backref.Proofs.Scanning

namespace Backref

namespace Arguments

variable {a b : Arguments}

/-- The level and the window size are in the declared ranges, where they are given. -/
structure InRange (a : Arguments) : Prop where
  level : ∀ n ∈ a.level, levelLimits.Admits n
  windowBits : ∀ n ∈ a.windowBits, windowBitsLimits.Admits n

/-! ### What takes effect -/

theorem inRange_nothing : InRange {} := ⟨nofun, nofun⟩

theorem admits_of_within? {limits : Limits} {value : String} {n : Nat}
    (h : within? limits value = some n) : limits.Admits n := by
  unfold within? at h
  simpa using (Option.filter_eq_some_iff.mp h).2

/-- An option that has a range is given only numbers in it. -/
theorem InRange.put (h : a.InRange) {setting : Setting} {value : String} {n : Nat}
    (hvalue : value? value setting = some n) : (a.put n setting).InRange := by
  cases setting with
  | level => exact ⟨fun m hm => Option.some.inj hm ▸ admits_of_within? hvalue, h.windowBits⟩
  | windowBits => exact ⟨h.level, fun m hm => Option.some.inj hm ▸ admits_of_within? hvalue⟩
  | blockSize => exact ⟨h.level, h.windowBits⟩
  | threads => exact ⟨h.level, h.windowBits⟩

theorem InRange.assign (h : a.InRange) {setting : Setting} {value : String}
    (hassign : a.assign setting value = .ok b) : b.InRange := by
  unfold Arguments.assign at hassign
  split at hassign
  · cases hassign
  · split at hassign
    · cases hassign
    · next hvalue => exact Except.ok.inj hassign ▸ h.put hvalue

/-- A switch leaves the level and the window size as they are. -/
theorem InRange.turn (h : a.InRange) {switch : Switch} (hturn : a.turn switch = .ok b) :
    b.InRange := by
  have hsame : b.level = a.level ∧ b.windowBits = a.windowBits := by
    cases switch <;> simp only [Arguments.turn] at hturn
    case recursive | bytewise | verify =>
      split at hturn
      · exact nomatch hturn
      · exact Except.ok.inj hturn ▸ ⟨rfl, rfl⟩
    case verbose | quiet => exact Except.ok.inj hturn ▸ ⟨rfl, rfl⟩
    case help | version => exact nomatch hturn
  exact ⟨hsame.1 ▸ h.level, hsame.2 ▸ h.windowBits⟩

theorem InRange.addPaths (h : a.InRange) {paths : List String}
    (hadd : a.addPaths paths = .ok b) : b.InRange := by
  unfold Arguments.addPaths at hadd
  split at hadd
  · exact nomatch hadd
  · exact Except.ok.inj hadd ▸ ⟨h.level, h.windowBits⟩

end Arguments

/-! ### Reading -/

namespace Reading

variable {r r' : Reading} {a : Arguments}

theorem inRange_settle (h : r.arguments.InRange) (hsettle : r.settle = .ok a) : a.InRange := by
  unfold settle at hsettle
  split at hsettle
  · exact Except.ok.inj hsettle ▸ h
  · exact nomatch hsettle
  · exact h.assign hsettle
  · exact h.addPaths hsettle

theorem inRange_turn (h : r.arguments.InRange) {switch : Switch}
    (hr : r.turn switch = .ok r') : r'.arguments.InRange := by
  obtain ⟨b, hsettle, hr⟩ := bind_eq_ok_iff.mp hr
  obtain ⟨c, hturn, hr⟩ := bind_eq_ok_iff.mp hr
  obtain rfl := Except.ok.inj hr
  exact (inRange_settle h hsettle).turn hturn

theorem inRange_assign (h : r.arguments.InRange) {setting : Setting} {value : String}
    (hr : r.assign setting value = .ok r') : r'.arguments.InRange := by
  obtain ⟨b, hsettle, hr⟩ := bind_eq_ok_iff.mp hr
  obtain ⟨c, hassign, hr⟩ := bind_eq_ok_iff.mp hr
  obtain rfl := Except.ok.inj hr
  exact (inRange_settle h hsettle).assign hassign

theorem inRange_await (h : r.arguments.InRange) {setting : Setting}
    (hawait : r.await setting = .ok r') : r'.arguments.InRange := by
  obtain ⟨b, hsettle, hr⟩ := bind_eq_ok_iff.mp hawait
  obtain rfl := Except.ok.inj hr
  exact inRange_settle h hsettle

theorem inRange_path (h : r.arguments.InRange) {text : String} (hpath : r.path text = .ok r') :
    r'.arguments.InRange := by
  unfold path at hpath
  split at hpath
  · exact Except.ok.inj hpath ▸ h
  · obtain ⟨b, hsettle, hr⟩ := bind_eq_ok_iff.mp hpath
    obtain rfl := Except.ok.inj hr
    exact inRange_settle h hsettle

theorem inRange_plain (h : r.arguments.InRange) {text : String}
    (hplain : r.plain text = .ok r') : r'.arguments.InRange := by
  unfold plain at hplain
  split at hplain
  · exact Except.ok.inj hplain ▸ h
  · exact inRange_path h hplain

theorem inRange_long (h : r.arguments.InRange) {text : String} {cs : List Char}
    (hlong : r.long text cs = .ok r') : r'.arguments.InRange := by
  unfold long at hlong
  simp only at hlong
  split at hlong
  · split at hlong
    · exact inRange_await h hlong
    · exact inRange_assign h hlong
  · split at hlong
    · exact inRange_turn h hlong
    · exact nomatch hlong
  · exact nomatch hlong

/-- Induction on the letters: each switch in front is turned, and a setting takes the rest. -/
theorem inRange_short {text : String} {letters : List Char} (h : r.arguments.InRange)
    (hshort : short text r letters = .ok r') : r'.arguments.InRange := by
  induction letters generalizing r with
  | nil => exact Except.ok.inj hshort ▸ h
  | cons c rest ih =>
    unfold short at hshort
    split at hshort
    · split at hshort
      · exact inRange_await h hshort
      · exact inRange_assign h hshort
    · obtain ⟨r₁, hturn, hrest⟩ := bind_eq_ok_iff.mp hshort
      exact ih (inRange_turn h hturn) hrest
    · exact nomatch hshort

/-- **One more argument keeps the ranges.** -/
theorem inRange_argument (h : r.arguments.InRange) {text : String}
    (hr : r.argument text = .ok r') : r'.arguments.InRange := by
  unfold argument at hr
  split at hr
  · exact inRange_path h hr
  · split at hr
    · exact Except.ok.inj hr ▸ h
    · exact inRange_long h hr
    · exact inRange_plain h hr
    · exact inRange_short h hr
    · exact inRange_plain h hr

theorem inRange_foldlM {texts : List String} (h : r.arguments.InRange)
    (hr : texts.foldlM argument r = .ok r') : r'.arguments.InRange := by
  induction texts generalizing r with
  | nil => exact Except.ok.inj hr ▸ h
  | cons text rest ih =>
    rw [List.foldlM_cons] at hr
    obtain ⟨r₁, hfirst, hrest⟩ := bind_eq_ok_iff.mp hr
    exact ih (inRange_argument h hfirst) hrest

end Reading

namespace Arguments

variable {a : Arguments}

/-- **Accepted arguments keep the declared ranges.** -/
theorem inRange_of_read {arguments : List String} (h : read arguments = .ok a) : a.InRange := by
  obtain ⟨r, hfold, h⟩ := bind_eq_ok_iff.mp h
  obtain ⟨b, hsettle, hpath⟩ := bind_eq_ok_iff.mp h
  have hb : b.InRange :=
    Reading.inRange_settle (Reading.inRange_foldlM inRange_nothing hfold) hsettle
  unfold requirePath at hpath
  split at hpath
  · exact nomatch hpath
  · exact Except.ok.inj hpath ▸ hb

/-! ### The settings of the scan -/

/-- What the arguments and the environment ask for, checked or not. -/
def settings (a : Arguments) (e : Environment) : Scan.Options where
  level := (a.chosenLevel e).1
  windowBits := a.windowBitsOrStandard
  blockSize := a.blockSizeOrStandard
  workers := (a.chosenWorkers e).1
  comparator := a.comparator
  verify := a.verify

theorem InRange.admits_chosenLevel (h : a.InRange) (e : Environment) :
    levelLimits.Admits (a.chosenLevel e).1 := by
  unfold Arguments.chosenLevel
  split
  · next n hn => exact h.level n hn
  · exact e.admits_chosenLevel

theorem InRange.admits_windowBits (h : a.InRange) :
    windowBitsLimits.Admits a.windowBitsOrStandard := by
  unfold windowBitsOrStandard
  cases hbits : a.windowBits with
  | none => decide
  | some n => exact h.windowBits n hbits

/-- **Only the block size can be refused.** -/
theorem scanOptions_eq (h : a.InRange) (e : Environment) :
    a.scanOptions e =
      if blockSizeLimits.Admits a.blockSizeOrStandard then .ok (a.settings e)
      else .error (.blockSize a.blockSizeOrStandard) := by
  unfold scanOptions
  rw [checkLevel, if_pos (h.admits_chosenLevel e), checkWindowBits, if_pos h.admits_windowBits,
    checkBlockSize]
  split <;> rfl

theorem exists_scanOptions_iff (h : a.InRange) (e : Environment) :
    (∃ o, a.scanOptions e = .ok o) ↔ blockSizeLimits.Admits a.blockSizeOrStandard := by
  rw [scanOptions_eq h]
  split
  · next hsize => exact iff_of_true ⟨_, rfl⟩ hsize
  · next hsize => exact iff_of_false nofun hsize

/-- Settings that are not refused are accepted by a scan. -/
theorem accepted_of_scanOptions {e : Environment} {o : Scan.Options}
    (h : a.scanOptions e = .ok o) : o.Accepted := by
  obtain ⟨level, hlevel, h⟩ := bind_eq_ok_iff.mp h
  obtain ⟨bits, hbits, h⟩ := bind_eq_ok_iff.mp h
  obtain ⟨size, hsize, h⟩ := bind_eq_ok_iff.mp h
  obtain ⟨h1, rfl⟩ := checkLevel_eq_ok_iff.mp hlevel
  obtain ⟨h2, rfl⟩ := checkWindowBits_eq_ok_iff.mp hbits
  obtain ⟨h3, rfl⟩ := checkBlockSize_eq_ok_iff.mp hsize
  obtain rfl := Except.ok.inj h
  exact ⟨h1, h2, h3⟩

end Arguments

end Backref
