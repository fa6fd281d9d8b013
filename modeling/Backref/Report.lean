/-
# The lines printed about a scan

One line a file says what was found, a second one how hard it was to find and
how long it took, and a last one sums up several files. Means, shares and speeds
have one place, seconds have three, and a half goes to the even neighbour.

Key definitions: `Elapsed`, `Report.fileLine`, `Report.detailLine`,
`Report.totalLine`, `Report.blockLine`, `Report.welcome`.
-/
import Backref.Scan
import Backref.Size

namespace Backref

/-! ### The program -/

def programName : String := "lzmatch"

def version : Nat × Nat × Nat := (0, 3, 0)

def versionText : String := s!"{version.1}.{version.2.1}.{version.2.2}"

/-- The version as one number, two digits a part. -/
def versionNumber : Nat := (version.1 * 100 + version.2.1) * 100 + version.2.2

/-! ### Time -/

structure Elapsed where
  seconds : Nat
  nanoseconds : Nat
  deriving Repr, DecidableEq

def Elapsed.ofNanoseconds (n : Nat) : Elapsed := ⟨n / 10 ^ 9, n % 10 ^ 9⟩

/-- So many seconds and nanoseconds; whole seconds among the nanoseconds are
carried over. There is no such span if the seconds then pass 64 bits. -/
def Elapsed.ofParts? (seconds nanoseconds : Nat) : Option Elapsed :=
  let carried := seconds + nanoseconds / 10 ^ 9
  if carried < 2 ^ 64 then some ⟨carried, nanoseconds % 10 ^ 9⟩ else none

def Elapsed.toSeconds (t : Elapsed) : Binary64 :=
  .ofNat t.seconds + .ofNat t.nanoseconds / .ofNat (10 ^ 9)

namespace Report

/-- Megabytes a second; zero if no time has passed. -/
def speed (bytes : Nat) (t : Elapsed) : Binary64 :=
  if t.toSeconds.isZero then .ofNat 0 else .ofNat bytes / t.toSeconds / .ofNat (10 ^ 6)

def fileLine (path : String) (bytes blocks : Nat) (stats : Stats) (verified : Bool) : String :=
  path ++ ": " ++ Size.render bytes ++ s!", {blocks} block" ++ (if blocks = 1 then "" else "s") ++
    s!", {stats.literals} literals, {stats.copies} matches (avg " ++ stats.meanLength.fixed 1 ++
    "), " ++ stats.coverage.fixed 1 ++ "% matched, fp " ++ Text.hex16 stats.fingerprint ++
    (if verified then ", verified" else "")

/-- How hard it was to find, and how long it took. -/
def detailLine (bytes : Nat) (stats : Stats) (t : Elapsed) : String :=
  s!"  {stats.searches} searches, {stats.improved} improved, longest {stats.longest}, " ++
    t.toSeconds.fixed 3 ++ " s, " ++ (speed bytes t).fixed 1 ++ " MB/s"

def totalLine (files bytes copiedBytes : Nat) : String :=
  s!"{files} files, " ++ Size.render bytes ++ " total, " ++
    (Stats.percent copiedBytes bytes).fixed 1 ++ "% matched"

def blockLine (index bytes : Nat) (stats : Stats) : String :=
  "block " ++ Text.padLeft 5 (toString index) ++ ": " ++ Text.padLeft 8 (toString bytes) ++
    " bytes, " ++ Text.padLeft 7 (toString stats.literals) ++ " literals, " ++
    Text.padLeft 7 (toString stats.copies) ++ " matches, " ++
    Text.padLeft 8 (toString stats.searches) ++ " searches"

def welcome (comparator : Comparator) : String :=
  s!"*** {programName} v{versionText} 64-bit {comparator.name} ***"

def settingsLine (o : Scan.Options) (workers : Nat) : String :=
  s!"level {o.level}, window {o.windowBits} bits, blocks of " ++ Size.render o.blockSize ++
    s!", {workers} worker(s)"

end Report

end Backref
