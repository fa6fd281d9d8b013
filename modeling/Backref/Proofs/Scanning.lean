/-
# A scan with accepted settings cannot fail

The blocks of a scan are the input cut into pieces: put together again they are the input,
and none is longer than the block size. Within the accepted settings every block can be
parsed, whatever its bytes, and its tokens expand to it; so asking for verification never
turns up a fault. No counter of a block is more than its size, so no merged counter is more
than the size of the input, which is a 64-bit number. A scan fails only for its settings, and
then for the first that is refused.

Key definitions: `Stats.Covers`, `Scan.Options.Accepted`, `Scan.countsOf`, `Scan.found`.
Key theorems: `Stats.covers_total`, `Scan.flatten_blocks`, `Scan.block_eq`,
`Scan.scan_eq_ok`, `Scan.scan_eq_error`, `Scan.scan_outcome`.
-/
import Mathlib.Algebra.Order.Floor.Div
import Backref.Proofs.Counts
import Backref.Proofs.Merging
import Backref.Proofs.RoundTrip
import Backref.Scan

namespace Backref

/-! ### Counters of so many bytes -/

namespace Stats

/-- The counters can be those of so many bytes: each is a literal or copied, and at most one
search was made for each. -/
structure Covers (s : Stats) (n : Nat) : Prop where
  bytes : s.bytes = n
  whole : s.literals + s.copiedBytes = n
  copies : s.copies ≤ s.improved
  improved : s.improved ≤ s.searches
  searches : s.searches ≤ n

/-- No counter is more than the bytes, so all fit if their number does. -/
theorem Covers.fits {s : Stats} {n : Nat} (h : s.Covers n) (hn : n ≤ maxCounter) : s.Fits := by
  obtain ⟨hbytes, hwhole, hcopies, himproved, hsearches⟩ := h
  constructor <;> omega

/-- What holds of each part holds of all together. -/
theorem covers_total {α : Type*} {counts : α → Stats} {size : α → Nat} :
    ∀ {parts : List α}, (∀ part ∈ parts, (counts part).Covers (size part)) →
      (total (parts.map counts)).Covers (parts.map size).sum
  | [], _ => ⟨rfl, rfl, Nat.le_refl 0, Nat.le_refl 0, Nat.le_refl 0⟩
  | part :: rest, h => by
    obtain ⟨hpart, hrest⟩ := List.forall_mem_cons.mp h
    obtain ⟨hbytes, hwhole, hcopies, himproved, hsearches⟩ := covers_total hrest
    simp only [total] at hbytes hwhole hcopies himproved hsearches
    constructor
    · simp only [total, List.map_cons, List.sum_cons, hbytes, hpart.bytes]
    · simp only [total, List.map_cons, List.sum_cons, ← hpart.whole, ← hwhole]
      omega
    · exact Nat.add_le_add hpart.copies hcopies
    · exact Nat.add_le_add hpart.improved himproved
    · exact Nat.add_le_add hpart.searches hsearches

end Stats

namespace Scan

variable {o : Options} {data : Array UInt8}

structure Options.Accepted (o : Options) : Prop where
  level : levelLimits.Admits o.level
  windowBits : windowBitsLimits.Admits o.windowBits
  blockSize : blockSizeLimits.Admits o.blockSize

/-! ### Cutting into blocks -/

/-- Pieces of one size, put together, are the input up to where they end. -/
theorem flatten_extract (data : Array UInt8) (size n : Nat) :
    ((List.range n).flatMap fun i => (data.extract (i * size) ((i + 1) * size)).toList) =
      data.toList.take (n * size) := by
  induction n with
  | zero => simp
  | succ n ih =>
    have hstep : (n + 1) * size = n * size + size := Nat.succ_mul n size
    rw [List.range_succ, List.flatMap_append, ih, List.flatMap_singleton, Array.toList_extract,
      hstep, List.take_add]
    simp

/-- **The blocks put together are the input.** -/
theorem flatten_blocks {size : Nat} (h : 1 ≤ size) (data : Array UInt8) :
    (blocks size data).flatMap Array.toList = data.toList := by
  have hend : data.toList.length ≤ (data.size + (size - 1)) / size * size := by
    have hdiv := Nat.div_add_mod (data.size + (size - 1)) size
    have hmod := Nat.mod_lt (data.size + (size - 1)) h
    rw [Nat.mul_comm] at hdiv
    rw [Array.length_toList]
    omega
  rw [blocks, List.flatMap_map, flatten_extract, List.take_of_length_le hend]

/-- The blocks have as many bytes as the input. -/
theorem sum_size_blocks {size : Nat} (h : 1 ≤ size) (data : Array UInt8) :
    ((blocks size data).map Array.size).sum = data.size := by
  calc ((blocks size data).map Array.size).sum
      = ((blocks size data).map fun b => b.toList.length).sum := rfl
    _ = ((blocks size data).flatMap Array.toList).length := List.length_flatMap.symm
    _ = data.size := by rw [flatten_blocks h, Array.length_toList]

theorem size_le_of_mem_blocks {size : Nat} {b : Array UInt8} (h : b ∈ blocks size data) :
    b.size ≤ size := by
  obtain ⟨i, -, rfl⟩ := List.mem_map.mp h
  have hstep : (i + 1) * size = i * size + size := Nat.succ_mul i size
  rw [Array.size_extract]
  omega

/-! ### Parsing the blocks -/

def countsOf (o : Options) (data : Array UInt8) : Stats :=
  match parse data o.parseOptions with
  | .error _ => {}
  | .ok parsed => parsed.stats

/-- A block no longer than an accepted block size is parsed, and given back by its tokens. -/
theorem parse_block (ho : o.Accepted) (hsize : data.size ≤ o.blockSize) :
    ∃ p, parse data o.parseOptions = .ok p ∧ Token.expand p.tokens.toList = .ok data ∧
      p.stats.Covers data.size := by
  have hhash : hashBitsLimits.Admits o.parseOptions.hashBits :=
    show hashBitsLimits.Admits hashBitsLimits.standard from by decide
  have haccepts : Parse.Accepts data o.parseOptions :=
    ⟨ho.level, ho.windowBits, hhash, Nat.le_trans hsize ho.blockSize.2⟩
  obtain ⟨_, rfl, -, hparse⟩ := Parse.parse_eq_ok haccepts
  obtain ⟨_, p, -, -, hp, hstats, hbytes, hsearches, hgreedy, hlazy⟩ := Parse.stats_parse haccepts
  -- the tokens that expand and the tokens that are counted come from one parse
  obtain rfl := Except.ok.inj (hparse.symm.trans hp)
  refine ⟨_, hp, Parse.expand_journal _ _ ho.level, hbytes, ?_, ?_, ?_, hsearches⟩
  · rw [← hbytes, hstats]
    exact Token.countP_isLiteral_add_sum _
  · rcases Nat.lt_or_ge o.level Parse.lazyLevel with hlevel | hlevel
    · exact (hgreedy hlevel).le
    · exact hlazy hlevel
  · rw [hstats]
    exact List.countP_le_length

theorem covers_countsOf (ho : o.Accepted) (hsize : data.size ≤ o.blockSize) :
    (countsOf o data).Covers data.size := by
  obtain ⟨p, hparse, -, hcovers⟩ := parse_block ho hsize
  rw [countsOf, hparse]
  exact hcovers

/-- **No block fails**, whether or not it is verified. -/
theorem block_eq (ho : o.Accepted) (hsize : data.size ≤ o.blockSize) :
    block o data = .ok (countsOf o data) := by
  obtain ⟨p, hparse, hexpand, -⟩ := parse_block ho hsize
  rw [block, countsOf, hparse]
  cases o.verify with
  | false => rfl
  | true =>
    simp only [hexpand, if_true]

theorem parseBlocks_eq (ho : o.Accepted) :
    ∀ {parts : List (Array UInt8)} (index : Nat), (∀ b ∈ parts, b.size ≤ o.blockSize) →
      parseBlocks o index parts = .ok (parts.map (countsOf o))
  | [], _, _ => rfl
  | b :: rest, index, h => by
    obtain ⟨hb, hrest⟩ := List.forall_mem_cons.mp h
    rw [parseBlocks, block_eq ho hb, parseBlocks_eq ho (index + 1) hrest, List.map_cons]

/-! ### A whole scan -/

def found (o : Options) (data : Array UInt8) : Scan where
  bytes := data.size
  perBlock := (blocks o.blockSize data).map (countsOf o)
  stats := .total ((blocks o.blockSize data).map (countsOf o))
  verified := o.verify

theorem covers_stats_found (ho : o.Accepted) (data : Array UInt8) :
    (found o data).stats.Covers data.size := by
  have hpositive : 1 ≤ o.blockSize := Nat.le_trans (by decide) ho.blockSize.1
  have hblocks : ∀ b ∈ blocks o.blockSize data, (countsOf o b).Covers b.size := fun b hb =>
    covers_countsOf ho (size_le_of_mem_blocks hb)
  rw [← sum_size_blocks hpositive data]
  exact Stats.covers_total hblocks

/-- **A scan with accepted settings cannot fail.** -/
theorem scan_eq_ok (ho : o.Accepted) (hdata : data.size ≤ maxCounter) :
    scan data o = .ok (found o data) := by
  have hblocks : parseBlocks o 0 (blocks o.blockSize data) = .ok (found o data).perBlock :=
    parseBlocks_eq ho 0 fun b => size_le_of_mem_blocks
  have hmerge : Stats.merge? (found o data).perBlock = some (found o data).stats := by
    rw [Stats.merge?_eq]
    exact if_pos ((covers_stats_found ho data).fits hdata)
  rw [scan, checkLevel, if_pos ho.level, checkWindowBits, if_pos ho.windowBits, checkBlockSize,
    if_pos ho.blockSize]
  simp only [hblocks, hmerge]
  rfl

/-- The first setting out of its range is refused. -/
theorem scan_eq_error (data : Array UInt8) (o : Options) :
    (¬ levelLimits.Admits o.level → scan data o = .error (.refused (.level o.level))) ∧
    (levelLimits.Admits o.level → ¬ windowBitsLimits.Admits o.windowBits →
      scan data o = .error (.refused (.windowBits o.windowBits))) ∧
    (levelLimits.Admits o.level → windowBitsLimits.Admits o.windowBits →
      ¬ blockSizeLimits.Admits o.blockSize →
      scan data o = .error (.refused (.blockSize o.blockSize))) := by
  refine ⟨fun hlevel => ?_, fun hlevel hbits => ?_, fun hlevel hbits hsize => ?_⟩
  · rw [scan, checkLevel, if_neg hlevel]
  · rw [scan, checkLevel, if_pos hlevel, checkWindowBits, if_neg hbits]
  · rw [scan, checkLevel, if_pos hlevel, checkWindowBits, if_pos hbits, checkBlockSize,
      if_neg hsize]

/-- As many blocks as it takes to hold the input. -/
theorem blockCount_found (ho : o.Accepted) (data : Array UInt8) :
    (found o data).blockCount = data.size ⌈/⌉ o.blockSize := by
  have hpositive : 1 ≤ o.blockSize := Nat.le_trans (by decide) ho.blockSize.1
  calc (found o data).blockCount
      = (blocks o.blockSize data).length := List.length_map _
    _ = (data.size + (o.blockSize - 1)) / o.blockSize := length_blocks o.blockSize data
    _ = data.size ⌈/⌉ o.blockSize := by
        rw [Nat.ceilDiv_eq_add_pred_div, Nat.add_sub_assoc hpositive]

theorem accepted_iff (o : Options) :
    o.Accepted ↔ (1 ≤ o.level ∧ o.level ≤ 9) ∧ (9 ≤ o.windowBits ∧ o.windowBits ≤ 15) ∧
      (4096 ≤ o.blockSize ∧ o.blockSize ≤ 2 ^ 32 - 1 - 16) :=
  ⟨fun h => ⟨h.level, h.windowBits, h.blockSize⟩, fun ⟨h1, h2, h3⟩ => ⟨h1, h2, h3⟩⟩

/-- **A scan fails only for its settings**, and then for the first that is out of its range.
If it succeeds, its blocks are as many as it takes to hold the input, its counters add up to
the bytes of the input, and it would have succeeded with the same blocks had it been asked to
verify them: each block is parsed, and its tokens expand to it. -/
theorem scan_outcome {data : Array UInt8} (hdata : data.size ≤ maxCounter) (o : Options) :
    ((∃ report, scan data o = .ok report) ↔
      (1 ≤ o.level ∧ o.level ≤ 9) ∧ (9 ≤ o.windowBits ∧ o.windowBits ≤ 15) ∧
        (4096 ≤ o.blockSize ∧ o.blockSize ≤ 2 ^ 32 - 1 - 16)) ∧
    (¬(1 ≤ o.level ∧ o.level ≤ 9) → scan data o = .error (.refused (.level o.level))) ∧
    (1 ≤ o.level ∧ o.level ≤ 9 → ¬(9 ≤ o.windowBits ∧ o.windowBits ≤ 15) →
      scan data o = .error (.refused (.windowBits o.windowBits))) ∧
    (1 ≤ o.level ∧ o.level ≤ 9 → 9 ≤ o.windowBits ∧ o.windowBits ≤ 15 →
      ¬(4096 ≤ o.blockSize ∧ o.blockSize ≤ 2 ^ 32 - 1 - 16) →
      scan data o = .error (.refused (.blockSize o.blockSize))) ∧
    ∀ report, scan data o = .ok report →
      report.blockCount = data.size ⌈/⌉ o.blockSize ∧
      report.bytes = data.size ∧ report.stats.bytes = data.size ∧
      report.stats.literals + report.stats.copiedBytes = data.size ∧
      report.verified = o.verify ∧
      Stats.merge? report.perBlock = some report.stats ∧
      (∀ b ∈ blocks o.blockSize data,
        ∃ p, parse b o.parseOptions = .ok p ∧ Token.expand p.tokens.toList = .ok b) ∧
      scan data { o with verify := true } = .ok { report with verified := true } := by
  obtain ⟨hlevel, hbits, hsize⟩ := scan_eq_error data o
  have haccepted : (∃ report, scan data o = .ok report) ↔ o.Accepted := by
    refine ⟨fun ⟨report, hreport⟩ => ?_, fun ho => ⟨_, scan_eq_ok ho hdata⟩⟩
    by_contra hrefused
    by_cases h1 : levelLimits.Admits o.level
    · by_cases h2 : windowBitsLimits.Admits o.windowBits
      · have h3 : ¬blockSizeLimits.Admits o.blockSize := fun h3 => hrefused ⟨h1, h2, h3⟩
        exact nomatch (hsize h1 h2 h3).symm.trans hreport
      · exact nomatch (hbits h1 h2).symm.trans hreport
    · exact nomatch (hlevel h1).symm.trans hreport
  refine ⟨haccepted.trans (accepted_iff o), hlevel, hbits, hsize, fun report hreport => ?_⟩
  have ho : o.Accepted := haccepted.mp ⟨report, hreport⟩
  have hverify : Options.Accepted { o with verify := true } :=
    ⟨ho.level, ho.windowBits, ho.blockSize⟩
  obtain rfl := Except.ok.inj ((scan_eq_ok ho hdata).symm.trans hreport)
  have hcovers := covers_stats_found ho data
  refine ⟨blockCount_found ho data, rfl, hcovers.bytes, hcovers.whole, rfl, ?_, ?_, ?_⟩
  · rw [Stats.merge?_eq]
    exact if_pos (hcovers.fits hdata)
  · intro b hb
    obtain ⟨p, hparse, hexpand, -⟩ := parse_block ho (size_le_of_mem_blocks hb)
    exact ⟨p, hparse, hexpand⟩
  · exact scan_eq_ok hverify hdata

/-- A block size that is too small is refused; the least one is not. -/
theorem scan_outcome_least :
    let data : Array UInt8 := #[1, 2, 3, 1, 2, 3]
    data.size ≤ maxCounter ∧
      scan data ⟨6, 15, 4095, 1, .wordwise, true⟩ = .error (.refused (.blockSize 4095)) ∧
      ∃ report, scan data ⟨6, 15, 4096, 1, .wordwise, true⟩ = .ok report ∧
        report.blockCount = 1 ∧ report.stats.bytes = 6 ∧ report.verified = true := by
  have hdata : (#[1, 2, 3, 1, 2, 3] : Array UInt8).size ≤ maxCounter := by decide
  obtain ⟨-, -, -, hrefused, -⟩ := scan_outcome hdata ⟨6, 15, 4095, 1, .wordwise, true⟩
  obtain ⟨haccepted, -, -, -, hreport⟩ := scan_outcome hdata ⟨6, 15, 4096, 1, .wordwise, true⟩
  obtain ⟨report, hscan⟩ := haccepted.mpr (by decide)
  obtain ⟨hblocks, -, hbytes, -, hverified, -⟩ := hreport report hscan
  exact ⟨hdata, hrefused (by decide) (by decide) (by decide), report, hscan,
    hblocks.trans (by decide), hbytes, hverified⟩

end Scan

end Backref
