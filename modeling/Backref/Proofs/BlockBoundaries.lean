/-
# A scan adds up at a block boundary

An input that is cut where a block ends has the blocks of both parts, one after the other,
and each block is parsed by itself. So the scan of the whole counts what the scans of the
two parts count together, and its fingerprint digests the fingerprints of the blocks of
the first part and then those of the second. Which blocks a merge gets in which order
changes nothing else.

Key definitions: `Scan.Fingerprints`.
Key theorems: `Scan.blocks_append`, `Scan.found_append`, `Scan.fingerprints_found`,
`Scan.scan_append`.
-/
import Backref.Proofs.Scanning

namespace Backref.Scan

variable {o : Options} {x y : Array UInt8} {size : Nat}

/-! ### Cutting at a block boundary -/

/-- Whole blocks in front are the blocks of the front, and the others start behind it. -/
theorem blocks_append (hpositive : 1 ≤ size) (h : size ∣ x.size) :
    blocks size (x ++ y) = blocks size x ++ blocks size y := by
  obtain ⟨n, hn⟩ := h
  have hfront : (x.size + (size - 1)) / size = n := by
    rw [hn, Nat.mul_add_div hpositive, Nat.div_eq_of_lt (by omega), Nat.add_zero]
  have hcount : ((x ++ y).size + (size - 1)) / size = n + (y.size + (size - 1)) / size := by
    rw [Array.size_append, hn, Nat.add_assoc, Nat.mul_add_div hpositive]
  rw [blocks, blocks, blocks, hcount, hfront, List.range_add, List.map_append, List.map_map]
  congr 1
  · refine List.map_congr_left fun i hi => ?_
    have hend : (i + 1) * size ≤ x.size := by
      rw [hn, Nat.mul_comm]
      exact Nat.mul_le_mul_left size (List.mem_range.mp hi)
    have hbehind : (i + 1) * size - x.size = 0 := Nat.sub_eq_zero_of_le hend
    simp [Array.extract_append, hbehind]
  · refine List.map_congr_left fun i _ => ?_
    have hstart : (n + i) * size = x.size + i * size := by rw [hn]; ring
    have hstop : (n + i + 1) * size = x.size + (i + 1) * size := by rw [hn]; ring
    rw [Function.comp_apply, hstart, hstop, Array.extract_append]
    simp

theorem found_append (hpositive : 1 ≤ o.blockSize) (h : o.blockSize ∣ x.size) :
    (found o (x ++ y)).perBlock = (found o x).perBlock ++ (found o y).perBlock ∧
      (found o (x ++ y)).stats =
        { (found o x).stats.plus (found o y).stats with
          fingerprint := Stats.mergedFingerprint ((found o x).perBlock ++ (found o y).perBlock) } := by
  have hblocks : (found o (x ++ y)).perBlock = (found o x).perBlock ++ (found o y).perBlock := by
    simp only [found, blocks_append hpositive h, List.map_append]
  refine ⟨hblocks, ?_⟩
  calc (found o (x ++ y)).stats
      = Stats.total (found o (x ++ y)).perBlock := rfl
    _ = _ := by
        rw [hblocks, Stats.total_append]
        rfl

/-! ### The fingerprints of the blocks -/

/-- The fingerprints that the blocks have when each is parsed by itself. -/
def Fingerprints (o : Options) (data : Array UInt8) (fingerprints : List UInt64) : Prop :=
  List.Forall₂ (fun block fingerprint =>
    ∃ p, parse block o.parseOptions = .ok p ∧ p.stats.fingerprint = fingerprint)
    (blocks o.blockSize data) fingerprints

theorem fingerprints_found (ho : o.Accepted) (data : Array UInt8) :
    Fingerprints o data ((found o data).perBlock.map (·.fingerprint)) := by
  rw [Fingerprints, found, List.map_map, List.forall₂_map_right_iff, List.forall₂_same]
  intro block hblock
  obtain ⟨p, hparse, -⟩ := parse_block ho (size_le_of_mem_blocks hblock)
  exact ⟨p, hparse, by rw [Function.comp_apply, countsOf, hparse]⟩

/-! ### Scans of both parts -/

/-- **A scan adds up at a block boundary.** If the first part is whole blocks, the report of
both parts together has as many blocks, bytes and of each counter as the reports of the
parts have together, the longest copy of either, and the digest of the fingerprints of the
first part's blocks, each parsed by itself, and then of the second's, low bytes first. For
any blocks, a merge has no value exactly if one of the six totals is no 64-bit number, and
their order matters to nothing but the fingerprint. -/
theorem scan_append :
    (∀ {o : Options} {x y : Array UInt8}, o.Accepted → o.blockSize ∣ x.size →
      (x ++ y).size ≤ maxCounter →
      ∃ whole first second, scan (x ++ y) o = .ok whole ∧ scan x o = .ok first ∧
        scan y o = .ok second ∧
        (whole.blockCount = first.blockCount + second.blockCount ∧
          whole.bytes = first.bytes + second.bytes) ∧
        (whole.stats.bytes = first.stats.bytes + second.stats.bytes ∧
          whole.stats.literals = first.stats.literals + second.stats.literals ∧
          whole.stats.copies = first.stats.copies + second.stats.copies ∧
          whole.stats.copiedBytes = first.stats.copiedBytes + second.stats.copiedBytes ∧
          whole.stats.searches = first.stats.searches + second.stats.searches ∧
          whole.stats.improved = first.stats.improved + second.stats.improved ∧
          whole.stats.longest = max first.stats.longest second.stats.longest) ∧
        ∃ xs ys, Fingerprints o x xs ∧ Fingerprints o y ys ∧
          whole.stats.fingerprint = Digest.ofBytes 0 ((xs ++ ys).flatMap wordBytes)) ∧
    (∀ word, (wordBytes word).length = 8 ∧
      Nat.ofDigits 256 ((wordBytes word).map UInt8.toNat) = word.toNat) ∧
    ∀ parts : List Stats,
      (Stats.merge? parts = none ↔
        2 ^ 64 - 1 < (parts.map (·.bytes)).sum ∨ 2 ^ 64 - 1 < (parts.map (·.literals)).sum ∨
          2 ^ 64 - 1 < (parts.map (·.copies)).sum ∨
          2 ^ 64 - 1 < (parts.map (·.copiedBytes)).sum ∨
          2 ^ 64 - 1 < (parts.map (·.searches)).sum ∨
          2 ^ 64 - 1 < (parts.map (·.improved)).sum) ∧
      ∀ others, parts.Perm others →
        Stats.merge? others = (Stats.merge? parts).map fun s =>
          { s with fingerprint := Stats.mergedFingerprint others } := by
  refine ⟨fun {o x y} ho hcut hsize => ?_, ofDigits_wordBytes, fun parts =>
    ⟨Stats.merge?_eq_none_iff parts, fun _ => Stats.merge?_perm⟩⟩
  have hpositive : 1 ≤ o.blockSize := Nat.le_trans (by decide) ho.blockSize.1
  have hx : x.size ≤ maxCounter := by rw [Array.size_append] at hsize; omega
  have hy : y.size ≤ maxCounter := by rw [Array.size_append] at hsize; omega
  obtain ⟨hblocks, hstats⟩ := found_append (y := y) hpositive hcut
  refine ⟨_, _, _, scan_eq_ok ho hsize, scan_eq_ok ho hx, scan_eq_ok ho hy, ⟨?_, ?_⟩, ?_,
    _, _, fingerprints_found ho x, fingerprints_found ho y, ?_⟩
  · rw [Scan.blockCount, hblocks, List.length_append]
    rfl
  · exact Array.size_append
  · rw [hstats]
    exact ⟨rfl, rfl, rfl, rfl, rfl, rfl, rfl⟩
  · rw [hstats, ← List.map_append, List.flatMap_map]
    rfl

/-- One whole block and a short one: the boundary is the only one there is. -/
theorem scan_append_short :
    let o : Options := ⟨6, 15, 4096, 1, .wordwise, false⟩
    let x : Array UInt8 := Array.replicate 4096 7
    let y : Array UInt8 := #[7, 7, 7, 8]
    (o.Accepted ∧ o.blockSize ∣ x.size ∧ (x ++ y).size ≤ maxCounter) ∧
      ∃ whole first second, scan (x ++ y) o = .ok whole ∧ scan x o = .ok first ∧
        scan y o = .ok second ∧ whole.blockCount = first.blockCount + second.blockCount ∧
        whole.stats.literals = first.stats.literals + second.stats.literals ∧
        whole.stats.longest = max first.stats.longest second.stats.longest := by
  intro o x y
  have ho : o.Accepted := ⟨by decide, by decide, by decide⟩
  have hx : x.size = 4096 := Array.size_replicate
  have hcut : o.blockSize ∣ x.size := ⟨1, hx⟩
  have hsize : (x ++ y).size ≤ maxCounter := by
    rw [Array.size_append, hx]
    decide
  obtain ⟨whole, first, second, hwhole, hfirst, hsecond, ⟨hcount, -⟩,
    ⟨-, hliterals, -, -, -, -, hlongest⟩, -⟩ := scan_append.1 ho hcut hsize
  exact ⟨⟨ho, hcut, hsize⟩, whole, first, second, hwhole, hfirst, hsecond, hcount, hliterals,
    hlongest⟩

end Backref.Scan
