/-
# What the answer of a search says

If a search answers with a position, that position lies before the current one,
within reach, and shares exactly as many bytes with it as the answer says, more
than the caller held. If it answers with none, the length is the one the caller
held, clipped. Nothing is asked of the links: they may be stale, circular or too
few.

Key definitions: `Search.Hit`, `Search.Params.Opens`, `Search.candidates`, `Search.best`.
Key theorems: `Search.longest_of_opens`, `Search.hit_of_longest`, `Search.length_of_longest`,
`Search.longest_congr`, `Search.longest_withLookahead`, `Search.longest_eq_of_take_eq`,
`Search.longest_sound`.
-/
import Mathlib.Data.List.Find
import Backref.Proofs.Plain

namespace Backref

theorem Links.mem_candidates {l : Links} {floor current budget pos c : Nat}
    (h : c ∈ l.candidates floor current budget pos) : c = pos ∨ (floor < c ∧ c < current) := by
  induction budget generalizing pos with
  | zero => simp [candidates] at h
  | succ n ih =>
    rw [candidates] at h
    rcases List.mem_cons.mp h with rfl | h
    · exact .inl rfl
    · rcases hlink : l.link? floor current pos with _ | next
      · simp [hlink] at h
      · simp only [hlink] at h
        have hnext := (Option.filter_eq_some_iff.mp hlink).2
        simp only [decide_eq_true_eq] at hnext
        rcases ih h with rfl | h
        · exact .inr hnext
        · exact .inr h

namespace Search

/-- A new match of a search: a position before the current one, within reach, that
shares `length` bytes with it and no more, which is longer than what the caller
held. -/
structure Hit (bytes : Array UInt8) (current head : Nat) (p : Params) (start length : Nat) :
    Prop where
  improves : p.baseline < length
  measured : length = agreementAt bytes current start p.cap
  before : start < current
  near : current - start ≤ p.maxDistance
  /-- It is the head, or a link above the floor. -/
  reached : start = head ∨ current - p.maxDistance < start

theorem Hit.same {bytes : Array UInt8} {current head start length k : Nat} {p : Params}
    (h : Hit bytes current head p start length) (hk : k < length) :
    ∃ x, bytes[current + k]? = some x ∧ bytes[start + k]? = some x := by
  have hlt : k < agreementAt bytes current start p.cap := h.measured ▸ hk
  exact (lt_agreementAt_iff.mp hlt).2 k (Nat.le_refl k)

/-- The last byte of a hit is there, so all of them are. -/
theorem Hit.fits {bytes : Array UInt8} {current head start length : Nat} {p : Params}
    (h : Hit bytes current head p start length) : current + length ≤ bytes.size := by
  have himp := h.improves
  obtain ⟨x, hx, -⟩ := h.same (k := length - 1) (by omega)
  have hlt := (Array.getElem?_eq_some_iff.mp hx).1
  omega

theorem bestOf_eq_or_mem (baseline : Nat) (lengths : List Nat) :
    bestOf baseline lengths = baseline ∨ bestOf baseline lengths ∈ lengths := by
  induction lengths generalizing baseline with
  | nil => exact .inl rfl
  | cons l ls ih =>
    rw [bestOf_cons]
    rcases ih (max baseline l) with h | h
    · rcases Nat.le_total baseline l with hle | hle
      · rw [h, Nat.max_eq_right hle]
        exact .inr List.mem_cons_self
      · rw [h, Nat.max_eq_left hle]
        exact .inl rfl
    · exact .inr (List.mem_cons_of_mem _ h)

theorem mem_of_lt_bestSeen {nice baseline : Nat} {patient : Bool} {lengths : List Nat}
    (h : baseline < bestSeen nice patient baseline lengths) :
    bestSeen nice patient baseline lengths ∈ lengths := by
  rcases bestOf_eq_or_mem baseline (lengths.take (looks nice patient baseline lengths)) with
    he | he
  · exact absurd h (by rw [bestSeen, he]; omega)
  · exact List.mem_of_mem_take he

/-! ### What a search sees -/

/-- There is room to improve and the head is within reach. -/
def Params.Opens (p : Params) (current head : Nat) : Prop :=
  p.baseline < p.cap ∧ head < current ∧ current - head ≤ p.maxDistance

def candidates (links : Links) (current head : Nat) (p : Params) : List Nat :=
  links.candidates (current - p.maxDistance) current p.budget head

def best (bytes : Array UInt8) (links : Links) (current head : Nat) (p : Params) : Nat :=
  bestSeen (min p.niceLength p.cap) (patientLevel ≤ p.level) p.baseline
    ((candidates links current head p).map fun c => agreementAt bytes current c p.cap)

section

variable {comparator : Comparator} {bytes : Array UInt8} {links : Links} {current head : Nat}
  {p : Params}

theorem longest_of_opens (h : p.Opens current head) :
    longest comparator bytes links current head p =
      ⟨best bytes links current head p,
        if p.baseline < best bytes links current head p then
          (candidates links current head p).find? fun c =>
            agreementAt bytes current c p.cap = best bytes links current head p
        else none⟩ :=
  longest_eq_bestSeen comparator bytes links current head p h.1 h.2.1 h.2.2

theorem longest_of_not_opens (h : ¬ p.Opens current head) :
    longest comparator bytes links current head p = ⟨min p.baseline p.cap, none⟩ := by
  unfold Params.Opens at h
  rw [longest, if_pos (by omega)]
  rfl

theorem baseline_le_best : p.baseline ≤ best bytes links current head p := le_bestSeen _ _ _ _

theorem min_baseline_cap_le_length :
    min p.baseline p.cap ≤ (longest comparator bytes links current head p).length := by
  by_cases h : p.Opens current head
  · rw [longest_of_opens h]
    exact Nat.le_trans (Nat.min_le_left _ _) baseline_le_best
  · rw [longest_of_not_opens h]

/-- **A position that a search answers with is a match of the length it answers
with.** -/
theorem hit_of_longest {start : Nat}
    (h : (longest comparator bytes links current head p).position = some start) :
    Hit bytes current head p start (longest comparator bytes links current head p).length := by
  by_cases hopens : p.Opens current head
  · have hreach : head < current ∧ current - head ≤ p.maxDistance := hopens.2
    rw [longest_of_opens hopens] at h ⊢
    simp only at h ⊢
    split at h
    · rename_i hbest
      have hmem := Links.mem_candidates (List.mem_of_find?_eq_some h)
      have hlen := List.find?_some h
      simp only [decide_eq_true_eq] at hlen
      exact
        { improves := hbest
          measured := hlen.symm
          before := by omega
          near := by omega
          reached := by omega }
    · cases h
  · rw [longest_of_not_opens hopens] at h
    cases h

/-- If a search answers with no position, its length is the one the caller held,
clipped. -/
theorem length_of_longest
    (h : (longest comparator bytes links current head p).position = none) :
    (longest comparator bytes links current head p).length = min p.baseline p.cap := by
  by_cases hopens : p.Opens current head
  · have hroom : p.baseline < p.cap := hopens.1
    have hle : p.baseline ≤ best bytes links current head p := baseline_le_best
    rw [longest_of_opens hopens] at h ⊢
    simp only at h ⊢
    split at h
    · rename_i hbest
      obtain ⟨c, hc, hlen⟩ := List.mem_map.mp (mem_of_lt_bestSeen hbest)
      have hlen : agreementAt bytes current c p.cap = best bytes links current head p := hlen
      exact absurd (List.find?_eq_none.mp h c hc) (by simpa using hlen)
    · omega
  · rw [longest_of_not_opens hopens]

end

/-! ### What an answer depends on -/

/-- An answer depends on the bytes only up to the end of the longest match there could
be, and not on the comparator. -/
theorem longest_congr {comparator comparator' : Comparator} {a b : Array UInt8}
    {links : Links} {current head : Nat} {p : Params}
    (hbytes : ∀ i < current + p.cap, a[i]? = b[i]?) :
    longest comparator a links current head p = longest comparator' b links current head p := by
  by_cases hopens : p.Opens current head
  · have hlength : ∀ c ∈ candidates links current head p,
        agreementAt a current c p.cap = agreementAt b current c p.cap := by
      intro c hc
      refine agreementAt_congr ?_ hbytes
      obtain ⟨-, hhead, -⟩ := hopens
      rcases Links.mem_candidates hc with rfl | ⟨-, hc⟩ <;> omega
    have hbest : best a links current head p = best b links current head p := by
      rw [best, best, List.map_congr_left hlength]
    rw [longest_of_opens hopens, longest_of_opens hopens, hbest]
    refine congrArg (Outcome.mk _) ?_
    split
    · exact List.find?_congr fun c hc => by rw [hlength c hc]
    · rfl
  · rw [longest_of_not_opens hopens, longest_of_not_opens hopens]

/-- The lookahead matters only as far as it bounds the longest match there could be. -/
theorem longest_withLookahead (comparator : Comparator) (bytes : Array UInt8) (links : Links)
    (current head : Nat) (p : Params) {m n : Nat} (h : min maxMatch m = min maxMatch n) :
    longest comparator bytes links current head (p.withLookahead m) =
      longest comparator bytes links current head (p.withLookahead n) := by
  have hcap : (p.withLookahead m).cap = (p.withLookahead n).cap := h
  rw [longest, longest, hcap]
  rfl

/-- **Bytes past the lookahead never matter**, nor does how they are compared. Two windows
that hold the longest match there could be, and begin with the same bytes up to its end,
give the same answer, whatever follows and however much of it. -/
theorem longest_eq_of_take_eq (comparator comparator' : Comparator) {a b : Array UInt8}
    (links : Links) {current : Nat} (head : Nat) {p : Params}
    (ha : current + min p.lookahead maxMatch ≤ a.size)
    (hb : current + min p.lookahead maxMatch ≤ b.size)
    (hsame : a.take (current + min p.lookahead maxMatch) =
      b.take (current + min p.lookahead maxMatch)) :
    longest comparator a links current head p = longest comparator' b links current head p := by
  refine longest_congr fun i hi => ?_
  rw [Params.cap, Nat.min_comm] at hi
  have htake {bytes : Array UInt8} (hfits : current + min p.lookahead maxMatch ≤ bytes.size) :
      (bytes.take (current + min p.lookahead maxMatch))[i]? = bytes[i]? := by
    rw [Array.getElem?_extract, if_pos (by omega), Nat.zero_add]
  rw [← htake ha, ← htake hb, hsame]

/-- The first window ends where words can no longer be read, and the second goes on with a
byte that would make the match longer. -/
theorem longest_eq_of_take_eq_at_end :
    let a : Array UInt8 := #[1, 2, 3, 4, 1, 2, 3]
    let b : Array UInt8 := #[1, 2, 3, 4, 1, 2, 3, 4, 1, 2, 3, 4, 1, 2, 3, 4]
    let links : Links := ⟨#[0, 0, 0, 0, 0, 0, 0, 0], 7⟩
    let p : Params := ⟨8, 8, 258, 512, 3, 9, 0⟩
    (4 + min p.lookahead maxMatch ≤ a.size ∧ 4 + min p.lookahead maxMatch ≤ b.size ∧
        a.take (4 + min p.lookahead maxMatch) = b.take (4 + min p.lookahead maxMatch)) ∧
      longest .bytewise a links 4 0 p = longest .wordwise b links 4 0 p ∧
      longest .bytewise a links 4 0 p = ⟨3, some 0⟩ := by
  intro a b links p
  have ha : 4 + min p.lookahead maxMatch ≤ a.size := by decide
  have hb : 4 + min p.lookahead maxMatch ≤ b.size := by decide
  have hsame : a.take (4 + min p.lookahead maxMatch) = b.take (4 + min p.lookahead maxMatch) := by
    decide
  exact ⟨⟨ha, hb, hsame⟩, longest_eq_of_take_eq .bytewise .wordwise links 0 ha hb hsame,
    by decide +kernel⟩

/-- **A search is sound on any bytes, any links and any parameters.** Its length is
at most the bytes ahead and the longest copy, and at least what the caller held,
clipped; a position it answers with is that of an earlier run within reach that is
longer than what the caller held, fits, and has the same bytes. -/
theorem longest_sound (comparator : Comparator) (bytes : Array UInt8) (links : Links)
    (current head : Nat) (p : Params) :
    let found := longest comparator bytes links current head p
    found.length ≤ min p.lookahead maxMatch ∧
      min (max 1 p.carried) (min p.lookahead maxMatch) ≤ found.length ∧
      ∀ start, found.position = some start →
        max 1 p.carried < found.length ∧ start < current ∧ current - start ≤ p.maxDistance ∧
          current + found.length ≤ bytes.size ∧
          ∀ k < found.length, bytes[start + k]? = bytes[current + k]? := by
  intro found
  have hle : found.length ≤ min maxMatch p.lookahead :=
    longest_length_le comparator bytes links current head p
  refine ⟨by omega, ?_, fun start hstart => ?_⟩
  · rcases hposition : found.position with _ | start
    · have hlength : found.length = min (max 1 p.carried) (min maxMatch p.lookahead) :=
        length_of_longest hposition
      omega
    · have himp : max 1 p.carried < found.length := (hit_of_longest hposition).improves
      omega
  · have hit := hit_of_longest hstart
    refine ⟨hit.improves, hit.before, hit.near, hit.fits, fun k hk => ?_⟩
    obtain ⟨x, hcurrent, hx⟩ := hit.same hk
    rw [hcurrent, hx]

end Search

end Backref
