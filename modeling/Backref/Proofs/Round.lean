/-
# A walk that goes in a circle has seen everything after one round

A candidate improves on the best length exactly if it agrees with the current
bytes for longer: the four bytes probed first rule out no candidate that would.
The best length only grows, so a candidate that was looked at once never
improves again, and a walk that comes back to one of its candidates ends where
it is. Before that it meets at most one candidate for each link, and the first.
So a budget of one round finds all that a larger budget finds.

Key definitions: `Search.Hunt.shared`, `Search.Hunt.Trail`.
Key theorems: `Search.Hunt.improve?_eq`, `Search.Hunt.walk_min_round`,
`Search.longest_eq_walk`.
-/
import Mathlib.Data.List.Perm.Subperm
import Backref.Proofs.Agreement
import Backref.Search.Longest

namespace Backref.Search

namespace Hunt

/-! ### What a candidate improves on -/

def shared (h : Hunt) (candidate : Nat) : Nat :=
  agreementAt h.bytes h.current candidate h.cap

theorem byte_or_shift_inj {lo hi lo' hi' : UInt8} :
    lo.toUInt16 ||| (hi.toUInt16 <<< 8) = lo'.toUInt16 ||| (hi'.toUInt16 <<< 8) ↔
      lo = lo' ∧ hi = hi' := by
  have hval : ∀ a b : UInt8,
      (a.toUInt16 ||| (b.toUInt16 <<< 8)).toNat = 2 ^ 8 * b.toNat + a.toNat := by
    intro a b
    have hb := b.toNat_lt
    have h8 : (8 : UInt16).toNat % 16 = 8 := rfl
    have hs : b.toNat <<< 8 % 2 ^ 16 = 2 ^ 8 * b.toNat := by
      rw [Nat.shiftLeft_eq]; omega
    rw [UInt16.toNat_or, UInt16.toNat_shiftLeft, h8, UInt8.toNat_toUInt16,
      UInt8.toNat_toUInt16, hs, Nat.or_comm, Nat.two_pow_add_eq_or_of_lt a.toNat_lt]
  constructor
  · intro h
    have hnat := congrArg UInt16.toNat h
    rw [hval, hval] at hnat
    have h1 := lo.toNat_lt
    have h2 := lo'.toNat_lt
    exact ⟨UInt8.toNat_inj.mp (by omega), UInt8.toNat_inj.mp (by omega)⟩
  · rintro ⟨rfl, rfl⟩
    rfl

theorem pair?_eq_some_iff (v : View) (k : Nat) (p : UInt16) :
    v.pair? k = some p ↔
      ∃ lo hi, v.get? k = some lo ∧ v.get? (k + 1) = some hi ∧
        p = lo.toUInt16 ||| (hi.toUInt16 <<< 8) := by
  unfold View.pair?
  split
  · rename_i lo hi h1 h2
    constructor
    · intro h
      exact ⟨lo, hi, h1, h2, (Option.some.inj h).symm⟩
    · rintro ⟨lo', hi', h1', h2', rfl⟩
      rw [h1] at h1'
      rw [h2] at h2'
      cases h1'; cases h2'; rfl
  · rename_i hnot
    constructor
    · intro h; cases h
    · rintro ⟨lo, hi, h1, h2, _⟩
      exact absurd h2 (hnot lo hi h1)

theorem samePair_iff (a b : View) (k : Nat) :
    samePair a b k = true ↔
      (∃ x, a.get? k = some x ∧ b.get? k = some x) ∧
        ∃ x, a.get? (k + 1) = some x ∧ b.get? (k + 1) = some x := by
  have hsame : samePair a b k = true ↔ ∃ p, a.pair? k = some p ∧ b.pair? k = some p := by
    unfold samePair
    split
    · rename_i x y hx hy
      rw [hx, hy, beq_iff_eq]
      constructor
      · rintro rfl
        exact ⟨x, rfl, rfl⟩
      · rintro ⟨p, h1, h2⟩
        exact Option.some.inj (h1.trans h2.symm)
    · rename_i hnot
      simp only [Bool.false_eq_true, false_iff, not_exists, not_and]
      exact fun p h1 h2 => hnot p p h1 h2
  rw [hsame]
  constructor
  · rintro ⟨p, ha, hb⟩
    obtain ⟨lo, hi, h1, h2, rfl⟩ := (pair?_eq_some_iff a k p).mp ha
    obtain ⟨lo', hi', h1', h2', heq⟩ := (pair?_eq_some_iff b k _).mp hb
    obtain ⟨rfl, rfl⟩ := byte_or_shift_inj.mp heq
    exact ⟨⟨lo, h1, h1'⟩, hi, h2, h2'⟩
  · rintro ⟨⟨lo, h1, h1'⟩, hi, h2, h2'⟩
    exact ⟨_, (pair?_eq_some_iff a k _).mpr ⟨lo, hi, h1, h2, rfl⟩,
      (pair?_eq_some_iff b k _).mpr ⟨lo, hi, h1', h2', rfl⟩⟩

/-! ### The probes rule out nothing that improves -/

theorem samePair_of_lt_shared {h : Hunt} {candidate k : Nat}
    (hk : k + 1 < h.shared candidate) :
    samePair ⟨h.bytes, candidate⟩ ⟨h.bytes, h.current⟩ k = true := by
  rw [samePair_iff]
  obtain ⟨x, hx1, hx2⟩ := (lt_agreementAt_iff.mp hk).2 k (Nat.le_succ k)
  obtain ⟨y, hy1, hy2⟩ := (lt_agreementAt_iff.mp hk).2 (k + 1) (Nat.le_refl _)
  exact ⟨⟨x, hx2, hx1⟩, y, hy2, hy1⟩

/-- A candidate that passes the first probe shares two bytes and what is measured
behind them. -/
theorem measure_eq_shared {h : Hunt} {candidate : Nat} (hcap : 2 ≤ h.cap)
    (hp : samePair ⟨h.bytes, candidate⟩ ⟨h.bytes, h.current⟩ 0 = true) :
    h.measure candidate = h.shared candidate := by
  obtain ⟨⟨x, hx1, hx2⟩, y, hy1, hy2⟩ := (samePair_iff _ _ _).mp hp
  have htwo : agreement (h.bytes.toList.drop h.current) (h.bytes.toList.drop candidate) 2 = 2 := by
    have h1 := View.drop_toList_of_get? hx1
    have h2 := View.drop_toList_of_get? hx2
    have h3 := View.drop_toList_of_get? hy1
    have h4 := View.drop_toList_of_get? hy2
    simp only [View.toList, List.drop_zero, Nat.zero_add] at h1 h2 h3 h4
    rw [h1, h2, h3, h4, agreement_cons_succ, if_pos rfl, agreement_cons_succ, if_pos rfl]
    rfl
  rw [shared, agreementAt, show h.cap = 2 + (h.cap - 2) by omega, agreement_add htwo, measure,
    Comparator.agreement_eq]
  simp [View.toList, List.drop_drop]

/-- A candidate improves exactly if it shares more bytes than the best so far. -/
theorem improve?_eq {h : Hunt} {best candidate : Nat} (hbest : 1 ≤ best) (hcap : 2 ≤ h.cap) :
    h.improve? best candidate =
      if best < h.shared candidate then some (h.shared candidate) else none := by
  unfold improve?
  by_cases hlt : best < h.shared candidate
  · have h0 : samePair ⟨h.bytes, candidate⟩ ⟨h.bytes, h.current⟩ 0 = true :=
      samePair_of_lt_shared (by omega)
    have h1 : samePair ⟨h.bytes, candidate⟩ ⟨h.bytes, h.current⟩ (best - 1) = true :=
      samePair_of_lt_shared (by omega)
    simp only [h0, h1, Bool.and_self, if_true, measure_eq_shared hcap h0]
  · simp only [hlt, if_false]
    split
    · rename_i hp
      rw [Bool.and_eq_true] at hp
      rw [measure_eq_shared hcap hp.2, if_neg hlt]
    · rfl

/-! ### Walking in a circle -/

/-- The candidates `seen` lead to `candidate`: each is behind the current
position, shares no more than `best` bytes, and is linked to another of them or
to `candidate`, within reach. -/
def Trail (h : Hunt) (best : Nat) (seen : List Nat) (candidate : Nat) : Prop :=
  ∀ c ∈ seen, c < h.current ∧ h.shared c ≤ best ∧
    ∃ next, h.links.next? c = some next ∧ h.floor < next ∧ (next ∈ seen ∨ next = candidate)

/-- A walk that has come back to a candidate of its trail finds nothing more. -/
theorem walk_of_mem_trail {h : Hunt} {best candidate : Nat} {seen : List Nat}
    (hbest : 1 ≤ best) (hcap : 2 ≤ h.cap) (ht : h.Trail best seen candidate)
    (hmem : candidate ∈ seen) (position : Option Nat) (budget : Nat) :
    ∀ c ∈ seen, h.walk budget best position c = (best, position) := by
  induction budget with
  | zero => exact fun _ _ => rfl
  | succ n ih =>
    intro c hc
    obtain ⟨hlt, hshared, next, hnext, hfloor, hin⟩ := ht c hc
    have hseen : next ∈ seen := by
      rcases hin with hin | rfl
      · exact hin
      · exact hmem
    rw [walk, if_neg (by omega), improve?_eq hbest hcap, if_neg (by omega)]
    simp only [hnext, hfloor, if_true]
    split
    · exact ih next hseen
    · rfl

theorem Trail.cons {h : Hunt} {best best' candidate next : Nat} {seen : List Nat}
    (ht : h.Trail best seen candidate) (hle : best ≤ best') (hlt : candidate < h.current)
    (hshared : h.shared candidate ≤ best') (hnext : h.links.next? candidate = some next)
    (hfloor : h.floor < next) : h.Trail best' (candidate :: seen) next := by
  intro c hc
  rcases List.mem_cons.mp hc with rfl | hc
  · exact ⟨hlt, hshared, next, hnext, hfloor, .inr rfl⟩
  · obtain ⟨h1, h2, other, h3, h4, h5⟩ := ht c hc
    refine ⟨h1, by omega, other, h3, h4, .inl ?_⟩
    rcases h5 with h5 | rfl
    · exact List.mem_cons_of_mem _ h5
    · exact List.mem_cons_self

theorem mem_table_of_next? {l : Links} {pos next : Nat} (h : l.next? pos = some next) :
    next ∈ l.table.toList := by
  unfold Links.next? at h
  obtain ⟨hlt, rfl⟩ := Array.getElem?_eq_some_iff.mp h
  exact Array.getElem_mem_toList hlt

/-- After the candidates it has seen, a walk needs no more budget than the rest of
the round. -/
theorem walk_min_rest {h : Hunt} (hcap : 2 ≤ h.cap) (head budget : Nat) :
    ∀ {best candidate : Nat} {position : Option Nat} {seen : List Nat}, 1 ≤ best →
      seen.Nodup → (∀ c ∈ seen, c ∈ head :: h.links.table.toList) →
      candidate ∈ head :: h.links.table.toList → h.Trail best seen candidate →
      h.walk (min budget (h.round - seen.length)) best position candidate =
        h.walk budget best position candidate := by
  induction budget with
  | zero => simp
  | succ n ih =>
    intro best candidate position seen hbest hnodup hsub hcand ht
    by_cases hmem : candidate ∈ seen
    · rw [walk_of_mem_trail hbest hcap ht hmem _ _ _ hmem,
        walk_of_mem_trail hbest hcap ht hmem _ _ _ hmem]
    · have hnodup' : (candidate :: seen).Nodup := List.nodup_cons.mpr ⟨hmem, hnodup⟩
      have hsub' : ∀ c ∈ candidate :: seen, c ∈ head :: h.links.table.toList := by
        intro c hc
        rcases List.mem_cons.mp hc with rfl | hc
        · exact hcand
        · exact hsub c hc
      have hlen := (hnodup'.subperm hsub').length_le
      simp only [List.length_cons, Array.length_toList] at hlen
      have hround : h.round - seen.length = h.round - (candidate :: seen).length + 1 := by
        simp only [round, List.length_cons]; omega
      rw [hround, Nat.add_min_add_right, walk, walk]
      split
      · rfl
      · rename_i hlt
        rw [improve?_eq hbest hcap]
        have hgo : ∀ {best' next : Nat} {position' : Option Nat}, best ≤ best' →
            h.shared candidate ≤ best' → h.links.next? candidate = some next → h.floor < next →
            h.walk (min n (h.round - (candidate :: seen).length)) best' position' next =
              h.walk n best' position' next := by
          intro best' next position' hle hshared hnext hfloor
          exact ih (Nat.le_trans hbest hle) hnodup' hsub'
            (List.mem_cons_of_mem _ (mem_table_of_next? hnext))
            (ht.cons hle (by omega) hshared hnext hfloor)
        by_cases himp : best < h.shared candidate
        · simp only [himp, if_true]
          split
          · rfl
          · split
            · rename_i next hnext
              split
              · exact hgo (by omega) (Nat.le_refl _) hnext (by assumption)
              · rfl
            · rfl
        · simp only [himp, if_false]
          split
          · split
            · rename_i next hnext
              split
              · exact hgo (Nat.le_refl _) (by omega) hnext (by assumption)
              · rfl
            · rfl
          · rfl

/-- A budget of one round finds all that a larger budget finds. -/
theorem walk_min_round {h : Hunt} (hcap : 2 ≤ h.cap) {best : Nat} (hbest : 1 ≤ best)
    (budget : Nat) (position : Option Nat) (head : Nat) :
    h.walk (min budget h.round) best position head = h.walk budget best position head := by
  have ht : h.Trail best [] head := fun c hc => absurd hc List.not_mem_nil
  exact walk_min_rest hcap head budget hbest List.nodup_nil (by simp) List.mem_cons_self ht

end Hunt

/-- A search finds what a walk with its whole budget finds. -/
theorem longest_eq_walk (comparator : Comparator) (bytes : Array UInt8) (links : Links)
    (current head : Nat) (p : Params) (hcap : p.baseline < p.cap) (hhead : head < current)
    (hdist : current - head ≤ p.maxDistance) :
    longest comparator bytes links current head p =
      let found := Hunt.walk
        { comparator, bytes, links, current
          cap := p.cap
          nice := min p.niceLength p.cap
          floor := current - p.maxDistance
          patient := patientLevel ≤ p.level } p.budget p.baseline none head
      ⟨min found.1 p.cap, found.2⟩ := by
  have hbase : 1 ≤ p.baseline := Nat.le_max_left _ _
  unfold longest
  rw [if_neg (by omega)]
  simp only
  rw [Hunt.walk_min_round (by simp only; omega) hbase]

end Backref.Search
