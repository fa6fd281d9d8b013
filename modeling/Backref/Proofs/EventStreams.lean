/-
# A tally depends on its tokens and on its searches alone

A tally is fed searches and tokens in any order. What it says of the tokens is what their
list amounts to, and what it says of the searches is how many there were and how many of
them found something new; so two sequences of events with the same tokens and the same
searches have the same counters and the same fingerprint, however they are interleaved.
With counters of 64 bits the tally has a value exactly as long as its six totals are such
numbers, since no counter ever goes back.

Key definitions: `Event.token?`, `Event.search?`, `Checked.record`, `Checked.ofEvents`.
Key theorems: `Tally.recordAll_ofTokens`, `Stats.ofEvents_eq`, `Checked.ofEvents_eq_ok_iff`,
`Stats.ofEvents_outcome`.
-/
import Backref.Proofs.Checked.Basic
import Backref.Proofs.Counts
import Backref.Proofs.Merging

namespace Backref

namespace Event

def token? : Event → Option Token
  | search _ => none
  | token t => some t

def search? : Event → Option Bool
  | search improved => some improved
  | token _ => none

end Event

/-! ### The two streams -/

/-- Further events add their tokens to the tokens and their searches to the searches. -/
theorem Tally.recordAll_ofTokens (events : List Event) :
    ∀ (tokens : List Token) (searches improved : Nat),
      (ofTokens tokens searches improved).recordAll events =
        ofTokens (tokens ++ events.filterMap Event.token?)
          (searches + (events.filterMap Event.search?).length)
          (improved + (events.filterMap Event.search?).count true) := by
  induction events with
  | nil =>
    intro tokens searches improved
    rw [List.filterMap_nil, List.filterMap_nil, List.append_nil]
    rfl
  | cons e es ih =>
    intro tokens searches improved
    cases e with
    | search new =>
      have htokens : (Event.search new :: es).filterMap Event.token? =
          es.filterMap Event.token? := rfl
      have hfound : (Event.search new :: es).filterMap Event.search? =
          new :: es.filterMap Event.search? := rfl
      have hcount : improved + new.toNat + (es.filterMap Event.search?).count true =
          improved + (new :: es.filterMap Event.search?).count true := by
        cases new with
        | false => rfl
        | true =>
          rw [List.count_cons_self, Bool.toNat_true]
          omega
      calc (ofTokens tokens searches improved).recordAll (.search new :: es)
          = ((ofTokens tokens searches improved).recordSearch new).recordAll es := rfl
        _ = _ := by
            rw [recordSearch_ofTokens, ih, hcount, htokens, hfound, List.length_cons,
              Nat.add_assoc, Nat.add_comm 1]
    | token t =>
      have htokens : (Event.token t :: es).filterMap Event.token? =
          t :: es.filterMap Event.token? := rfl
      have hfound : (Event.token t :: es).filterMap Event.search? =
          es.filterMap Event.search? := rfl
      calc (ofTokens tokens searches improved).recordAll (.token t :: es)
          = ((ofTokens tokens searches improved).recordToken t).recordAll es := rfl
        _ = _ := by
            rw [recordToken_ofTokens, ih, htokens, hfound, List.append_assoc,
              List.singleton_append]

/-- **The counters of some events are those of their tokens and their searches.** -/
theorem Stats.ofEvents_eq (events : List Event) :
    ofEvents events =
      ofTokens (events.filterMap Event.token?) (events.filterMap Event.search?).length
        ((events.filterMap Event.search?).count true) := by
  have hempty : Tally.empty = .ofTokens [] 0 0 := rfl
  rw [ofEvents, hempty, Tally.recordAll_ofTokens, Tally.stats_ofTokens, List.nil_append,
    Nat.zero_add, Nat.zero_add]

/-! ### Counters of 64 bits -/

/-- Nothing that is recorded makes a counter fit. -/
theorem Tally.fits_of_record {t : Tally} {e : Event} (h : (t.record e).counters.Fits) :
    t.counters.Fits := by
  obtain ⟨h1, h2, h3, h4, h5, h6⟩ := h
  cases e with
  | search new =>
    refine ⟨h1, h2, h3, h4, Nat.le_of_succ_le h5, Nat.le_trans ?_ h6⟩
    cases new
    · exact Nat.le_refl _
    · exact Nat.le_succ _
  | token token =>
    cases token with
    | literal byte => exact ⟨Nat.le_of_succ_le h1, Nat.le_of_succ_le h2, h3, h4, h5, h6⟩
    | copy length distance =>
      exact ⟨Nat.le_trans (Nat.le_add_right _ _) h1, h2, Nat.le_of_succ_le h3,
        Nat.le_trans (Nat.le_add_right _ _) h4, h5, h6⟩

theorem Tally.fits_of_recordAll {events : List Event} {t : Tally}
    (h : (t.recordAll events).counters.Fits) : t.counters.Fits := by
  induction events generalizing t with
  | nil => exact h
  | cons e es ih => exact fits_of_record (ih h)

theorem Tally.fits_stats (t : Tally) : t.stats.Fits ↔ t.counters.Fits := by
  simp only [Stats.fits_iff, stats]

namespace Checked

def record (t : Tally) (e : Event) : Checked Tally := do
  atMost maxCounter (t.record e).counters.bytes
  atMost maxCounter (t.record e).counters.literals
  atMost maxCounter (t.record e).counters.copies
  atMost maxCounter (t.record e).counters.copiedBytes
  atMost maxCounter (t.record e).counters.searches
  atMost maxCounter (t.record e).counters.improved
  .ok (t.record e)

def ofEvents (events : List Event) : Checked Stats := do
  let t ← events.foldlM record .empty
  .ok t.stats

/-- An event is counted exactly if the counters fit afterwards. -/
theorem record_eq_ok_iff {t next : Tally} {e : Event} :
    record t e = .ok next ↔ (t.record e).counters.Fits ∧ next = t.record e := by
  have hcheck {n : Nat} {u : Unit} : atMost maxCounter n = .ok u ↔ n ≤ maxCounter :=
    require_eq_ok_iff
  simp only [record, bind_eq_ok_iff, hcheck, exists_const, Except.ok.injEq, Stats.fits_iff]
  tauto

theorem foldlM_record_eq_ok_iff (events : List Event) :
    ∀ {t last : Tally}, t.counters.Fits →
      (events.foldlM record t = .ok last ↔
        (t.recordAll events).counters.Fits ∧ last = t.recordAll events) := by
  induction events with
  | nil =>
    intro t last ht
    rw [List.foldlM_nil]
    exact ⟨fun h => ⟨ht, (Except.ok.inj h).symm⟩, fun h => congrArg Except.ok h.2.symm⟩
  | cons e es ih =>
    intro t last ht
    rw [List.foldlM_cons, bind_eq_ok_iff]
    constructor
    · rintro ⟨next, hnext, hlast⟩
      obtain ⟨hfits, rfl⟩ := record_eq_ok_iff.mp hnext
      exact (ih hfits).mp hlast
    · rintro ⟨hfits, rfl⟩
      have hnext : (t.record e).counters.Fits := Tally.fits_of_recordAll hfits
      exact ⟨_, record_eq_ok_iff.mpr ⟨hnext, rfl⟩, (ih hnext).mpr ⟨hfits, rfl⟩⟩

/-- **A tally of 64-bit counters has a value exactly as long as its totals fit.** -/
theorem ofEvents_eq_ok_iff (events : List Event) (s : Stats) :
    ofEvents events = .ok s ↔ (Stats.ofEvents events).Fits ∧ s = Stats.ofEvents events := by
  have hempty : Tally.empty.counters.Fits := by constructor <;> exact Nat.zero_le _
  rw [ofEvents, bind_eq_ok_iff, Stats.ofEvents, Tally.fits_stats]
  constructor
  · rintro ⟨t, ht, hs⟩
    obtain ⟨hlast, rfl⟩ := (foldlM_record_eq_ok_iff events hempty).mp ht
    exact ⟨hlast, (Except.ok.inj hs).symm⟩
  · rintro ⟨hlast, rfl⟩
    exact ⟨_, (foldlM_record_eq_ok_iff events hempty).mpr ⟨hlast, rfl⟩, rfl⟩

end Checked

/-- **A tally depends on its tokens and on its searches alone**, however they are
interleaved: it counts the tokens and the bytes they cover, keeps the longest copy, counts
the searches and those that found something new, and its fingerprint is that of the list
of tokens. With counters of 64 bits it has this value as long as the totals fit, and
otherwise none. -/
theorem Stats.ofEvents_outcome (events : List Event) :
    let tokens := events.filterMap Event.token?
    let found := events.filterMap Event.search?
    let s := ofEvents events
    (s.bytes = s.literals + s.copiedBytes ∧ s.bytes = Token.coveredAll tokens) ∧
    (s.literals = tokens.countP Token.isLiteral ∧
      s.copies = (Token.copyLengths tokens).length ∧
      s.copiedBytes = (Token.copyLengths tokens).sum ∧
      s.longest = (Token.copyLengths tokens).foldl max 0) ∧
    (s.searches = found.length ∧ s.improved = found.count true ∧ s.improved ≤ s.searches) ∧
    s.fingerprint = Backref.fingerprint tokens ∧
    (∀ others, others.filterMap Event.token? = tokens → others.filterMap Event.search? = found →
      ofEvents others = s) ∧
    ∀ counted, Checked.ofEvents events = .ok counted ↔ s.Fits ∧ counted = s := by
  intro tokens found s
  have hs : s = ofTokens tokens found.length (found.count true) := ofEvents_eq events
  have hcovered := Token.countP_isLiteral_add_sum tokens
  refine ⟨?_, ?_, ?_, ?_, ?_, Checked.ofEvents_eq_ok_iff events⟩
  · rw [hs]
    exact ⟨hcovered.symm, rfl⟩
  · rw [hs]
    exact ⟨rfl, rfl, rfl, rfl⟩
  · rw [hs]
    exact ⟨rfl, rfl, List.count_le_length⟩
  · rw [hs]
    rfl
  · intro others htokens hfound
    rw [hs, ofEvents_eq, htokens, hfound]

end Backref
