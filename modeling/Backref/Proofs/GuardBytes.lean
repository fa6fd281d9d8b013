/-
# The guard bytes are never noticed

A window keeps zero bytes behind its data, so that words can be read near the end. A
chain reads zero past the end of whatever bytes it is given, so every position has the
same bucket with the guard bytes and without, whether it lies before the end, among
them or behind them; and a search that is told how many bytes lie ahead compares none
past the data, or none at all. So each operation on a chain has the same answer and
leaves the same chain, and by induction so does every sequence of them.

Key definitions: `Session.Operation.LooksAhead`, `Session.Alike`.
Key theorems: `HashChain.hashAt_guarded`, `Search.longest_guarded`, `Session.perform_alike`,
`Session.performAll_alike`, `Session.guard_bytes_unnoticed`.
-/
import Backref.Proofs.Matches
import Backref.Session

namespace Backref

/-- A block that 32-bit positions address has a window, its data with the guard bytes
behind. -/
theorem Window.exists_ofData {data : Array UInt8} {bits : Nat}
    (hsize : data.size ≤ maxPosition - guardSize) (hbits : windowBitsLimits.Admits bits) :
    ∃ w : Window, ofData data bits = .ok w ∧ w.data = data ∧
      w.guarded = data ++ Array.replicate guardSize 0 :=
  ⟨⟨data, bits, _, hbits, hsize, rfl⟩, by rw [ofData, dif_pos hbits, dif_pos hsize], rfl, rfl⟩

/-! ### The bytes a chain reads -/

namespace HashChain

variable (c : HashChain) (w : Window) (pos : Nat)

/-- A guard byte reads like a byte that is not there. -/
theorem byteAt_guarded : byteAt w.guarded pos = byteAt w.data pos := by
  unfold byteAt
  rw [w.getElem?_guarded]
  by_cases hin : pos < w.data.size
  · rw [if_pos hin]
  · have hnone : w.data[pos]? = none := Array.getElem?_eq_none (Nat.le_of_not_lt hin)
    rw [if_neg hin, hnone]
    split <;> rfl

theorem hashAt_guarded : c.hashAt w.guarded pos = c.hashAt w.data pos := by
  simp only [hashAt, byteAt_guarded]

theorem headOf_guarded : c.headOf w.guarded pos = c.headOf w.data pos := by
  rw [headOf, headOf, hashAt_guarded]

theorem insert_guarded : c.insert w.guarded pos = c.insert w.data pos :=
  insert_congr (c.hashAt_guarded w pos)

end HashChain

/-! ### The bytes a search compares -/

/-- A search that is told of the bytes ahead finds the same. At a position past the end
there are none, and it does not look. -/
theorem Search.longest_guarded (comparator : Comparator) (w : Window) (links : Links)
    (current head : Nat) {p : Params} (hahead : p.lookahead = w.lookahead current) :
    longest comparator w.guarded links current head p =
      longest comparator w.data links current head p := by
  have hcap : p.cap ≤ w.size - current := by
    rw [Params.cap, hahead]
    exact Nat.min_le_right _ _
  by_cases hin : current ≤ w.size
  · apply longest_congr
    intro i hi
    exact Window.getElem?_guarded_of_lt (by omega)
  · have hclosed : ¬ p.Opens current head := by
      rintro ⟨hroom, -⟩
      omega
    rw [longest_of_not_opens hclosed, longest_of_not_opens hclosed]

/-! ### Operations on one chain -/

namespace Session

/-- A search is told how many bytes of the block lie ahead; of the other operations nothing
is asked. -/
def Operation.LooksAhead (w : Window) : Operation → Prop
  | search _ pos _ params => params.lookahead = w.lookahead pos
  | _ => True

theorem perform_insert (s : Session) (pos : Nat) :
    s.perform (.insert pos) =
      (.number (s.chain.insert s.bytes pos).1, ⟨s.bytes, (s.chain.insert s.bytes pos).2⟩) := rfl

theorem performAll_cons (s : Session) (op : Operation) (ops : List Operation) :
    s.performAll (op :: ops) =
      ((s.perform op).1 :: ((s.perform op).2.performAll ops).1,
        ((s.perform op).2.performAll ops).2) := rfl

/-- Two sessions on one block, the first over the data with its guard bytes and the second
over the data alone, have come to the same chain. -/
structure Alike (w : Window) (a b : Session) : Prop where
  guarded : a.bytes = w.guarded
  bare : b.bytes = w.data
  chain : a.chain = b.chain

variable {w : Window} {a b : Session}

/-- **One operation has the same answer in both sessions**, and keeps them alike. -/
theorem perform_alike (h : Alike w a b) {op : Operation} (hop : op.LooksAhead w) :
    (a.perform op).1 = (b.perform op).1 ∧ Alike w (a.perform op).2 (b.perform op).2 := by
  obtain ⟨bytes, chain⟩ := a
  obtain ⟨bytes', chain'⟩ := b
  obtain ⟨hguarded, hbare, hchain⟩ := h
  simp only at hguarded hbare hchain
  subst hguarded hbare hchain
  have hstill (chain : HashChain) : Alike w ⟨w.guarded, chain⟩ ⟨w.data, chain⟩ := ⟨rfl, rfl, rfl⟩
  cases op with
  | insert pos =>
    rw [perform_insert, perform_insert, chain.insert_guarded w pos]
    exact ⟨rfl, hstill _⟩
  | headOf pos => exact ⟨congrArg Answer.number (chain.headOf_guarded w pos), hstill _⟩
  | hashAt pos => exact ⟨congrArg Answer.number (chain.hashAt_guarded w pos), hstill _⟩
  | next pos => exact ⟨rfl, hstill _⟩
  | search comparator pos head params =>
    have hsame := Search.longest_guarded comparator w chain.view pos head hop
    exact ⟨congrArg Answer.outcome hsame, hstill _⟩
  | clear => exact ⟨rfl, hstill _⟩

/-- **A sequence of operations has the same answers in both sessions**, and keeps them
alike. -/
theorem performAll_alike (h : Alike w a b) {ops : List Operation}
    (hops : ∀ op ∈ ops, op.LooksAhead w) :
    (a.performAll ops).1 = (b.performAll ops).1 ∧
      Alike w (a.performAll ops).2 (b.performAll ops).2 := by
  induction ops generalizing a b with
  | nil => exact ⟨rfl, h⟩
  | cons op ops ih =>
    obtain ⟨hanswer, hnext⟩ := perform_alike h (hops op List.mem_cons_self)
    obtain ⟨hanswers, hlast⟩ := ih hnext fun op hop => hops op (List.mem_cons_of_mem _ hop)
    rw [performAll_cons, performAll_cons, hanswer, hanswers]
    exact ⟨rfl, hlast⟩

/-- **The guard bytes are never noticed.** A block that 32-bit positions address has a window,
and a chain over it; and whatever is asked of the chain or changed in it, in any order, at
positions before the end or past it, all answers are the same over the data with its guard
bytes as over the data alone, and so is the chain that is left. -/
theorem guard_bytes_unnoticed {data : Array UInt8} {bits hashBits : Nat}
    (hsize : data.size ≤ maxPosition - guardSize) (hbits : windowBitsLimits.Admits bits)
    (hhash : hashBitsLimits.Admits hashBits) :
    ∃ (w : Window) (chain : HashChain),
      (Window.ofData data bits = .ok w ∧ w.data = data ∧
        w.guarded = data ++ Array.replicate guardSize 0) ∧
      HashChain.empty? bits hashBits = some chain ∧
      ∀ ops, (∀ op ∈ ops, Operation.LooksAhead w op) →
        (performAll ⟨w.guarded, chain⟩ ops).1 = (performAll ⟨w.data, chain⟩ ops).1 ∧
          Alike w (performAll ⟨w.guarded, chain⟩ ops).2 (performAll ⟨w.data, chain⟩ ops).2 := by
  obtain ⟨w, hwindow⟩ := Window.exists_ofData hsize hbits
  have hchain : HashChain.empty? bits hashBits = some (.empty bits hashBits) := if_pos hhash
  refine ⟨w, _, hwindow, hchain, fun ops hops => ?_⟩
  have hstart : Alike w ⟨w.guarded, .empty bits hashBits⟩ ⟨w.data, .empty bits hashBits⟩ :=
    ⟨rfl, rfl, rfl⟩
  exact performAll_alike hstart hops

/-- Positions out of order, among the guard bytes and behind them, and searches from there
and within a run of zeros that the guard bytes go on. -/
theorem guard_bytes_unnoticed_past_end :
    let data : Array UInt8 := #[7, 0, 0, 0, 0, 0]
    let params (ahead : Nat) : Search.Params := ⟨16, 8, 258, 250, ahead, 9, 0⟩
    let ops : List Operation :=
      [.insert 9, .insert 1, .insert 40, .insert 2, .next 9, .headOf 5, .hashAt 6,
        .search .wordwise 2 1 (params 4), .search .bytewise 8 1 (params 0), .clear, .headOf 2]
    (data.size ≤ maxPosition - guardSize ∧ windowBitsLimits.Admits 9 ∧
        hashBitsLimits.Admits 12) ∧
      ∃ (w : Window) (chain : HashChain),
        (Window.ofData data 9 = .ok w ∧ w.data = data ∧
          w.guarded = data ++ Array.replicate guardSize 0) ∧
        HashChain.empty? 9 12 = some chain ∧
        (∀ op ∈ ops, op.LooksAhead w) ∧
        (performAll ⟨w.guarded, chain⟩ ops).1 = (performAll ⟨w.data, chain⟩ ops).1 := by
  intro data params ops
  have hsize : data.size ≤ maxPosition - guardSize := by decide
  have hbits : windowBitsLimits.Admits 9 := by decide
  have hhash : hashBitsLimits.Admits 12 := by decide
  obtain ⟨w, chain, hw, hchain, hsame⟩ := guard_bytes_unnoticed hsize hbits hhash
  have hops : ∀ op ∈ ops, op.LooksAhead w := by
    have hdata : w.data = data := hw.2.1
    simp [ops, params, Operation.LooksAhead, Window.lookahead, hdata, data]
  exact ⟨⟨hsize, hbits, hhash⟩, w, chain, hw, hchain, hops, (hsame ops hops).1⟩

end Session

end Backref
