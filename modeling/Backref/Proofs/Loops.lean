/-
# What one iteration keeps, a whole run keeps

Both loops move a position forward until it reaches the end of the block. A `Loop`
is what they have in common, and each fact about runs is proved once for it: an
invariant of one iteration holds at the end, what the iterations emit is appended
in order, a loop that stays within the block ends after at most as many iterations as
it has bytes, and two loops that take the same steps while the tokens end before an
offset emit the same tokens up to it.

Key definitions: `Parse.Loop`, `Parse.Loop.run`, `Parse.Loop.collect`,
`Parse.Loop.Advances`, `Parse.Lockstep`, `Parse.Greedy.loop`, `Parse.Lazy.loop`.
Key theorems: `Parse.Loop.run_invariant`, `Parse.Loop.output_run`,
`Parse.Loop.countP_run`, `Parse.Loop.forall_mem_collect`, `Parse.Loop.advances_of_le`,
`Parse.Lockstep.run`.
-/
import Backref.Parse.Greedy
import Backref.Parse.Lazy

namespace Backref.Parse

/-- A loop that moves forward through a block. -/
structure Loop (σ : Type) where
  size : Nat
  pos : σ → Nat
  step : σ → σ
  pos_lt_step : ∀ st, pos st < pos (step st)

namespace Loop

variable {σ α : Type} {l : Loop σ} {st : σ}

def run (l : Loop σ) (st : σ) : σ :=
  if l.pos st < l.size then l.run (l.step st) else st
termination_by l.size - l.pos st
decreasing_by have := l.pos_lt_step st; omega

/-- What each iteration of a run adds, in order. -/
def collect (l : Loop σ) (adds : σ → List α) (st : σ) : List α :=
  if l.pos st < l.size then adds st ++ l.collect adds (l.step st) else []
termination_by l.size - l.pos st
decreasing_by have := l.pos_lt_step st; omega

theorem run_of_lt (h : l.pos st < l.size) : l.run st = l.run (l.step st) := by
  rw [run, if_pos h]

theorem run_of_le (h : l.size ≤ l.pos st) : l.run st = st := by
  rw [run, if_neg (Nat.not_lt.mpr h)]

theorem collect_of_lt (h : l.pos st < l.size) (adds : σ → List α) :
    l.collect adds st = adds st ++ l.collect adds (l.step st) := by
  rw [collect, if_pos h]

/-- **What every iteration keeps holds when the loop ends**, and it ends at the end of
the block. -/
theorem run_invariant {P : σ → Prop} (hstep : ∀ st, l.pos st < l.size → P st → P (l.step st))
    (h : P st) : P (l.run st) ∧ l.size ≤ l.pos (l.run st) := by
  fun_induction run l st with
  | case1 st hlt ih => exact ih (hstep st hlt h)
  | case2 st hge => exact ⟨h, Nat.le_of_not_lt hge⟩

/-- An output that every iteration appends to is appended to by a run, with what its
iterations add. -/
theorem output_run {P : σ → Prop} (output adds : σ → List α)
    (hkeep : ∀ st, l.pos st < l.size → P st → P (l.step st))
    (hadds : ∀ st, P st → output (l.step st) = output st ++ adds st) (h : P st) :
    output (l.run st) = output st ++ l.collect adds st := by
  fun_induction run l st with
  | case1 st hlt ih =>
    rw [ih (hkeep st hlt h), hadds st h, List.append_assoc, collect_of_lt hlt]
  | case2 st hge => rw [collect, if_neg hge, List.append_nil]

/-- An output that only grows is an initial part of the output of a run. -/
theorem output_isPrefix {output : σ → List α} (hgrow : ∀ st, output st <+: output (l.step st))
    (st : σ) : output st <+: output (l.run st) :=
  (run_invariant (P := fun last => output st <+: output last)
    (fun last _ h => h.trans (hgrow last)) (List.prefix_refl _)).1

/-- A counter that every iteration raises by the number of things of one kind that it adds is
raised by a run by the number of them that all its iterations add. -/
theorem countP_run (p : α → Bool) (counter : σ → Nat) (adds : σ → List α)
    (h : ∀ st, counter (l.step st) = counter st + (adds st).countP p) (st : σ) :
    counter (l.run st) = counter st + (l.collect adds st).countP p := by
  fun_induction run l st with
  | case1 st hlt ih => rw [ih, h st, collect_of_lt hlt, List.countP_append, Nat.add_assoc]
  | case2 st hge => rw [collect, if_neg hge, List.countP_nil, Nat.add_zero]

/-- Where an iteration adds no more than one thing, a run adds no more than there are bytes
ahead. -/
theorem length_collect_le (adds : σ → List α) (h : ∀ st, (adds st).length ≤ 1) (st : σ) :
    (l.collect adds st).length ≤ l.size - l.pos st := by
  fun_induction run l st with
  | case1 st hlt ih =>
    have hforward := l.pos_lt_step st
    have hone := h st
    rw [collect_of_lt hlt, List.length_append]
    omega
  | case2 st hge =>
    rw [collect, if_neg hge]
    exact Nat.zero_le _

/-- **Everything that a run adds is allowed**, if every iteration keeps an invariant under
which what it adds is allowed. -/
theorem forall_mem_collect {P : σ → Prop} {Q : α → Prop} {adds : σ → List α}
    (hkeep : ∀ st, l.pos st < l.size → P st → P (l.step st))
    (hadds : ∀ st, P st → ∀ x ∈ adds st, Q x) (h : P st) : ∀ x ∈ l.collect adds st, Q x := by
  intro x hx
  fun_induction run l st with
  | case1 st hlt ih =>
    rw [collect_of_lt hlt] at hx
    rcases List.mem_append.mp hx with hfirst | hlater
    · exact hadds st h x hfirst
    · exact ih (hkeep st hlt h) hlater
  | case2 st hge =>
    rw [collect, if_neg hge] at hx
    cases hx

def positions (l : Loop σ) (st : σ) : List Nat := l.collect (fun st => [l.pos st]) st

theorem positions_of_lt (h : l.pos st < l.size) :
    l.positions st = l.pos st :: l.positions (l.step st) :=
  collect_of_lt h _

theorem positions_of_le (h : l.size ≤ l.pos st) : l.positions st = [] := by
  rw [positions, collect, if_neg (Nat.not_lt.mpr h)]

/-- Each iteration of a run moves forward, the run ends exactly at the end of the block,
and it has no more iterations than the block has bytes. -/
structure Advances (l : Loop σ) (st : σ) : Prop where
  increasing : (l.positions st ++ [l.pos (l.run st)]).Pairwise (· < ·)
  ends : l.pos (l.run st) = l.size
  count : (l.positions st).length ≤ l.size

theorem mem_positions {p : Nat} (h : p ∈ l.positions st) : l.pos st ≤ p ∧ p < l.size := by
  fun_induction run l st with
  | case1 st hlt ih =>
    have hforward := l.pos_lt_step st
    rw [positions_of_lt hlt] at h
    rcases List.mem_cons.mp h with rfl | hmem
    · exact ⟨Nat.le_refl _, hlt⟩
    · have := ih hmem
      omega
  | case2 st hge =>
    rw [positions_of_le (Nat.le_of_not_lt hge)] at h
    cases h

theorem positions_increasing (l : Loop σ) (st : σ) : (l.positions st).Pairwise (· < ·) := by
  fun_induction run l st with
  | case1 st hlt ih =>
    have hforward := l.pos_lt_step st
    rw [positions_of_lt hlt]
    exact List.pairwise_cons.mpr ⟨fun p hp => by have := mem_positions hp; omega, ih⟩
  | case2 st hge =>
    rw [positions_of_le (Nat.le_of_not_lt hge)]
    exact List.Pairwise.nil

theorem length_positions_le (l : Loop σ) (st : σ) :
    (l.positions st).length ≤ l.size - l.pos st :=
  length_collect_le (fun st => [l.pos st]) (fun _ => Nat.le_refl 1) st

/-- **A loop that stays within the block advances to its end.** -/
theorem advances_of_le {P : σ → Prop}
    (hstep : ∀ st, l.pos st < l.size → P st → P (l.step st))
    (hle : ∀ st, P st → l.pos st ≤ l.size) (h : P st) : l.Advances st := by
  obtain ⟨hrun, hend⟩ := run_invariant hstep h
  have hends : l.pos (l.run st) = l.size := Nat.le_antisymm (hle _ hrun) hend
  refine ⟨?_, hends, ?_⟩
  · rw [hends]
    refine List.pairwise_append.mpr
      ⟨l.positions_increasing st, List.pairwise_singleton _ _, fun p hp q hq => ?_⟩
    rw [List.mem_singleton.mp hq]
    exact (mem_positions hp).2
  · exact Nat.le_trans (l.length_positions_le st) (Nat.sub_le _ _)

end Loop

/-! ### Two loops in lockstep -/

/-- Two loops take the same steps, as `R` tells it, while the tokens emitted so far end
before `stop`. -/
structure Lockstep {σ τ : Type} (l : Loop σ) (m : Loop τ) (output : σ → List Token)
    (output' : τ → List Token) (stop : Nat) (R : σ → τ → Prop) : Prop where
  same : ∀ {a b}, R a b → output' b = output a
  both : ∀ {a b}, R a b → Token.coveredAll (output a) < stop →
    (l.pos a < l.size ↔ m.pos b < m.size)
  step : ∀ {a b}, R a b → Token.coveredAll (output a) < stop → l.pos a < l.size →
    R (l.step a) (m.step b)

/-- **Two runs in lockstep stay in it to the end, or until they have emitted the same
tokens up to the offset.** -/
theorem Lockstep.run {σ τ : Type} {l : Loop σ} {m : Loop τ} {output : σ → List Token}
    {output' : τ → List Token} {stop : Nat} {R : σ → τ → Prop}
    (h : Lockstep l m output output' stop R)
    (hgrow : ∀ a, output a <+: output (l.step a))
    (hgrow' : ∀ b, output' b <+: output' (m.step b)) {a : σ} {b : τ} (hR : R a b) :
    R (l.run a) (m.run b) ∨
      ∃ common, stop ≤ Token.coveredAll common ∧ common <+: output (l.run a) ∧
        common <+: output' (m.run b) := by
  fun_induction Loop.run l a generalizing b with
  | case1 a hlt ih =>
    by_cases hstop : Token.coveredAll (output a) < stop
    · have hlt' := (h.both hR hstop).mp hlt
      rw [Loop.run_of_lt hlt']
      exact ih (h.step hR hstop hlt)
    · refine .inr ⟨output a, Nat.le_of_not_lt hstop, ?_, ?_⟩
      · exact (hgrow a).trans (Loop.output_isPrefix hgrow _)
      · rw [← h.same hR]
        exact Loop.output_isPrefix hgrow' b
  | case2 a hge =>
    by_cases hstop : Token.coveredAll (output a) < stop
    · have hge' := mt (h.both hR hstop).mpr hge
      rw [Loop.run_of_le (Nat.le_of_not_lt hge')]
      exact .inl hR
    · refine .inr ⟨output a, Nat.le_of_not_lt hstop, List.prefix_refl _, ?_⟩
      rw [← h.same hR]
      exact Loop.output_isPrefix hgrow' b

/-! ### The two loops of a parse -/

def Greedy.loop (s : Setup) : Loop Greedy.State where
  size := s.window.size
  pos := Greedy.State.pos
  step := Greedy.step s
  pos_lt_step := Greedy.pos_lt_step s

def Lazy.loop (s : Setup) : Loop Lazy.State where
  size := s.window.size
  pos := Lazy.State.pos
  step := Lazy.step s
  pos_lt_step := Lazy.pos_lt_step s

theorem Greedy.run_eq (s : Setup) (st : Greedy.State) : Greedy.run s st = (Greedy.loop s).run st := by
  fun_induction Greedy.run s st with
  | case1 st hlt ih => rw [ih, Loop.run_of_lt (l := Greedy.loop s) hlt]; rfl
  | case2 st hge => rw [Loop.run_of_le (l := Greedy.loop s) (Nat.le_of_not_lt hge)]

theorem Lazy.run_eq (s : Setup) (st : Lazy.State) : Lazy.run s st = (Lazy.loop s).run st := by
  fun_induction Lazy.run s st with
  | case1 st hlt ih => rw [ih, Loop.run_of_lt (l := Lazy.loop s) hlt]; rfl
  | case2 st hge => rw [Loop.run_of_le (l := Lazy.loop s) (Nat.le_of_not_lt hge)]

end Backref.Parse
