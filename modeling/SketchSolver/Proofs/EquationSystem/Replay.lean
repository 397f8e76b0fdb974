import SketchSolver.Proofs.EquationSystem.Totality

/-!
# Replaying a record

The record of an elimination can be replayed at any time, whatever system it comes from and wherever
the unknowns have moved since (`recover_replays`). In particular no two handles need be different:
an entry is for the unknown that its handle is resolved to.
-/

namespace SketchSolver.EquationSystem

section
variable [Scalar α]

/-- **A replay recovers a prefix.** Whatever system a record comes from and whatever values its
unknowns have got since, a replay of the record comes to an end and leaves the record as it is. It
recovers the unknowns of a prefix of the record and changes nothing else; it goes to the end of the
record, or stops at an unknown with a value that cannot be meant and answers with its equation. The
rounds of the record are gone through from the first one to the last, and the handles of each round
ascend. -/
theorem recover_replays (s : EquationSystem α) :
    ∃ rounds, s.eliminate.2.elimination = rounds ++ s.elimination ∧
      (∀ round ∈ rounds, HandleTable.Ascending round) ∧ (rounds.flatten.map Prod.fst).Nodup ∧
      ∀ t, Frame Anything { s.eliminate.2 with elimination := rounds } t →
        Yields t.recover fun r => r.2.elimination = rounds ∧
          ∃ before after, rounds.flatten = before ++ after ∧ Recovers before t r.2 ∧
            (∀ e ∈ after, ∃ i, t.position? e.1 = some i ∧ r.2.params[i]? = t.params[i]?) ∧
            Stops t r.2 r.1 after := by
  obtain ⟨round, rounds, hrec, hadded, -⟩ := s.exists_recorded_eliminate
  have hnodup : (rounds.flatten.map Prod.fst).Nodup := (hrec.withElimination rounds).handles_nodup
  refine ⟨rounds, hadded, fun r hr => hrec.ascending r (List.mem_cons_of_mem _ hr), hnodup,
    fun t hmoved => ?_⟩
  have helim : t.elimination = rounds := hmoved.elimination
  have hequations : t.equations = s.eliminate.2.equations := hmoved.equations
  have hsolvable : ∀ e ∈ rounds.flatten, t.Solvable e := by
    intro e he
    obtain ⟨i, ρ, hc⟩ := hrec.claimed_of_mem he
    obtain ⟨q, hq, -, -, hcan⟩ := hc.equation
    exact ⟨q, by rw [hequations]; exact hq, hcan⟩
  have hpos : ∀ e ∈ rounds.flatten, ∃ i, t.position? e.1 = some i := by
    intro e he
    obtain ⟨i, ρ, hc⟩ := hrec.claimed_of_mem he
    rw [position?_congr (hmoved.handles_eq.trans hrec.handles_eq)]
    exact ⟨i, hrec.position?_of_claimed hc⟩
  have horder := Layered.pairwise (s := { s.eliminate.2 with elimination := rounds })
    (hrec.withElimination rounds).layered
  rw [← hmoved.equations] at horder
  have hcan : ∀ e ∈ rounds.flatten, ∀ q, t.equations[e.2]? = some q →
      q.expr.fold.canIsolate e.1 = true := by
    intro e he q hq
    obtain ⟨q', hq', hcan⟩ := hsolvable e he
    obtain rfl := Option.some.inj (hq.symm.trans hq')
    exact hcan
  rw [← helim] at hsolvable hpos horder hcan hnodup ⊢
  refine (yields_recoverFrom hsolvable).and_of_eq_ok fun ⟨answer, t'⟩ hrun => ?_
  obtain ⟨before, after, hentries, hrecovers, hstops⟩ :=
    recovers_of_recoverFrom hnodup hcan hpos horder hrun
  refine ⟨by rw [hrecovers.rest], before, after, hentries, hrecovers, fun e he => ?_, hstops⟩
  obtain ⟨i, hi⟩ := hpos e (hentries ▸ List.mem_append_right _ he)
  refine ⟨i, hi, hrecovers.others i fun e' he' hi' => ?_⟩
  rw [hentries, List.map_append, List.nodup_append] at hnodup
  exact hnodup.2.2 e'.1 (List.mem_map_of_mem he') e.1 (List.mem_map_of_mem he)
    (eq_of_position? hi' hi)

end

/-- The chain after elimination, with a third unknown that is just too far away for the first one,
which is one more than its double. -/
def farChain : EquationSystem (Exact ℚ) :=
  chain.eliminate.2.updateParam 2 fun p => { p with value := .number 50000000000 }

/-- The second unknown is recovered, and the first one is not. -/
theorem recover_farChain : Frame Anything chain.eliminate.2 farChain ∧
    ∃ s', farChain.recover = .ok (.error ⟨.constraint ⟨1⟩, 0⟩, s') ∧
      s'.elimination = [[(⟨2⟩, 1)], [(⟨1⟩, 0)]] ∧ Recovers [(⟨2⟩, 1)] farChain s' ∧
      s'.params.map (·.value) =
        [.number 0, .number 100000000000, .number 50000000000, .number 0, .number 0] := by
  have hmoved : Frame Anything chain.eliminate.2 farChain :=
    .updateParam fun _ _ => ⟨rfl, rfl, rfl, rfl, fun hm => absurd trivial hm⟩
  have hrecord : chain.eliminate.2.elimination = [[(⟨2⟩, 1)], [(⟨1⟩, 0)]] := by decide +kernel
  have hsecond : (farChain.equations[1]?).map (·.handle) = some ⟨.constraint ⟨2⟩, 0⟩ := by
    decide +kernel
  have hresult : (farChain.recover.toOption.map fun (answer, s') =>
      (answer, s'.params.map (·.value))) = some (.error ⟨.constraint ⟨1⟩, 0⟩,
        [.number 0, .number 100000000000, .number 50000000000, .number 0, .number 0]) := by
    decide +kernel
  obtain ⟨rounds, hrounds, -, -, hreplays⟩ := recover_replays chain
  obtain rfl : chain.eliminate.2.elimination = rounds :=
    hrounds.trans (List.append_nil rounds)
  obtain ⟨⟨answer, s'⟩, hrun, hkept, before, after, hentries, hrecovers, -, hstops⟩ :=
    hreplays farChain hmoved
  rw [hrun] at hresult
  simp only [Except.toOption, Option.map_some, Option.some.injEq, Prod.mk.injEq] at hresult
  obtain ⟨rfl, hvalues⟩ := hresult
  obtain ⟨e, rest, q, _, rfl, hqh, ⟨hq, _⟩, _⟩ := hstops
  rw [hrecord] at hentries
  -- The equation of the answer is the first one, so the entry of the second has been passed.
  obtain rfl : before = [(⟨2⟩, 1)] := by
    cases before with
    | nil =>
      cases hentries
      rw [hq, Option.map_some, hqh] at hsecond
      cases hsecond
    | cons e' before =>
      obtain ⟨rfl, hentries⟩ := List.cons.inj hentries
      cases before with
      | nil => rfl
      | cons _ _ => simp at hentries
  exact ⟨hmoved, s', hrun, hkept.trans hrecord, hrecovers, hvalues⟩

end SketchSolver.EquationSystem
