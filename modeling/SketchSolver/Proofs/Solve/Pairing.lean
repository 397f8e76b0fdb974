import SketchSolver.Proofs.Solve.Preparation

/-!
# Unknowns and their equations

The passes before the main iteration settle unknowns and equations in pairs. An equation solved
alone is set aside together with the unknown it fixes, so there are as many of the one kind as of
the other, and every such unknown has its equation (`Paired`). Elimination does the same, and
records the pair.

So where nothing is substituted, what is left has lost as many unknowns as equations
(`Prepared.balance`).
-/

namespace SketchSolver

/-! ## Counting -/

/-- Pointwise related lists have as many elements of a kind, if related elements are of the kind
together. -/
theorem countP_eq_of_forall₂ {R : β → γ → Prop} {p : β → Bool} {q : γ → Bool}
    (hR : ∀ x y, R x y → p x = q y) :
    ∀ {l : List β} {m : List γ}, List.Forall₂ R l m → l.countP p = m.countP q
  | _, _, .nil => rfl
  | _, _, .cons hxy hrest => by
    rw [List.countP_cons, List.countP_cons, countP_eq_of_forall₂ hR hrest, hR _ _ hxy]

/-- Lists of different elements with the same elements have one length. -/
theorem length_eq_of_nodup {l m : List β} (hl : l.Nodup) (hm : m.Nodup)
    (hiff : ∀ x, x ∈ l ↔ x ∈ m) : l.length = m.length :=
  ((List.perm_ext_iff_of_nodup hl hm).2 hiff).length_eq

/-- Every unknown is in one of the four states. -/
theorem length_params_eq (ps : List (Param α)) :
    ps.length = ps.countP (·.state == .live) + ps.countP (·.state == .substituted) +
      ps.countP (·.state == .solvedAlone) + ps.countP (·.state == .eliminated) := by
  induction ps with
  | nil => rfl
  | cons p ps ih =>
    simp only [List.length_cons, List.countP_cons, ih]
    cases p.state <;> simp <;> omega

/-- Every equation is in one of the four states. -/
theorem length_equations_eq (qs : List (Equation α)) :
    qs.length = qs.countP (·.state == .live) + qs.countP (·.state == .satisfied) +
      qs.countP (·.state == .solvedAlone) + qs.countP (·.state == .eliminated) := by
  induction qs with
  | nil => rfl
  | cons q qs ih =>
    simp only [List.length_cons, List.countP_cons, ih]
    cases q.state <;> simp <;> omega

namespace EquationSystem

variable {s s' start : EquationSystem α} {h : ParamHandle} {i k stage : Nat}
  {moved : ParamState → Nat → Prop}

/-! ## Equations solved alone -/

/-- Every unknown solved alone has an equation that fixes it, and there are no more of these
equations than unknowns. -/
structure Paired (s : EquationSystem α) : Prop where
  exists_equation : ∀ p ∈ s.params, p.state = .solvedAlone →
    ∃ q ∈ s.equations, q.state = .solvedAlone ∧ q.expr.referenced s.isUnknown = .exactly p.handle
  count : s.params.countP (·.state == .solvedAlone) = s.equations.countP (·.state == .solvedAlone)

namespace Paired

/-- Nothing is solved alone, so nothing lacks its equation. -/
theorem initial (hparams : ∀ p ∈ s.params, p.state ≠ .solvedAlone)
    (hequations : ∀ q ∈ s.equations, q.state ≠ .solvedAlone) : Paired s where
  exists_equation p hp hstate := absurd hstate (hparams p hp)
  count := by
    have hnone : s.params.countP (·.state == .solvedAlone) = 0 :=
      List.countP_eq_zero.2 fun p hp => by simpa using hparams p hp
    rw [hnone, List.countP_eq_zero.2 fun q hq => by simpa using hequations q hq]

/-- What keeps the states of unknowns and the equations keeps the pairs. -/
theorem frame (hs : Paired s) (hf : Frame moved s s') : Paired s' where
  exists_equation p' hp' hstate := by
    obtain ⟨p, hp, hk⟩ := hf.kept_of_mem hp'
    rw [hf.equations, hf.isUnknown_eq, hk.handle]
    exact hs.exists_equation p hp (hk.state.symm.trans hstate)
  count := by
    rw [hf.equations, ← hs.count]
    exact (countP_eq_of_forall₂ (fun p p' hk => by rw [hk.state]) hf.params).symm

/-- Setting an equation aside with the unknown that it fixes makes one more pair. -/
theorem setAside {q : Equation α} (hs : Paired s) (hq : s.equations[k]? = some q)
    (hfix : s.fixedAlone? q = some (h, i)) : Paired (s.setAside k i stage) := by
  obtain ⟨hqlive, href, _, p, hp, rfl, hplive⟩ := fixedAlone?_eq_some hfix
  have hunknown : (s.setAside k i stage).isUnknown = s.isUnknown :=
    isUnknown_congr handles_setAside
  refine ⟨fun p' hp' hstate => ?_, ?_⟩
  · obtain ⟨j, hj⟩ := List.getElem?_of_mem hp'
    rw [hunknown]
    by_cases hij : i = j
    · subst hij
      rw [params_setAside_self hp] at hj
      cases hj
      exact ⟨_, List.mem_of_getElem? (equations_setAside_self hq), rfl, href⟩
    · rw [params_setAside_of_ne hij] at hj
      obtain ⟨q', hq', hqstate, href'⟩ :=
        hs.exists_equation p' (List.mem_of_getElem? hj) hstate
      obtain ⟨l, hl⟩ := List.getElem?_of_mem hq'
      have hkl : k ≠ l := by
        rintro rfl
        rw [hq] at hl
        cases hl
        rw [hqlive] at hqstate
        cases hqstate
      have hl₁ : (s.setAside k i stage).equations[l]? = some q' := by
        rw [equations_setAside_of_ne hkl, hl]
      exact ⟨q', List.mem_of_getElem? hl₁, hqstate, href'⟩
  · have hparams : (s.setAside k i stage).params.countP (·.state == .solvedAlone) =
        s.params.countP (·.state == .solvedAlone) + 1 :=
      countP_modify hp (by simp [hplive]) rfl
    have hequations : (s.setAside k i stage).equations.countP (·.state == .solvedAlone) =
        s.equations.countP (·.state == .solvedAlone) + 1 :=
      countP_modify hq (by simp [hqlive]) rfl
    rw [hparams, hequations, hs.count]

/-- The pass over a list of equations keeps the pairs, if none of them fails. -/
theorem solveAloneFrom [Scalar α] :
    ∀ {ks : List Nat} {stage : Nat} {s : EquationSystem α}, Paired s → s.HandlesDistinct →
      s.solveAloneFrom stage ks = .ok (true, s') → Paired s'
  | [], _, s, hs, _, hrun => by
    cases hrun
    exact hs
  | k :: ks, stage, s, hs, hd, hrun => by
    rw [EquationSystem.solveAloneFrom] at hrun
    split at hrun
    · exact solveAloneFrom hs hd hrun
    · next q hq =>
      split at hrun
      · exact solveAloneFrom hs hd hrun
      · next h i hfix =>
        obtain ⟨⟨solved, t⟩, hsolve, hrest⟩ := bind_eq_ok.1 hrun
        cases solved with
        | false => cases hrest
        | true =>
          obtain ⟨_, _, _, p, hp, rfl, _⟩ := fixedAlone?_eq_some hfix
          obtain ⟨hframe, _⟩ := solveAlone_setAside hd hq hp hsolve
          exact solveAloneFrom ((hs.setAside hq hfix).frame hframe)
            (hframe.handlesDistinct (hd.congr handles_setAside)) hrest

/-- Elimination keeps the pairs: what is solved alone is not live, so it is not eliminated. -/
theorem eliminated (hs : Paired start) (hhandles : s.params.map (·.handle) =
      start.params.map (·.handle)) (hparams : List.Forall₂ Param.Eliminates start.params s.params)
    (hequations : List.Forall₂ Equation.Eliminates start.equations s.equations) : Paired s where
  exists_equation p' hp' hstate := by
    obtain ⟨p, hp, hrel⟩ := forall₂_mem_of hparams hp'
    obtain rfl := hrel.eq_of_ne_eliminated (by simp [hstate])
    obtain ⟨q, hq, hqstate, href⟩ := hs.exists_equation p' hp hstate
    obtain ⟨q', hq', hrel'⟩ := forall₂_mem hequations hq
    obtain rfl := hrel'.eq_of_ne_live (by simp [hqstate])
    exact ⟨q', hq', hqstate, by rwa [isUnknown_congr hhandles]⟩
  count := by
    have hp : ∀ p p' : Param α, p.Eliminates p' →
        (p.state == .solvedAlone) = (p'.state == .solvedAlone) := by
      rintro p p' (rfl | ⟨hlive, _, rfl⟩)
      · rfl
      · rw [hlive]
        rfl
    have hq : ∀ q q' : Equation α, q.Eliminates q' →
        (q.state == .solvedAlone) = (q'.state == .solvedAlone) := by
      rintro q q' (rfl | ⟨hlive, _, rfl⟩)
      · rfl
      · rw [hlive]
        rfl
    rw [← countP_eq_of_forall₂ hp hparams, ← countP_eq_of_forall₂ hq hequations, hs.count]

end Paired

section
variable [Scalar α] {f : ParamHandle → ParamHandle} {t s₁ s₂ : EquationSystem α}

/-- The passes leave every unknown solved alone with its equation. -/
theorem Substitutes.paired (hsub : Substitutes f t s₁) (hd : t.HandlesDistinct) (ht : t.Fresh)
    (halone : s₁.solveSingletons = .ok (true, s₂)) : Paired s₂.eliminate.2 := by
  obtain ⟨hparams₁, hequations₁⟩ := hsub.states ht
  obtain ⟨_, ⟨round, hr⟩, _⟩ := hsub.settled_recorded hd ht halone
  have hinit : Paired s₁ := .initial (fun p hp => by rcases hparams₁ p hp with h | h <;> simp [h])
    fun q hq => by rcases hequations₁ q hq with h | h <;> simp [h]
  have hpaired : Paired s₂ := hinit.solveAloneFrom (hsub.handlesDistinct hd) halone
  exact hpaired.eliminated hr.handles_eq hr.params hr.equations

/-! ## The balance -/

/-- As many equations as unknowns have been eliminated. -/
theorem Prepared.countP_eliminated (h : Prepared f t s) (hd : s.HandlesDistinct) :
    s.params.countP (·.state == .eliminated) = s.equations.countP (·.state == .eliminated) := by
  have hparams : s.params.countP (·.state == .eliminated) = s.elimination.flatten.length := by
    have hlength := length_eq_of_nodup
      (l := (s.params.filter (·.state == .eliminated)).map (·.handle))
      (hd.sublist (List.Sublist.map Param.handle List.filter_sublist))
      h.replayable.handles_nodup fun x => by
        rw [h.replayable.mem_iff]
        simp only [List.mem_map, List.mem_filter, beq_iff_eq]
        exact ⟨fun ⟨p, ⟨hp, hstate⟩, hx⟩ => ⟨p, hp, hx, hstate⟩,
          fun ⟨p, hp, hx, hstate⟩ => ⟨p, ⟨hp, hstate⟩, hx⟩⟩
    rwa [List.length_map, List.length_map, ← List.countP_eq_length_filter] at hlength
  have hequations : s.equations.countP (·.state == .eliminated) = s.elimination.flatten.length := by
    have hlength := length_eq_of_nodup
      ((pairwise_filterMap_zipIdx (fun q : Equation α => q.state == .eliminated)
        s.equations).imp Nat.ne_of_lt)
      h.replayable.equations_nodup fun k => by
        simp only [List.mem_filterMap, Prod.exists, List.mem_zipIdx_iff_getElem?,
          Option.ite_none_right_eq_some, Option.some.injEq, beq_iff_eq]
        constructor
        · rintro ⟨q, _, hq, hstate, rfl⟩
          exact h.covered _ q hq hstate
        · intro hk
          obtain ⟨e, he, rfl⟩ := List.mem_map.1 hk
          obtain ⟨q, hq, hstate, _⟩ := h.replayable.defining e he
          exact ⟨q, _, hq, hstate, rfl⟩
    rw [← length_filterMap_zipIdx (fun q : Equation α => q.state == .eliminated), hlength,
      List.length_map]
  rw [hparams, hequations]

/-- Where nothing is substituted, as many unknowns as equations have been settled. -/
theorem Prepared.balance (h : Prepared f t s) (hd : s.HandlesDistinct) (hs : Paired s)
    (hparams : ∀ p ∈ s.params, p.state ≠ .substituted)
    (hequations : ∀ q ∈ s.equations, q.state ≠ .satisfied) :
    s.params.length + s.equations.countP (·.state == .live) =
      s.equations.length + s.params.countP (·.state == .live) := by
  have hnone : s.params.countP (·.state == .substituted) = 0 :=
    List.countP_eq_zero.2 fun p hp => by simpa using hparams p hp
  have hnone' : s.equations.countP (·.state == .satisfied) = 0 :=
    List.countP_eq_zero.2 fun q hq => by simpa using hequations q hq
  have hlength := length_params_eq s.params
  have hlength' := length_equations_eq s.equations
  have halone := hs.count
  have heliminated := h.countP_eliminated hd
  omega

end

end EquationSystem

end SketchSolver
