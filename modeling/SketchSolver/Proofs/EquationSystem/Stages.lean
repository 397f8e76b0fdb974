import SketchSolver.Proofs.EquationSystem.Elimination
import SketchSolver.Proofs.EquationSystem.Totality

/-!
# The stage of an equation and the unknown that it fixes

An equation solved alone and the unknown that it fixes have a stage in common, and no other equation
has it (`Staged`). This is all that leads from an unknown back to the equation that fixed it, and it
leads to exactly that one (`Staged.existsUnique_fixedAt`). It is kept by the pass over the equations
of one unknown, whether or not it comes to its end (`Staged.solveAloneFrom`), by elimination
(`Staged.eliminate`), and by all that only moves unknowns (`Staged.frame`), whatever handles the
unknowns have.

The pass itself is taken apart once, by an induction over what it solves (`solveAloneFrom_cases`).
No pass gives an equation another origin (`SameOrigins`), and none but substitution rewrites one
(`SameEquations`).
-/

namespace SketchSolver.EquationSystem

variable {s s' t : EquationSystem α} {moved : ParamState → Nat → Prop} {stage i k : Nat}
  {h : ParamHandle} {b : Bool}

/-! ## Origins -/

/-- The equations have the origins they had. -/
def SameOrigins (s s' : EquationSystem α) : Prop :=
  s'.equations.map (·.handle) = s.equations.map (·.handle)

namespace SameOrigins

/-- A system has its own origins. -/
theorem refl (s : EquationSystem α) : SameOrigins s s :=
  rfl

/-- Origins that are kept by two passes are kept by both together. -/
theorem trans (h : SameOrigins s s') (h' : SameOrigins s' t) : SameOrigins s t :=
  Eq.trans h' h

/-- Moving unknowns keeps the origins. -/
theorem of_frame (h : Frame moved s s') : SameOrigins s s' := by
  rw [SameOrigins, h.equations]

/-- Clearing the tags keeps the origins. -/
theorem clearTags (s : EquationSystem α) : SameOrigins s s.clearTags := by
  simp [SameOrigins, EquationSystem.clearTags, Function.comp_def]

/-- Substitution rewrites equations and keeps their origins. -/
theorem substitute (s : EquationSystem α) : SameOrigins s s.substitute.2 := by
  unfold EquationSystem.substitute
  split
  · exact refl s
  · simp [SameOrigins, Function.comp_def]

end SameOrigins

/-- The equations are the ones they were, but for their states. -/
def SameEquations (s s' : EquationSystem α) : Prop :=
  s'.equations.map (fun q => (q.handle, q.expr)) = s.equations.map fun q => (q.handle, q.expr)

namespace SameEquations

/-- A system has its own equations. -/
theorem refl (s : EquationSystem α) : SameEquations s s :=
  rfl

/-- Equations that are kept by two passes are kept by both together. -/
theorem trans (h : SameEquations s s') (h' : SameEquations s' t) : SameEquations s t :=
  Eq.trans h' h

/-- Moving unknowns keeps the equations. -/
theorem of_frame (h : Frame moved s s') : SameEquations s s' := by
  rw [SameEquations, h.equations]

/-- Equations that are kept keep their origins. -/
theorem sameOrigins (h : SameEquations s s') : SameOrigins s s' := by
  have hfst := congrArg (List.map Prod.fst) h
  rwa [List.map_map, List.map_map] at hfst

/-- Setting aside changes states, and no equation. -/
theorem setAside (s : EquationSystem α) (k i stage : Nat) :
    SameEquations s (s.setAside k i stage) := by
  refine List.ext_getElem? fun l => ?_
  simp only [EquationSystem.setAside, updateParam, updateEquation, List.getElem?_map,
    List.getElem?_modify]
  split <;> simp [Function.comp_def]

/-- Elimination changes states, and no equation. -/
theorem eliminate [Scalar α] (s : EquationSystem α) : SameEquations s s.eliminate.2 := by
  have hequations := (s.eliminates_eliminate).2
  refine (List.forall₂_eq_eq_eq ▸ List.forall₂_map_left_iff.2 (List.forall₂_map_right_iff.2
    (hequations.flip.imp fun q' q hq => ?_)) : _ = _)
  rcases hq with rfl | ⟨_, n, rfl⟩ <;> rfl

end SameEquations

section
variable [Scalar α]

/-! ## The pass over the equations -/

/-- A pass ends after its last equation, or at one that cannot be solved. What holds of the system
at its stage, and is kept by each equation that is solved, holds at the end, or at the equation that
fails. -/
theorem solveAloneFrom_cases {P : Nat → EquationSystem α → Prop}
    (hstep : ∀ {stage : Nat} {s : EquationSystem α} {k : Nat} {q : Equation α} {h : ParamHandle}
      {i : Nat} {s' : EquationSystem α}, P stage s → s.equations[k]? = some q →
      s.fixedAlone? q = some (h, i) →
      (s.setAside k i stage).solveAlone q.expr h i stage = .ok (true, s') → P (stage + 1) s') :
    ∀ {ks : List Nat} {stage : Nat} {s : EquationSystem α}, P stage s →
      s.solveAloneFrom stage ks = .ok (b, s') →
        b = true ∧ (∃ stage', P stage' s') ∨
        b = false ∧ ∃ (stage' : Nat) (t : EquationSystem α) (k : Nat) (q : Equation α)
          (h : ParamHandle) (i : Nat), P stage' t ∧ t.equations[k]? = some q ∧
          t.fixedAlone? q = some (h, i) ∧
          (t.setAside k i stage').solveAlone q.expr h i stage' = .ok (false, s')
  | [], stage, s, hs, hrun => by
    cases hrun
    exact Or.inl ⟨rfl, stage, hs⟩
  | k :: ks, stage, s, hs, hrun => by
    rw [solveAloneFrom] at hrun
    split at hrun
    · exact solveAloneFrom_cases hstep hs hrun
    · next q hq =>
      split at hrun
      · exact solveAloneFrom_cases hstep hs hrun
      · next h i hfix =>
        obtain ⟨⟨solved, t⟩, hsolve, hrun⟩ := bind_eq_ok.1 hrun
        cases solved with
        | false =>
          cases hrun
          exact Or.inr ⟨rfl, stage, s, k, q, h, i, hs, hq, hfix, hsolve⟩
        | true => exact solveAloneFrom_cases hstep (hstep hs hq hfix hsolve) hrun

/-- Solving equations alone rewrites none of them. -/
theorem SameEquations.solveSingletons (hrun : s.solveSingletons = .ok (b, s')) :
    SameEquations s s' := by
  have hstep : ∀ {stage k i : Nat} {t t' : EquationSystem α} {q : Equation α} {h : ParamHandle}
      {b : Bool}, SameEquations s t →
      (t.setAside k i stage).solveAlone q.expr h i stage = .ok (b, t') → SameEquations s t' :=
    fun ht hsolve => (ht.trans (.setAside ..)).trans (.of_frame (frame_solveAlone hsolve))
  rcases solveAloneFrom_cases (P := fun _ t => SameEquations s t)
    (fun ht _ _ hsolve => hstep ht hsolve) (.refl s) hrun with
    ⟨_, _, hsame⟩ | ⟨_, _, t, _, _, _, _, ht, _, _, hsolve⟩
  · exact hsame
  · exact hstep ht hsolve

/-- Nor does eliminating after it. -/
theorem SameEquations.reduced (hrun : s.solveSingletons = .ok (b, s')) :
    SameEquations s s'.eliminate.2 :=
  (SameEquations.solveSingletons hrun).trans (.eliminate s')

/-! ## Stages -/

omit [Scalar α] in
/-- The unknown of a handle is in the table. -/
theorem mem_of_param? {p : Param α} (hp : s.param? h = some p) : p ∈ s.params := by
  obtain ⟨_, _, hi⟩ := Option.bind_eq_some_iff.1 hp
  exact List.mem_of_getElem? hi

omit [Scalar α] in
/-- Tables with the same handles resolve one to related unknowns. -/
theorem param?_of_forall₂ {R : Param α → Param α → Prop} {p : Param α}
    (hR : ∀ p p', R p p' → p'.handle = p.handle) (hparams : List.Forall₂ R s.params s'.params)
    (hp : s.param? h = some p) : ∃ p', s'.param? h = some p' ∧ R p p' := by
  obtain ⟨i, hi, hp⟩ := Option.bind_eq_some_iff.1 hp
  obtain ⟨p', hp', hrel⟩ := forall₂_getElem? hparams hp
  refine ⟨p', ?_, hrel⟩
  rw [param?, position?_congr (map_handle_eq hR hparams), hi, Option.bind_some, hp']

/-- The equation at the position has fixed the unknown: it has been solved alone, and refers to no
other unknown. -/
def FixedAt (s : EquationSystem α) (h : ParamHandle) (k : Nat) : Prop :=
  ∃ q, s.equations[k]? = some q ∧ q.state = .solvedAlone ∧
    q.expr.referenced s.isUnknown = .exactly h

/-- Every equation solved alone has a stage of its own, below the given one, which it has in common
with the unknown that it has fixed, and every unknown solved alone has the stage of an equation that
has fixed it. -/
structure Staged (stage : Nat) (s : EquationSystem α) : Prop where
  lt : ∀ q ∈ s.equations, q.state = .solvedAlone → q.stage < stage
  unique : ∀ {k k' : Nat} {q q' : Equation α}, s.equations[k]? = some q →
    s.equations[k']? = some q' → q.state = .solvedAlone → q'.state = .solvedAlone →
    q.stage = q'.stage → k = k'
  fixed : ∀ p ∈ s.params, p.state = .solvedAlone → ∃ q ∈ s.equations, q.state = .solvedAlone ∧
    q.stage = p.stage ∧ q.expr.referenced s.isUnknown = .exactly p.handle
  fixes : ∀ q ∈ s.equations, q.state = .solvedAlone → ∃ h p,
    q.expr.referenced s.isUnknown = .exactly h ∧ s.param? h = some p ∧
      p.state = .solvedAlone ∧ p.stage = q.stage

namespace Staged

omit [Scalar α] in
/-- Nothing is solved alone before the first stage. -/
theorem initial (hparams : ∀ p ∈ s.params, p.state ≠ .solvedAlone)
    (hequations : ∀ q ∈ s.equations, q.state ≠ .solvedAlone) : Staged stage s where
  lt q hq hstate := absurd hstate (hequations q hq)
  unique hq _ hstate _ _ := absurd hstate (hequations _ (List.mem_of_getElem? hq))
  fixed p hp hstate := absurd hstate (hparams p hp)
  fixes q hq hstate := absurd hstate (hequations q hq)

omit [Scalar α] in
/-- Moving unknowns changes no stage. -/
theorem frame (hs : Staged stage s) (hframe : Frame moved s s') : Staged stage s' where
  lt := by
    rw [hframe.equations]
    exact hs.lt
  unique := by
    rw [hframe.equations]
    exact hs.unique
  fixed p' hp' hstate := by
    obtain ⟨p, hp, hk⟩ := hframe.kept_of_mem hp'
    rw [hframe.equations, hframe.isUnknown_eq, hk.handle, hk.stage]
    exact hs.fixed p hp (hk.state.symm.trans hstate)
  fixes := by
    rw [hframe.equations, hframe.isUnknown_eq]
    intro q hq hstate
    obtain ⟨x, p, href, hp, hpstate, hpstage⟩ := hs.fixes q hq hstate
    obtain ⟨p', hp', hk⟩ := param?_of_forall₂ (fun _ _ hk => hk.handle) hframe.params hp
    exact ⟨x, p', href, hp', hk.state.trans hpstate, hk.stage.trans hpstage⟩

omit [Scalar α] in
/-- An equation that is set aside takes the next stage, and with it the unknown that it fixes. -/
theorem setAside {q : Equation α} (hs : Staged stage s) (hq : s.equations[k]? = some q)
    (hfix : s.fixedAlone? q = some (h, i)) : Staged (stage + 1) (s.setAside k i stage) := by
  obtain ⟨hqlive, href, hi, p, hp, hph, hplive⟩ := fixedAlone?_eq_some hfix
  have hunknown : (s.setAside k i stage).isUnknown = s.isUnknown :=
    isUnknown_congr handles_setAside
  -- An equation is the one set aside, or as it was.
  have hcases : ∀ {l : Nat} {q' : Equation α}, (s.setAside k i stage).equations[l]? = some q' →
      q'.state = .solvedAlone →
        l = k ∧ q' = { q with state := .solvedAlone, stage } ∨
          l ≠ k ∧ s.equations[l]? = some q' ∧ q'.stage < stage := by
    intro l q' hl hstate
    by_cases hkl : k = l
    · subst hkl
      rw [equations_setAside_self hq] at hl
      exact Or.inl ⟨rfl, (Option.some.inj hl).symm⟩
    · rw [equations_setAside_of_ne hkl] at hl
      exact Or.inr ⟨Ne.symm hkl, hl, hs.lt q' (List.mem_of_getElem? hl) hstate⟩
  refine ⟨?lt, ?unique, ?fixed, ?fixes⟩
  case lt =>
    intro q' hq' hstate
    obtain ⟨l, hl⟩ := List.getElem?_of_mem hq'
    rcases hcases hl hstate with ⟨_, rfl⟩ | ⟨_, _, hlt⟩
    · exact Nat.lt_succ_self stage
    · exact Nat.lt_succ_of_lt hlt
  case unique =>
    intro l l' q₁ q₂ hl hl' hstate₁ hstate₂ hstage
    rcases hcases hl hstate₁ with ⟨rfl, rfl⟩ | ⟨_, hl, hlt⟩ <;>
      rcases hcases hl' hstate₂ with ⟨rfl, rfl⟩ | ⟨_, hl', hlt'⟩
    · rfl
    · exact absurd hstage.symm (Nat.ne_of_lt hlt')
    · exact absurd hstage (Nat.ne_of_lt hlt)
    · exact hs.unique hl hl' hstate₁ hstate₂ hstage
  case fixed =>
    intro p' hp' hstate
    rw [hunknown]
    obtain ⟨j, hj⟩ := List.getElem?_of_mem hp'
    by_cases hij : i = j
    · subst hij
      rw [params_setAside_self hp] at hj
      cases hj
      refine ⟨_, List.mem_of_getElem? (equations_setAside_self hq), rfl, rfl, ?_⟩
      rw [href, hph]
    · rw [params_setAside_of_ne hij] at hj
      obtain ⟨q', hq', hstate', hstage', href'⟩ := hs.fixed p' (List.mem_of_getElem? hj) hstate
      obtain ⟨l, hl⟩ := List.getElem?_of_mem hq'
      have hkl : k ≠ l := by
        rintro rfl
        rw [hq] at hl
        cases hl
        rw [hqlive] at hstate'
        cases hstate'
      have hl' : (s.setAside k i stage).equations[l]? = some q' := by
        rw [equations_setAside_of_ne hkl, hl]
      exact ⟨q', List.mem_of_getElem? hl', hstate', hstage', href'⟩
  case fixes =>
    intro q' hq' hstate
    rw [hunknown]
    obtain ⟨l, hl⟩ := List.getElem?_of_mem hq'
    rcases hcases hl hstate with ⟨_, rfl⟩ | ⟨_, hl, _⟩
    · refine ⟨h, { p with state := .solvedAlone, stage }, href, ?_, rfl, rfl⟩
      rw [param?, position?_congr handles_setAside, hi, Option.bind_some, params_setAside_self hp]
    · obtain ⟨x, p', href', hp', hstate', hstage'⟩ := hs.fixes q' (List.mem_of_getElem? hl) hstate
      obtain ⟨j, hj, hpj⟩ := Option.bind_eq_some_iff.1 hp'
      have hij : i ≠ j := by
        rintro rfl
        rw [hp] at hpj
        cases hpj
        rw [hplive] at hstate'
        cases hstate'
      refine ⟨x, p', href', ?_, hstate', hstage'⟩
      rw [param?, position?_congr handles_setAside, hj, Option.bind_some,
        params_setAside_of_ne hij, hpj]

/-- The pass over the equations keeps every stage to one equation, also where it fails. -/
theorem solveAloneFrom {ks : List Nat} (hs : Staged stage s)
    (hrun : s.solveAloneFrom stage ks = .ok (b, s')) : ∃ stage', Staged stage' s' := by
  have hstep : ∀ {stage k i : Nat} {t t' : EquationSystem α} {q : Equation α} {h : ParamHandle}
      {b : Bool}, Staged stage t → t.equations[k]? = some q → t.fixedAlone? q = some (h, i) →
      (t.setAside k i stage).solveAlone q.expr h i stage = .ok (b, t') → Staged (stage + 1) t' :=
    fun ht hq hfix hsolve => (ht.setAside hq hfix).frame (frame_solveAlone hsolve)
  rcases solveAloneFrom_cases (P := Staged) hstep hs hrun with
    ⟨_, hstaged⟩ | ⟨_, _, t, _, _, _, _, ht, hq, hfix, hsolve⟩
  · exact hstaged
  · exact ⟨_, hstep ht hq hfix hsolve⟩

/-- Elimination takes nothing that is solved alone. -/
theorem eliminate (hs : Staged stage s) : Staged stage s.eliminate.2 := by
  obtain ⟨hparams, hequations⟩ := s.eliminates_eliminate
  have hunknown : s.eliminate.2.isUnknown = s.isUnknown :=
    isUnknown_congr (map_handle_eq (fun _ _ hp => hp.handle) hparams)
  generalize s.eliminate.2 = s' at hparams hequations hunknown ⊢
  have hback : ∀ {k : Nat} {q : Equation α}, s'.equations[k]? = some q →
      q.state = .solvedAlone → s.equations[k]? = some q := by
    intro k q hq hstate
    obtain ⟨q₀, hq₀, hrel⟩ := forall₂_getElem?_of hequations hq
    rw [hrel.eq_of_ne_eliminated (by simp [hstate]), hq₀]
  refine ⟨?lt, ?unique, ?fixed, ?fixes⟩
  case lt =>
    intro q hq hstate
    obtain ⟨k, hk⟩ := List.getElem?_of_mem hq
    exact hs.lt q (List.mem_of_getElem? (hback hk hstate)) hstate
  case unique =>
    intro k k' q q' hq hq' hstate hstate' hstage
    exact hs.unique (hback hq hstate) (hback hq' hstate') hstate hstate' hstage
  case fixed =>
    intro p' hp' hstate
    obtain ⟨p, hp, hrel⟩ := forall₂_mem_of hparams hp'
    obtain rfl := hrel.eq_of_ne_eliminated (by simp [hstate])
    obtain ⟨q, hq, hqstate, hqstage, href⟩ := hs.fixed _ hp hstate
    obtain ⟨q', hq', hrel'⟩ := forall₂_mem hequations hq
    obtain rfl := hrel'.eq_of_ne_live (by simp [hqstate])
    rw [hunknown]
    exact ⟨_, hq', hqstate, hqstage, href⟩
  case fixes =>
    intro q hq hstate
    rw [hunknown]
    obtain ⟨k, hk⟩ := List.getElem?_of_mem hq
    obtain ⟨x, p, href, hp, hpstate, hpstage⟩ :=
      hs.fixes q (List.mem_of_getElem? (hback hk hstate)) hstate
    obtain ⟨p', hp', hrel⟩ := param?_of_forall₂ (fun _ _ hrel => hrel.handle) hparams hp
    obtain rfl := hrel.eq_of_ne_live (by simp [hpstate])
    exact ⟨x, _, href, hp', hpstate, hpstage⟩

omit [Scalar α] in
/-- An equation has fixed an unknown if the two have a stage in common. -/
theorem fixedAt_iff (hs : Staged stage s) {p : Param α} (hp : s.param? h = some p)
    (hstate : p.state = .solvedAlone) {q : Equation α} (hq : s.equations[k]? = some q) :
    s.FixedAt h k ↔ q.state = .solvedAlone ∧ q.stage = p.stage := by
  have hqmem := List.mem_of_getElem? hq
  constructor
  · rintro ⟨q', hq', hqstate, href⟩
    rw [hq] at hq'
    cases hq'
    obtain ⟨x, p', href', hp', _, hstage⟩ := hs.fixes q hqmem hqstate
    obtain rfl := Referenced.exactly.inj (href.symm.trans href')
    rw [hp] at hp'
    cases hp'
    exact ⟨hqstate, hstage.symm⟩
  · rintro ⟨hqstate, hstage⟩
    obtain ⟨q', hq', hqstate', hstage', href⟩ := hs.fixed p (mem_of_param? hp) hstate
    obtain ⟨k', hk'⟩ := List.getElem?_of_mem hq'
    obtain rfl := hs.unique hq hk' hqstate hqstate' (hstage.trans hstage'.symm)
    rw [hq] at hk'
    cases hk'
    refine ⟨q, hq, hqstate, ?_⟩
    rw [href, handle_of_param? hp]

omit [Scalar α] in
/-- An unknown solved alone has been fixed by exactly one equation. -/
theorem existsUnique_fixedAt (hs : Staged stage s) {p : Param α} (hp : s.param? h = some p)
    (hstate : p.state = .solvedAlone) : ∃! k, s.FixedAt h k := by
  obtain ⟨q, hq, hqstate, hstage, href⟩ := hs.fixed p (mem_of_param? hp) hstate
  obtain ⟨k, hk⟩ := List.getElem?_of_mem hq
  refine ⟨k, (hs.fixedAt_iff hp hstate hk).2 ⟨hqstate, hstage⟩, fun k' hk' => ?_⟩
  obtain ⟨q', hq', hqstate', _⟩ := id hk'
  have hstage' := ((hs.fixedAt_iff hp hstate hq').1 hk').2
  exact hs.unique hq' hk hqstate' hqstate (hstage'.trans hstage.symm)

omit [Scalar α] in
/-- At its stage, no other equation is solved alone. -/
theorem hasEquation_alone_iff {q q' : Equation α} (hs : Staged stage s)
    (hq : s.equations[k]? = some q) (hqstate : q.state = .solvedAlone) (hq' : q' ∈ s.equations) :
    (Selection.alone q.stage).hasEquation q' = true ↔ q' = q := by
  simp only [Selection.hasEquation, Bool.and_eq_true, beq_iff_eq]
  constructor
  · rintro ⟨hstate', hstage'⟩
    obtain ⟨k', hk'⟩ := List.getElem?_of_mem hq'
    obtain rfl := hs.unique hq hk' hqstate hstate' hstage'.symm
    exact Option.some.inj (hk'.symm.trans hq)
  · rintro rfl
    exact ⟨hqstate, rfl⟩

omit [Scalar α] in
/-- What is solved alone at one stage is one equation at most. -/
theorem length_select_alone (hs : Staged stage s) (n : Nat) :
    (s.select (.alone n)).2.length ≤ 1 := by
  have hnodup := (s.nodup_select (.alone n)).2
  have hsame : ∀ k ∈ (s.select (.alone n)).2, ∀ k' ∈ (s.select (.alone n)).2, k = k' := by
    intro k hk k' hk'
    obtain ⟨q, hq, hsel⟩ := mem_select_snd.1 hk
    obtain ⟨q', hq', hsel'⟩ := mem_select_snd.1 hk'
    simp only [Selection.hasEquation, Bool.and_eq_true, beq_iff_eq] at hsel hsel'
    exact hs.unique hq hq' hsel.1 hsel'.1 (hsel.2.trans hsel'.2.symm)
  generalize (s.select (.alone n)).2 = ks at hnodup hsame
  rcases ks with _ | ⟨a, _ | ⟨b, ks⟩⟩
  · exact Nat.zero_le 1
  · exact Nat.le_refl 1
  · have hab := hsame a (by simp) b (by simp)
    simp [hab] at hnodup

end Staged

end

end SketchSolver.EquationSystem
