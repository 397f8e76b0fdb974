import SketchSolver.Proofs.EquationSystem.Independence
import SketchSolver.Proofs.EquationSystem.Recovery

/-!
# Every pass has a result

A pass faults where it evaluates an expression that points outside of the table of unknowns, where
it solves an equation for a parameter and cannot, or where an entry of the record has no equation.
None of this can happen, whatever the tables hold; in particular no two handles need be different.

* A linearization points to the positions that the handles of its expressions are resolved to
  (`Resolved`), and goes on to do so while an iteration moves the unknowns.
* An equation is isolated only after it has been found that it can be (`yields_valueFrom`). For the
  entries of the record that was found when they were made (`Recoverable`), and no pass after that
  rewrites an equation.

`Yields` says of a computation that it has a result and what holds of it, and is composed along
the passes (`Yields.bind`).
-/

namespace SketchSolver

/-- The computation has a result, and `P` holds of it. -/
def Yields (x : Except ε β) (P : β → Prop) : Prop :=
  ∃ y, x = .ok y ∧ P y

namespace Yields

variable {x : Except ε β} {P P' : β → Prop} {Q : γ → Prop}

/-- A result yields what holds of it. -/
theorem ok {y : β} (h : P y) : Yields (.ok y : Except ε β) P :=
  ⟨y, rfl, h⟩

/-- Two computations in a row have a result if the second one has one for every result of the
first. -/
theorem bind {f : β → Except ε γ} (hx : Yields x P) (hf : ∀ y, P y → Yields (f y) Q) :
    Yields (x >>= f) Q := by
  obtain ⟨y, rfl, hy⟩ := hx
  exact hf y hy

/-- What follows from what holds of a result holds of it. -/
theorem mono (hx : Yields x P) (h : ∀ y, P y → P' y) : Yields x P' := by
  obtain ⟨y, hxy, hy⟩ := hx
  exact ⟨y, hxy, h y hy⟩

/-- A result is the only one. -/
theorem and_of_eq_ok (hx : Yields x P) (h : ∀ y, x = .ok y → P' y) : Yields x P' := by
  obtain ⟨y, hxy, _⟩ := hx
  exact ⟨y, hxy, h y hxy⟩

end Yields

namespace EquationSystem

variable {s s' t : EquationSystem α} {moved : ParamState → Nat → Prop} {h : ParamHandle}
  {i k round : Nat}

/-- Anything may move. -/
def Anything (_ : ParamState) (_ : Nat) : Prop :=
  True

/-! ## Unknowns -/

/-- The unknowns have the handles they had, and the settings are the same. -/
structure SameUnknowns (s s' : EquationSystem α) : Prop where
  settings : s'.settings = s.settings
  handles : s'.params.map (·.handle) = s.params.map (·.handle)

/-- A system has its own unknowns. -/
theorem SameUnknowns.refl (s : EquationSystem α) : SameUnknowns s s :=
  ⟨rfl, rfl⟩

/-- Unknowns that are kept by two passes are kept by both together. -/
theorem SameUnknowns.trans (h : SameUnknowns s s') (h' : SameUnknowns s' t) : SameUnknowns s t :=
  ⟨h'.settings.trans h.settings, h'.handles.trans h.handles⟩

/-- Moving unknowns keeps their handles. -/
theorem Frame.sameUnknowns (h : Frame moved s s') : SameUnknowns s s' :=
  ⟨h.settings, h.handles_eq⟩

section
variable [Scalar α] {sel : Selection}

/-! ## Linearizations -/

/-- Every position in the linearization is the one that its handle is resolved to. -/
structure Resolved (s : EquationSystem α) : Prop where
  partials : ∀ d ∈ s.linearization.partials, d.value.SlotsIn fun h i => s.position? h = some i
  residualExprs : ∀ e ∈ s.linearization.residualExprs,
    e.SlotsIn fun h i => s.position? h = some i

omit [Scalar α] in
/-- Which positions handles are resolved to is a matter of the handles in the table alone. -/
theorem Resolved.congr (hs : s.Resolved)
    (hhandles : s'.params.map (·.handle) = s.params.map (·.handle))
    (hform : s.linearization.SameForm s'.linearization) : s'.Resolved where
  partials := by
    rw [hform.partials, position?_congr hhandles]
    exact hs.partials
  residualExprs := by
    rw [hform.residualExprs, position?_congr hhandles]
    exact hs.residualExprs

omit [Scalar α] in
/-- Moving unknowns, and evaluating a linearization, changes no position. -/
theorem Resolved.frame (hs : s.Resolved) (hframe : Frame moved s s')
    (hform : s.linearization.SameForm s'.linearization) : s'.Resolved :=
  hs.congr hframe.handles_eq hform

/-- Whatever positions an equation is written with, it is linearized with those that its handles are
resolved to. -/
theorem resolved_linearize (s : EquationSystem α) (sel : Selection) :
    (s.linearize sel).2.Resolved := by
  have hframe := (s.linearize_spec (fun _ _ => False) sel).1
  refine ⟨fun d hd => ?_, fun e he => ?_⟩
  · rw [hframe.position?_eq]
    exact slotsIn_linearize hd
  · rw [hframe.position?_eq]
    unfold linearize at he
    obtain ⟨columns, rows⟩ := s.select sel
    simp only at he
    split at he
    · cases he
    · obtain ⟨k, _, hk⟩ := List.mem_filterMap.1 he
      obtain ⟨q, _, rfl⟩ := Option.map_eq_some_iff.1 hk
      exact s.slotsIn_slotForm q.expr

/-- What a linearization of a part of the system points to is there: its columns are unknowns, its
rows are equations, and every partial derivative stands at a row and a column of it. -/
structure InRange (s : EquationSystem α) (lin : Linearization α) : Prop where
  columns : ∀ i ∈ lin.columns, i < s.params.length
  rows : ∀ k ∈ lin.rows, k < s.equations.length
  partials : ∀ d ∈ lin.partials, d.row < lin.rows.length ∧ d.column < lin.columns.length

/-- Every partial derivative of a row stands at that row and at a column. -/
theorem mem_partialsOfRow {columns : List Nat} {row : Nat} {f : Expr α} {d : Triplet (Expr α)}
    (hd : d ∈ s.partialsOfRow columns row f) : d.row = row ∧ d.column < columns.length := by
  obtain ⟨h, _, heq⟩ := List.mem_filterMap.1 hd
  split at heq
  · cases heq
  · next column hcolumn =>
    obtain ⟨i, _, hi⟩ := Option.bind_eq_some_iff.1 hcolumn
    simp only [Option.ite_none_left_eq_some, Option.some.injEq] at heq
    obtain ⟨_, rfl⟩ := heq
    exact ⟨rfl, (List.idxOf?_eq_some_iff.1 hi).1⟩

/-- A linearization that has just been made points to unknowns and equations that are there. -/
theorem inRange_linearize (s : EquationSystem α) (sel : Selection) :
    s.InRange (s.linearize sel).2.linearization := by
  have hcolumns : ∀ i ∈ (s.select sel).1, i < s.params.length := by
    intro i hi
    obtain ⟨p, hp, _⟩ := mem_select_fst.1 hi
    exact (List.getElem?_eq_some_iff.1 hp).1
  have hrows : ∀ k ∈ (s.select sel).2, k < s.equations.length := by
    intro k hk
    obtain ⟨q, hq, _⟩ := mem_select_snd.1 hk
    exact (List.getElem?_eq_some_iff.1 hq).1
  unfold linearize
  generalize s.select sel = part at hcolumns hrows ⊢
  obtain ⟨columns, rows⟩ := part
  simp only
  split
  · exact ⟨nofun, nofun, nofun⟩
  · refine ⟨hcolumns, hrows, fun d hd => ?_⟩
    obtain ⟨⟨f, row⟩, hmem, hd⟩ := List.mem_flatMap.1 hd
    obtain ⟨rfl, hcolumn⟩ := mem_partialsOfRow hd
    rw [List.mem_zipIdx_iff_getElem?] at hmem
    exact ⟨Nat.lt_of_lt_of_le (List.getElem?_eq_some_iff.1 hmem).1
      (List.length_filterMap_le ..), hcolumn⟩

/-! ## Evaluation -/

/-- The Jacobian can be evaluated, and the linearization keeps its form. -/
theorem Resolved.yields_evalJacobian (hs : s.Resolved) : Yields s.evalJacobian fun s' =>
    Frame Anything s s' ∧ s.linearization.SameForm s'.linearization := by
  rw [evalJacobian_eq hs.partials]
  exact .ok ⟨.of_eq rfl rfl rfl rfl rfl rfl, rfl, rfl, rfl, rfl⟩

/-- The residuals can be evaluated, and the linearization keeps its form. -/
theorem Resolved.yields_evalResiduals (hs : s.Resolved) : Yields s.evalResiduals fun s' =>
    Frame Anything s s' ∧ s.linearization.SameForm s'.linearization := by
  simp only [evalResiduals]
  rw [values_eq_ok hs.residualExprs]
  exact .ok ⟨.of_eq rfl rfl rfl rfl rfl rfl, rfl, rfl, rfl, rfl⟩

/-- The rank can be tested, and the linearization keeps its form. -/
theorem Resolved.yields_testRank (hs : s.Resolved) : Yields s.testRank fun r =>
    Frame Anything s r.2 ∧ s.linearization.SameForm r.2.linearization :=
  hs.yields_evalJacobian.bind fun _ ⟨hframe, hform⟩ =>
    .ok ⟨hframe.trans (.of_eq rfl rfl rfl rfl rfl rfl), hform.trans ⟨rfl, rfl, rfl, rfl⟩⟩

/-- A linearization stays resolved throughout an iteration, so every step of it can be evaluated,
however the step is computed. -/
theorem Resolved.yields_iterate {step : EquationSystem α → Except SolverError (List α)} :
    ∀ {further : Nat} {s : EquationSystem α}, s.Resolved → Yields (iterate step further s) fun r =>
      Frame Anything s r.2 ∧ s.linearization.SameForm r.2.linearization
  | further, s, hs => by
    unfold iterate
    refine hs.yields_evalJacobian.bind fun s₁ hone => ?_
    obtain ⟨hframe₁, hform₁⟩ := hone
    generalize hs₂ : s₁.weigh = s₂
    have hframe₂ : Frame Anything s s₂ := by
      subst hs₂
      exact hframe₁.trans (.of_eq rfl rfl rfl rfl rfl rfl)
    have hform₂ : s.linearization.SameForm s₂.linearization := by
      subst hs₂
      exact hform₁.trans ⟨rfl, rfl, rfl, rfl⟩
    simp only
    cases step s₂ with
    | error _ => exact .ok ⟨hframe₂, hform₂⟩
    | ok x =>
      simp only
      generalize hs₃ : ({ s₂ with linearization := { s₂.linearization with step := x } } :
        EquationSystem α) = s₃
      have hframe₃ : Frame Anything s s₃ := by
        subst hs₃
        exact hframe₂.trans (.of_eq rfl rfl rfl rfl rfl rfl)
      have hform₃ : s.linearization.SameForm s₃.linearization := by
        subst hs₃
        exact hform₂.trans ⟨rfl, rfl, rfl, rfl⟩
      have hsteps : ∀ e ∈ s₃.linearization.columns.zip x, ∀ p, s₃.params[e.1]? = some p →
          Anything p.state p.stage := fun _ _ _ _ => trivial
      obtain ⟨hmove, hlin, _⟩ := frame_move hsteps
      rw [show s₂.linearization.columns = s₃.linearization.columns by subst hs₃; rfl]
      generalize s₃.move (s₃.linearization.columns.zip x) = out at hmove hlin
      obtain ⟨reasonable, s₄⟩ := out
      have hframe₄ : Frame Anything s s₄ := hframe₃.trans hmove
      have hform₄ : s.linearization.SameForm s₄.linearization := by
        rw [hlin]
        exact hform₃
      cases reasonable with
      | false => exact .ok ⟨hframe₄, hform₄⟩
      | true =>
        refine (hs.frame hframe₄ hform₄).yields_evalResiduals.bind fun s₅ hlast => ?_
        obtain ⟨hmoved, hsame⟩ := hlast
        have hframe₅ : Frame Anything s s₅ := hframe₄.trans hmoved
        have hform₅ : s.linearization.SameForm s₅.linearization := hform₄.trans hsame
        cases s₅.settings.judge s₅.linearization.residuals with
        | blownUp | converged => exact .ok ⟨hframe₅, hform₅⟩
        | unconverged =>
          cases further with
          | zero => exact .ok ⟨hframe₅, hform₅⟩
          | succ further =>
            exact (hs.frame hframe₅ hform₅).yields_iterate.mono fun r hrest =>
              ⟨hframe₅.trans hrest.1, hform₅.trans hrest.2⟩

/-- Newton's iteration has a result, whether or not it converges. -/
theorem Resolved.yields_newton (hs : s.Resolved) : Yields s.newton fun r =>
    Frame Anything s r.2 ∧ s.linearization.SameForm r.2.linearization :=
  hs.yields_evalResiduals.bind fun _ ⟨hframe, hform⟩ =>
    (hs.frame hframe hform).yields_iterate.mono fun _ ⟨hrest, hform'⟩ =>
      ⟨hframe.trans hrest, hform.trans hform'⟩

/-- Free unknowns can always be marked. -/
theorem yields_markFree (s : EquationSystem α) (find : Bool) :
    Yields (s.markFree find) (Frame Anything s) := by
  suffices h : Yields (s.markFree find) fun _ => True from
    h.and_of_eq_ok fun _ => frame_markFree
  unfold markFree
  cases find with
  | false => exact .ok trivial
  | true =>
    simp only [Bool.not_true, Bool.false_eq_true, if_false]
    generalize ({ s with params := s.params.map fun p => { p with free := false } } :
      EquationSystem α) = t
    have hs := t.resolved_linearize .live
    generalize t.linearize .live = out at hs ⊢
    obtain ⟨written, t₁⟩ := out
    cases written with
    | false => exact .ok trivial
    | true => exact hs.yields_evalJacobian.bind fun _ _ => .ok trivial

/-! ## Isolated unknowns -/

omit [Scalar α] in
/-- What an equation refers to exactly is in the table. -/
theorem exists_of_referenced {e : Expr α} (he : e.referenced s.isUnknown = .exactly h) :
    ∃ i p, s.position? h = some i ∧ s.params[i]? = some p := by
  obtain ⟨_, hunknown, _⟩ := Expr.referenced_eq_exactly he
  obtain ⟨i, hi⟩ := Option.isSome_iff_exists.1 hunknown
  obtain ⟨p, hp, _⟩ := exists_of_position? hi
  exact ⟨i, p, hi, hp⟩

/-- The form of an expression that is evaluated points to unknowns only. -/
theorem slotsBelow_slotForm (s : EquationSystem α) (e : Expr α) :
    (s.slotForm e).slotsBelow s.params.length = true :=
  (s.slotsIn_slotForm e).slotsBelow fun _ _ hi => position?_lt hi

/-- An equation that can be solved for a parameter gives it a value. -/
theorem yields_valueFrom {e : Expr α} (hcan : e.fold.canIsolate h = true) :
    Yields (s.valueFrom e h) fun _ => True := by
  obtain ⟨rhs, _, hslots, _⟩ := exists_isolate_slotForm (s := s) hcan
  have hbelow : (rhs.toSlots s.position?).slotsBelow s.params.length = true :=
    (Expr.slotsIn_toSlots s.position? rhs).slotsBelow fun _ _ hi => position?_lt hi
  unfold valueFrom value
  rw [hslots]
  simp only [hbelow, if_true]
  exact .ok trivial

/-- An equation is solved in closed form only if that is possible, and by iteration otherwise.
Either way, unknowns are moved and nothing else. -/
theorem yields_solveAlone (s : EquationSystem α) (e : Expr α) (h : ParamHandle) (i stage : Nat) :
    Yields (s.solveAlone e h i stage) fun r => Frame Anything s r.2 := by
  unfold solveAlone
  simp only [isolable_slotForm]
  split
  · next hcan =>
    refine (yields_valueFrom hcan).bind fun x _ => ?_
    have hmoved : Frame Anything s (s.updateParam i fun p => { p with value := x }) :=
      .updateParam fun _ _ => ⟨rfl, rfl, rfl, rfl, fun hm => absurd trivial hm⟩
    generalize (s.updateParam i fun p => { p with value := x }) = t at hmoved ⊢
    split
    · have ht := t.resolved_linearize (.alone stage)
      have hframe := hmoved.trans (t.linearize_spec Anything (.alone stage)).1
      generalize t.linearize (.alone stage) = out at ht hframe ⊢
      obtain ⟨written, t₁⟩ := out
      cases written with
      | false => exact .ok hframe
      | true => exact ht.yields_evalResiduals.bind fun _ hr => .ok (hframe.trans hr.1)
    · exact .ok (hmoved.trans (.updateParam fun _ _ => ⟨rfl, rfl, rfl, rfl, fun _ => rfl⟩))
  · have hs := s.resolved_linearize (.alone stage)
    have hframe := (s.linearize_spec Anything (.alone stage)).1
    generalize s.linearize (.alone stage) = out at hs hframe ⊢
    obtain ⟨written, t⟩ := out
    cases written with
    | false => exact .ok hframe
    | true => exact hs.yields_newton.mono fun r hr => hframe.trans hr.1

/-- However an equation is solved, and whether it can be, unknowns are moved and nothing else. -/
theorem frame_solveAlone {e : Expr α} {b : Bool} (hsolve : s.solveAlone e h i k = .ok (b, s')) :
    Frame Anything s s' := by
  obtain ⟨_, hresult, hframe⟩ := s.yields_solveAlone e h i k
  obtain rfl := Except.ok.inj (hresult.symm.trans hsolve)
  exact hframe

/-- The pass over the equations of one unknown has a result from any stage on, and it leaves the
record as it was. -/
theorem yields_solveAloneFrom : ∀ (ks : List Nat) (stage : Nat) (s : EquationSystem α),
    Yields (s.solveAloneFrom stage ks) fun r =>
      SameUnknowns s r.2 ∧ r.2.elimination = s.elimination
  | [], _, s => .ok ⟨.refl s, rfl⟩
  | k :: ks, stage, s => by
    rw [solveAloneFrom]
    split
    · exact yields_solveAloneFrom ks stage s
    · next q _ =>
      split
      · exact yields_solveAloneFrom ks stage s
      · next h i _ =>
        have haside : SameUnknowns s (s.setAside k i stage) := ⟨rfl, handles_setAside⟩
        refine (yields_solveAlone (s.setAside k i stage) q.expr h i stage).bind fun r hr => ?_
        obtain ⟨solved, t⟩ := r
        have hsame : SameUnknowns s t := haside.trans hr.sameUnknowns
        have helim : t.elimination = s.elimination := hr.elimination
        cases solved with
        | false => exact .ok ⟨hsame, helim⟩
        | true =>
          exact (yields_solveAloneFrom ks (stage + 1) t).mono fun _ hr =>
            ⟨hsame.trans hr.1, hr.2.trans helim⟩

/-- The pass over the equations of one unknown has a result, and it leaves the record as it was. -/
theorem yields_solveSingletons (s : EquationSystem α) :
    Yields s.solveSingletons fun r => SameUnknowns s r.2 ∧ r.2.elimination = s.elimination :=
  yields_solveAloneFrom _ _ s

/-! ## Recovered unknowns -/

/-- The entry has an equation, which can be solved for its unknown. -/
def Solvable (s : EquationSystem α) (e : ParamHandle × Nat) : Prop :=
  ∃ q, s.equations[e.2]? = some q ∧ q.expr.fold.canIsolate e.1 = true

/-- Every entry of the record has an equation that can be solved for its unknown. -/
def Recoverable (s : EquationSystem α) : Prop :=
  ∀ e ∈ s.elimination.flatten, s.Solvable e

/-- Moving unknowns keeps every entry solvable. -/
theorem Recoverable.frame (hs : s.Recoverable) (h : Frame moved s s') : s'.Recoverable := by
  unfold Recoverable Solvable
  rw [h.elimination, h.equations]
  exact hs

/-- Claiming an unknown rewrites no equation. -/
theorem Solvable.claim {e : ParamHandle × Nat} (he : s.Solvable e) :
    (s.claim round i k).Solvable e := by
  obtain ⟨q, hq, hcan⟩ := he
  unfold Solvable
  rw [equation_claim]
  split
  · refine ⟨{ q with state := .eliminated, stage := round }, ?_, hcan⟩
    rw [hq, Option.map_some]
  · exact ⟨q, hq, hcan⟩

/-- A round finds entries that are solvable, and leaves those that were found before solvable. -/
theorem solvable_eliminationRound (g : ReferenceGraph) (round : Nat) (s : EquationSystem α) :
    (∀ e ∈ (eliminationRound g round s).1, (eliminationRound g round s).2.Solvable e) ∧
      (∀ e, s.Solvable e → (eliminationRound g round s).2.Solvable e) ∧
      (eliminationRound g round s).2.elimination = s.elimination := by
  have hfold : ∀ (positions : List Nat) (found : EliminationRound) (t : EquationSystem α),
      (∀ e ∈ found, t.Solvable e) → ∀ out, positions.foldl (eliminateAt g round) (found, t) = out →
        (∀ e ∈ out.1, out.2.Solvable e) ∧ (∀ e, t.Solvable e → out.2.Solvable e) ∧
          out.2.elimination = t.elimination := by
    intro positions
    induction positions with
    | nil =>
      rintro found t hfound out rfl
      exact ⟨hfound, fun _ he => he, rfl⟩
    | cons i rest ih =>
      intro found t hfound out hout
      rw [List.foldl_cons] at hout
      rcases eliminateAt_cases g round found t i with hsame | ⟨h, k, hdef, hstep⟩
      · rw [hsame] at hout
        exact ih found t hfound out hout
      · rw [hstep] at hout
        have hmore : ∀ e ∈ HandleTable.insert h k found, (t.claim round i k).Solvable e := by
          intro e he
          rcases HandleTable.eq_or_mem_of_mem_insert he with rfl | he
          · obtain ⟨_, _, _, _, hq⟩ := definingEquation?_eq_some hdef
            exact Solvable.claim hq
          · exact (hfound e he).claim
        obtain ⟨hentries, hkept, helim⟩ := ih _ _ hmore out hout
        exact ⟨hentries, fun e he => hkept e he.claim, helim⟩
  exact hfold _ [] s nofun _ rfl

/-- However many rounds there are, every entry of the record is solvable after them. -/
theorem recoverable_eliminateRounds (g : ReferenceGraph) :
    ∀ (fuel round : Nat) (s : EquationSystem α), s.Recoverable →
      (eliminateRounds g fuel round s).2.Recoverable
  | 0, _, _, hs => hs
  | fuel + 1, round, s, hs => by
    obtain ⟨hfound, hkept, helim⟩ := solvable_eliminationRound g round s
    rw [eliminateRounds]
    generalize eliminationRound g round s = out at hfound hkept helim ⊢
    obtain ⟨found, t⟩ := out
    simp only at hfound hkept helim ⊢
    split
    · intro e he
      rw [helim] at he
      exact hkept e (hs e he)
    · refine recoverable_eliminateRounds g fuel (round + 1) _ fun e he => ?_
      rcases List.mem_append.1 he with he | he
      · exact hfound e he
      · rw [helim] at he
        exact hkept e (hs e he)

/-- Every equation is found solvable before it is put into the record. -/
theorem recoverable_eliminate (helim : s.elimination = []) : s.eliminate.2.Recoverable := by
  refine recoverable_eliminateRounds _ _ _ s fun e he => ?_
  rw [helim] at he
  cases he

/-- Recovery has a result for entries that are solvable, whether or not it gets through. -/
theorem yields_recoverFrom : ∀ {entries : List (ParamHandle × Nat)} {s : EquationSystem α},
    (∀ e ∈ entries, s.Solvable e) → Yields (recoverFrom entries s) fun _ => True
  | [], _, _ => .ok trivial
  | (h, k) :: rest, s, hs => by
    obtain ⟨q, hq, hcan⟩ := hs _ (List.mem_cons_self ..)
    have hrest := fun e he => hs e (List.mem_cons_of_mem _ he)
    rw [recoverFrom, hq]
    refine (yields_valueFrom hcan).bind fun x _ => ?_
    split
    · exact .ok trivial
    · split
      · exact yields_recoverFrom hrest
      · exact yields_recoverFrom hrest

/-- Recovery has a result if the record is recoverable. -/
theorem Recoverable.yields_recover (hs : s.Recoverable) : Yields s.recover fun _ => True :=
  yields_recoverFrom hs

end

end EquationSystem

end SketchSolver
