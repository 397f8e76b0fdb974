import SketchSolver.Proofs.EquationSystem.Convergence

/-!
# What is solved alone, stage by stage

The pass over the equations of one unknown takes its stages one after the other. At each of them
stand one equation and one unknown, the only one that the equation refers to, and what has no stage
is as it was before the pass (`Consecutive`). This holds wherever the pass stops. A linearization at
a stage is that of one equation in one unknown, so what is solved at a stage moves nothing else
(`HandlesDistinct.params_solveAlone_of_ne`), and how an unknown has been solved for can be said of
the system that the whole pass leaves behind (`SolvedInTurn`).

If the pass comes to its end, it has not passed over any equation that it could solve
(`exhausted_solveAloneFrom`). `solveSingletons_pairs` says all of this of every system.
-/

namespace SketchSolver

/-- An unknown is the one it was, or was live and is solved alone. -/
def Param.SetAside (p p' : Param α) : Prop :=
  p'.state ≠ .solvedAlone ∧ p' = p ∨
    p.state = .live ∧ p'.state = .solvedAlone ∧ p'.handle = p.handle ∧ p'.root = p.root

namespace EquationSystem

variable {s s' t start : EquationSystem α} {stage n i j k l : Nat} {h : ParamHandle} {b : Bool}

/-- The expression refers to the unknown and to no other one. -/
def RefersOnlyTo (s : EquationSystem α) (e : Expr α) (h : ParamHandle) : Prop :=
  ∀ x, e.dependsOn x = true ∧ s.isUnknown x = true ↔ x = h

/-! ## Pairs -/

/-- A list of different numbers, all of which are one, has this one only. -/
theorem eq_singleton_of_nodup {l : List Nat} (hl : l.Nodup) (hmem : ∀ j, j ∈ l ↔ j = i) :
    l = [i] :=
  List.perm_singleton.1 ((List.perm_ext_iff_of_nodup hl (List.nodup_singleton i)).2
    (by simpa using hmem))

/-- At the stage of an equation stand this equation and the one unknown that it refers to. -/
theorem HandlesDistinct.select_alone (hd : s.HandlesDistinct) (hs : Staged stage s)
    {q : Equation α} (hq : s.equations[k]? = some q) (hstate : q.state = .solvedAlone) :
    ∃ i p, s.select (.alone q.stage) = ([i], [k]) ∧ s.params[i]? = some p ∧
      q.expr.referenced s.isUnknown = .exactly p.handle := by
  obtain ⟨h, p, href, hp, hpstate, hpstage⟩ := hs.fixes q (List.mem_of_getElem? hq) hstate
  obtain ⟨i, _, hpi⟩ := Option.bind_eq_some_iff.1 hp
  obtain rfl := handle_of_param? hp
  refine ⟨i, p, Prod.ext ?columns ?rows, hpi, href⟩
  case columns =>
    refine eq_singleton_of_nodup (s.nodup_select _).1 fun j => ?_
    simp only [mem_select_fst, Selection.hasParam, Bool.and_eq_true, beq_iff_eq]
    constructor
    · rintro ⟨p', hp', hstate', hstage'⟩
      -- The unknown at `j` has an equation of the same stage, which can only be the given one.
      obtain ⟨q', hq', hqstate', hqstage', href'⟩ :=
        hs.fixed p' (List.mem_of_getElem? hp') hstate'
      obtain ⟨k', hk'⟩ := List.getElem?_of_mem hq'
      obtain rfl := hs.unique hk' hq hqstate' hstate (hqstage'.trans hstage')
      obtain rfl := Option.some.inj (hk'.symm.trans hq)
      exact hd.position_eq hp' hpi (Referenced.exactly.inj (href'.symm.trans href))
    · rintro rfl
      exact ⟨p, hpi, hpstate, hpstage⟩
  case rows =>
    refine eq_singleton_of_nodup (s.nodup_select _).2 fun j => ?_
    simp only [mem_select_snd, Selection.hasEquation, Bool.and_eq_true, beq_iff_eq]
    constructor
    · rintro ⟨q', hq', hstate', hstage'⟩
      exact hs.unique hq' hq hstate' hstate hstage'
    · rintro rfl
      exact ⟨q, hq, hstate, rfl⟩

section
variable [Scalar α]

/-- The equation of one stage is solved by moving the unknown of this stage, and no other one. -/
theorem params_solveAlone_of_ne {e : Expr α} (hselect : (s.select (.alone stage)).1 = [i])
    (hsolve : s.solveAlone e h i stage = .ok (b, s')) (hij : i ≠ j) :
    s'.params[j]? = s.params[j]? := by
  have hset : ∀ f : Param α → Param α, (s.updateParam i f).params[j]? = s.params[j]? :=
    fun f => by simp [updateParam, hij]
  cases solveAlone_cases hsolve with
  | assigned => exact hset _
  | @rejected x written t _ _ _ _ hlinearize hres =>
    have hlinearized := params_linearize (s.updateParam i fun p => { p with value := x })
      (.alone stage)
    rw [hlinearize] at hlinearized
    refine Eq.trans ?_ (hset fun p => { p with value := x })
    rw [← hlinearized]
    cases written with
    | true => exact (movesOnly_evalResiduals [] (hres.1 rfl)).getElem?_params List.not_mem_nil
    | false => rw [hres.2 rfl]
  | unwritten _ hlinearize =>
    have hlinearized := params_linearize s (.alone stage)
    rw [hlinearize] at hlinearized
    rw [hlinearized]
  | iterated _ hlinearize hnewton =>
    have hlinearized := params_linearize s (.alone stage)
    have hcolumns := ((s.linearize_spec Anything (.alone stage)).2
      (congrArg Prod.fst hlinearize)).1
    rw [hlinearize] at hlinearized hcolumns
    rw [← hlinearized]
    refine (movesOnly_newton hnewton).getElem?_params ?_
    rw [hcolumns, hselect]
    simpa using hij.symm

end

/-! ## Stages in use -/

/-- The stages in use are those from one up to the given one, which is the next. What is solved
alone has a stage, and everything else is as it was at the start. -/
structure Consecutive (start : EquationSystem α) (stage : Nat) (s : EquationSystem α) : Prop where
  staged : Staged stage s
  pos : 0 < stage
  used : ∀ n, 0 < n ∧ n < stage ↔ ∃ q ∈ s.equations, q.state = .solvedAlone ∧ q.stage = n
  same : SameUnknowns start s
  foreign : s.foreign = start.foreign
  params : List.Forall₂ Param.SetAside start.params s.params
  equations : List.Forall₂ Equation.Settles start.equations s.equations

namespace Consecutive

/-- Nothing is solved alone before the pass, and the first stage comes next. -/
theorem initial (hparams : ∀ p ∈ s.params, p.state ≠ .solvedAlone)
    (hequations : ∀ q ∈ s.equations, q.state ≠ .solvedAlone) : Consecutive s 1 s where
  staged := .initial hparams hequations
  pos := Nat.one_pos
  used n := by
    constructor
    · omega
    · rintro ⟨q, hq, hstate, _⟩
      exact absurd hstate (hequations q hq)
  same := .refl s
  foreign := rfl
  params := List.forall₂_same.2 fun p hp => Or.inl ⟨hparams p hp, rfl⟩
  equations := List.forall₂_same.2 fun _ _ => Or.inl rfl

/-- Handles that were distinct at the start of the pass still are. -/
theorem handlesDistinct (hs : Consecutive start stage s) (hd : start.HandlesDistinct) :
    s.HandlesDistinct :=
  hd.congr hs.same.handles

/-- At a stage in use stand one equation and the one unknown that it refers to. -/
theorem select_eq (hs : Consecutive start stage s) (hd : start.HandlesDistinct) (hpos : 0 < n)
    (hlt : n < stage) : ∃ i k p q, s.select (.alone n) = ([i], [k]) ∧ s.params[i]? = some p ∧
      s.equations[k]? = some q ∧ s.RefersOnlyTo q.expr p.handle := by
  obtain ⟨q, hq, hstate, rfl⟩ := (hs.used n).1 ⟨hpos, hlt⟩
  obtain ⟨k, hk⟩ := List.getElem?_of_mem hq
  obtain ⟨i, p, hselect, hp, href⟩ := (hs.handlesDistinct hd).select_alone hs.staged hk hstate
  exact ⟨i, k, p, q, hselect, hp, hk, Expr.referenced_eq_exactly_iff.1 href⟩

/-- Nothing stands at any other stage. -/
theorem select_eq_nil (hs : Consecutive start stage s) (hn : ¬ (0 < n ∧ n < stage)) :
    s.select (.alone n) = ([], []) := by
  have hnone : ∀ q ∈ s.equations, q.state = .solvedAlone → q.stage ≠ n := fun q hq hstate hstage =>
    hn ((hs.used n).2 ⟨q, hq, hstate, hstage⟩)
  refine Prod.ext (List.eq_nil_iff_forall_not_mem.2 fun j hj => ?_)
    (List.eq_nil_iff_forall_not_mem.2 fun j hj => ?_)
  · obtain ⟨p, hp, hsel⟩ := mem_select_fst.1 hj
    simp only [Selection.hasParam, Bool.and_eq_true, beq_iff_eq] at hsel
    obtain ⟨q, hq, hstate, hstage, _⟩ := hs.staged.fixed p (List.mem_of_getElem? hp) hsel.1
    exact hnone q hq hstate (hstage.trans hsel.2)
  · obtain ⟨q, hq, hsel⟩ := mem_select_snd.1 hj
    simp only [Selection.hasEquation, Bool.and_eq_true, beq_iff_eq] at hsel
    exact hnone q (List.mem_of_getElem? hq) hsel.1 hsel.2

/-- What is set aside takes the next stage. -/
theorem setAside {q : Equation α} (hs : Consecutive start stage s)
    (hq : s.equations[k]? = some q) (hfix : s.fixedAlone? q = some (h, i)) :
    Consecutive start (stage + 1) (s.setAside k i stage) := by
  obtain ⟨hqlive, _, _, p, hp, _, hplive⟩ := fixedAlone?_eq_some hfix
  have hself : (s.setAside k i stage).equations[k]? =
      some { q with state := .solvedAlone, stage } := equations_setAside_self hq
  refine ⟨hs.staged.setAside hq hfix, Nat.succ_pos stage, ?used,
    hs.same.trans ⟨rfl, handles_setAside⟩, hs.foreign, ?params, ?equations⟩
  case used =>
    intro n
    constructor
    · rintro ⟨hpos, hlt⟩
      rcases Nat.lt_succ_iff_lt_or_eq.1 hlt with hlt | rfl
      · obtain ⟨q', hq', hstate, hstage⟩ := (hs.used n).1 ⟨hpos, hlt⟩
        obtain ⟨l, hl⟩ := List.getElem?_of_mem hq'
        have hkl : k ≠ l := by
          rintro rfl
          obtain rfl := Option.some.inj (hl.symm.trans hq)
          simp [hqlive] at hstate
        have hother : (s.setAside k i stage).equations[l]? = some q' := by
          rw [equations_setAside_of_ne hkl, hl]
        exact ⟨q', List.mem_of_getElem? hother, hstate, hstage⟩
      · exact ⟨_, List.mem_of_getElem? hself, rfl, rfl⟩
    · rintro ⟨q', hq', hstate, rfl⟩
      obtain ⟨l, hl⟩ := List.getElem?_of_mem hq'
      by_cases hkl : k = l
      · subst hkl
        obtain rfl := Option.some.inj (hl.symm.trans hself)
        exact ⟨hs.pos, Nat.lt_succ_self stage⟩
      · rw [equations_setAside_of_ne hkl] at hl
        obtain ⟨hpos, hlt⟩ := (hs.used _).2 ⟨q', List.mem_of_getElem? hl, hstate, rfl⟩
        exact ⟨hpos, Nat.lt_succ_of_lt hlt⟩
  case params =>
    refine forall₂_modify hs.params fun p₀ p' _ hp' hrel => ?_
    obtain rfl := Option.some.inj (hp'.symm.trans hp)
    rcases hrel with ⟨_, rfl⟩ | ⟨_, hstate, _⟩
    · exact Or.inr ⟨hplive, rfl, rfl, rfl⟩
    · simp [hplive] at hstate
  case equations =>
    refine forall₂_modify hs.equations fun q₀ q' _ hq' hrel => ?_
    obtain rfl := Option.some.inj (hq'.symm.trans hq)
    rcases hrel with rfl | ⟨_, n, rfl⟩
    · exact Or.inr ⟨hqlive, stage, rfl⟩
    · cases hqlive

/-- Moving an unknown that is solved alone. -/
theorem move {p : Param α} (hs : Consecutive start stage s) (hframe : Frame Anything s s')
    (hp : s.params[i]? = some p) (hstate : p.state = .solvedAlone)
    (hothers : ∀ j, i ≠ j → s'.params[j]? = s.params[j]?) : Consecutive start stage s' where
  staged := hs.staged.frame hframe
  pos := hs.pos
  used := by
    rw [hframe.equations]
    exact hs.used
  same := hs.same.trans hframe.sameUnknowns
  foreign := hframe.foreign.trans hs.foreign
  params := by
    refine forall₂_of_getElem? (hs.params.length_eq.trans hframe.length_eq.symm)
      fun j p₀ p' hp₀ hp' => ?_
    obtain ⟨p₁, hp₁, hrel⟩ := forall₂_getElem? hs.params hp₀
    by_cases hij : i = j
    · subst hij
      obtain ⟨p₂, hp₂, hkept⟩ := hframe.kept_of hp'
      obtain rfl := Option.some.inj (hp₁.symm.trans hp)
      obtain rfl := Option.some.inj (hp₁.symm.trans hp₂)
      rcases hrel with ⟨hnot, _⟩ | ⟨hlive, _, hhandle, hroot⟩
      · exact absurd hstate hnot
      · exact Or.inr ⟨hlive, hkept.state.trans hstate, hkept.handle.trans hhandle,
          hkept.root.trans hroot⟩
    · rw [hothers j hij, hp₁] at hp'
      rwa [← Option.some.inj hp']
  equations := by
    rw [hframe.equations]
    exact hs.equations

/-- At the stage of what has been set aside stands nothing else. -/
theorem select_setAside {q : Equation α} (hs : Consecutive start stage s)
    (hd : start.HandlesDistinct) (hq : s.equations[k]? = some q)
    (hfix : s.fixedAlone? q = some (h, i)) :
    (s.setAside k i stage).select (.alone stage) = ([i], [k]) := by
  obtain ⟨_, _, _, p, hp, _⟩ := fixedAlone?_eq_some hfix
  have hnext := hs.setAside hq hfix
  obtain ⟨j, _, hselect, _⟩ := (hnext.handlesDistinct hd).select_alone hnext.staged
    (equations_setAside_self hq) rfl
  have hi : i ∈ ((s.setAside k i stage).select (.alone stage)).1 :=
    mem_select_fst.2 ⟨_, params_setAside_self hp, by simp [Selection.hasParam]⟩
  rw [hselect] at hi ⊢
  rw [List.mem_singleton.1 hi]

variable [Scalar α]

/-- One equation of the pass, solved or not, takes the next stage with its unknown and leaves all
others. -/
theorem step {q : Equation α} (hs : Consecutive start stage s) (hd : start.HandlesDistinct)
    (hq : s.equations[k]? = some q) (hfix : s.fixedAlone? q = some (h, i))
    (hsolve : (s.setAside k i stage).solveAlone q.expr h i stage = .ok (b, s')) :
    Consecutive start (stage + 1) s' ∧ ∀ j, i ≠ j → s'.params[j]? = s.params[j]? := by
  obtain ⟨_, _, _, p, hp, _⟩ := fixedAlone?_eq_some hfix
  have hselect := congrArg Prod.fst (hs.select_setAside hd hq hfix)
  have hothers : ∀ j, i ≠ j → s'.params[j]? = (s.setAside k i stage).params[j]? :=
    fun j => params_solveAlone_of_ne hselect hsolve
  refine ⟨(hs.setAside hq hfix).move (frame_solveAlone hsolve) (params_setAside_self hp) rfl
    hothers, fun j hij => ?_⟩
  rw [hothers j hij, params_setAside_of_ne hij]

end Consecutive

section
variable [Scalar α]

/-! ## How an unknown has been solved for -/

/-- The iteration on what is solved alone at a stage, which is the equation and the unknown at the
two positions and nothing else, has converged and left the unknown as it is now. -/
def IteratedAlone (s : EquationSystem α) (n i k : Nat) : Prop :=
  ∃ t u v, SameUnknowns t s ∧ s.foreign = t.foreign ∧ s.equations[k]? = t.equations[k]? ∧
    t.select (.alone n) = ([i], [k]) ∧ t.linearize (.alone n) = (true, u) ∧
    u.newton = .ok (true, v) ∧ s.params[i]? = v.params[i]?

/-- The unknown at the position has been given a value that can be meant in closed form, or an
iteration on its equation has converged. -/
def SolvedInTurn (s : EquationSystem α) (i : Nat) (p : Param α) : Prop :=
  p.known = true ∧ s.settings.isUnreasonable p.value = false ∨ ∃ k, s.IteratedAlone p.stage i k

/-- Solving another equation changes nothing of this. -/
theorem SolvedInTurn.mono {p : Param α} (hs : s.SolvedInTurn i p) (hsame : SameUnknowns s s')
    (hforeign : s'.foreign = s.foreign) (hi : s'.params[i]? = s.params[i]?)
    (hequations : ∀ {k : Nat} {q : Equation α}, s.equations[k]? = some q →
      q.state = .solvedAlone → s'.equations[k]? = some q) : s'.SolvedInTurn i p := by
  rcases hs with hknown | ⟨k, t, u, v, hsame', hforeign', hk, hselect, hlinearize, hnewton, hv⟩
  · rw [← hsame.settings] at hknown
    exact Or.inl hknown
  · have hmem : k ∈ (t.select (.alone p.stage)).2 := by
      rw [hselect]
      exact List.mem_singleton_self k
    obtain ⟨q, hq, hsel⟩ := mem_select_snd.1 hmem
    simp only [Selection.hasEquation, Bool.and_eq_true, beq_iff_eq] at hsel
    refine Or.inr ⟨k, t, u, v, hsame'.trans hsame, hforeign.trans hforeign', ?_, hselect,
      hlinearize, hnewton, hi.trans hv⟩
    rw [hq] at hk ⊢
    exact hequations hk hsel.1

/-- An equation that is solved gives its unknown a value in closed form or by an iteration. -/
theorem solvedInTurn_solveAlone {q : Equation α} {p p' : Param α}
    (hselect : s.select (.alone stage) = ([i], [k])) (hp : s.params[i]? = some p)
    (hstage : p.stage = stage) (hsolve : s.solveAlone q.expr h i stage = .ok (true, s'))
    (hp' : s'.params[i]? = some p') : s'.SolvedInTurn i p' := by
  have hframe := frame_solveAlone hsolve
  obtain ⟨p₀, hp₀, hkept⟩ := hframe.kept_of hp'
  obtain rfl := Option.some.inj (hp₀.symm.trans hp)
  obtain rfl := hkept.stage.trans hstage
  cases solveAlone_cases hsolve with
  | assigned _ _ hreasonable =>
    simp only [updateParam, List.getElem?_modify_eq, hp, Option.map_eq_map, Option.map_some,
      Option.some.injEq] at hp'
    subst hp'
    exact Or.inl ⟨rfl, hreasonable⟩
  | iterated _ hlinearize hnewton =>
    exact Or.inr ⟨k, s, _, s', hframe.sameUnknowns, hframe.foreign, by rw [hframe.equations],
      hselect, hlinearize, hnewton, rfl⟩

/-- The stages in use are consecutive, and every unknown that has one has been solved for. -/
structure InTurn (start : EquationSystem α) (stage : Nat) (s : EquationSystem α) : Prop where
  consecutive : Consecutive start stage s
  solved : ∀ {i : Nat} {p : Param α}, s.params[i]? = some p → p.state = .solvedAlone →
    s.SolvedInTurn i p

/-- One equation solved alone keeps what has been solved before it. -/
theorem InTurn.step {q : Equation α} (hs : InTurn start stage s) (hd : start.HandlesDistinct)
    (hq : s.equations[k]? = some q) (hfix : s.fixedAlone? q = some (h, i))
    (hsolve : (s.setAside k i stage).solveAlone q.expr h i stage = .ok (true, s')) :
    InTurn start (stage + 1) s' := by
  obtain ⟨hnext, hothers⟩ := hs.consecutive.step hd hq hfix hsolve
  obtain ⟨hqlive, _, _, p, hp, _⟩ := fixedAlone?_eq_some hfix
  have hframe := frame_solveAlone hsolve
  refine ⟨hnext, fun {j p'} hp' hstate => ?_⟩
  by_cases hij : i = j
  · subst hij
    exact solvedInTurn_solveAlone (hs.consecutive.select_setAside hd hq hfix)
      (params_setAside_self hp) rfl hsolve hp'
  · have hj := hothers j hij
    have haside : SameUnknowns s (s.setAside k i stage) := ⟨rfl, handles_setAside⟩
    refine (hs.solved (hj.symm.trans hp') hstate).mono (haside.trans hframe.sameUnknowns)
      hframe.foreign hj fun {l q'} hl hstate' => ?_
    have hkl : k ≠ l := by
      rintro rfl
      obtain rfl := Option.some.inj (hl.symm.trans hq)
      simp [hqlive] at hstate'
    rw [hframe.equations, equations_setAside_of_ne hkl, hl]

/-! ## What is left over -/

/-- The equation at the position, if there is one, fixes no unknown that could be solved for. -/
def Exhausted (s : EquationSystem α) (k : Nat) : Prop :=
  ∀ {q : Equation α}, s.equations[k]? = some q → s.fixedAlone? q = none

omit [Scalar α] in
/-- A live equation that refers to one unknown fixes it, if that is live as well. -/
theorem fixedAlone?_of_live {q : Equation α} {p : Param α} (hlive : q.state = .live)
    (href : q.expr.referenced s.isUnknown = .exactly h) (hi : s.position? h = some i)
    (hp : s.params[i]? = some p) (hplive : p.state = .live) :
    s.fixedAlone? q = some (h, i) := by
  simp [fixedAlone?, hlive, href, hi, hp, hplive]

omit [Scalar α] in
/-- An equation is not exhausted by setting aside another one, and that one is. -/
theorem Exhausted.of_setAside {q : Equation α} (hq : s.equations[k]? = some q)
    (hfix : s.fixedAlone? q = some (h, i)) (hframe : Frame Anything (s.setAside k i stage) t)
    (hl : l = k ∨ s.Exhausted l) : t.Exhausted l := by
  obtain ⟨_, _, _, p, hp, _⟩ := fixedAlone?_eq_some hfix
  intro q' hq'
  rw [hframe.equations] at hq'
  refine Option.eq_none_iff_forall_ne_some.2 fun x hfix' => ?_
  obtain ⟨hlive, href, hj, p', hp', _, hplive⟩ := fixedAlone?_eq_some hfix'
  -- What can still be solved could have been solved before.
  have hkl : k ≠ l := by
    rintro rfl
    obtain rfl := Option.some.inj (hq'.symm.trans (equations_setAside_self hq))
    cases hlive
  obtain ⟨p₁, hp₁, hkept⟩ := hframe.kept_of hp'
  have hij : i ≠ x.2 := by
    intro hij
    rw [← hij, params_setAside_self hp] at hp₁
    obtain rfl := Option.some.inj hp₁
    simp [hkept.state] at hplive
  rw [equations_setAside_of_ne hkl] at hq'
  rw [params_setAside_of_ne hij] at hp₁
  rw [hframe.isUnknown_eq, isUnknown_congr handles_setAside] at href
  rw [hframe.position?_eq, position?_congr handles_setAside] at hj
  have hbefore := fixedAlone?_of_live hlive href hj hp₁ (hkept.state.symm.trans hplive)
  rw [hl.resolve_left hkl.symm hq'] at hbefore
  cases hbefore

/-- If no equation of the pass fails, it leaves none of them that it could solve. -/
theorem exhausted_solveAloneFrom : ∀ {ks : List Nat} {stage : Nat} {s : EquationSystem α},
    s.solveAloneFrom stage ks = .ok (true, s') → ∀ l, l ∈ ks ∨ s.Exhausted l → s'.Exhausted l
  | [], _, _, hrun, l, hl => by
    cases hrun
    exact hl.resolve_left List.not_mem_nil
  | k :: ks, stage, s, hrun, l, hl => by
    have hpass : s.Exhausted k → l ∈ ks ∨ s.Exhausted l := by
      intro hk
      rcases hl with hl | hl
      · rcases List.mem_cons.1 hl with rfl | hl
        · exact Or.inr hk
        · exact Or.inl hl
      · exact Or.inr hl
    rw [solveAloneFrom] at hrun
    split at hrun
    · next hnone =>
      exact exhausted_solveAloneFrom hrun l (hpass fun {q} hq => by simp [hnone] at hq)
    · next q hq =>
      split at hrun
      · next hnone =>
        refine exhausted_solveAloneFrom hrun l (hpass fun {q'} hq' => ?_)
        rwa [← Option.some.inj (hq.symm.trans hq')]
      · next h i hfix =>
        obtain ⟨⟨solved, t⟩, hsolve, hrun⟩ := bind_eq_ok.1 hrun
        cases solved with
        | false => cases hrun
        | true =>
          refine exhausted_solveAloneFrom hrun l ?_
          have hset := Exhausted.of_setAside (l := l) hq hfix (frame_solveAlone hsolve)
          rcases hl with hl | hl
          · rcases List.mem_cons.1 hl with rfl | hl
            · exact Or.inr (hset (Or.inl rfl))
            · exact Or.inl hl
          · exact Or.inr (hset (Or.inr hl))

/-! ## The pass as a whole -/

/-- At each of the stages from one to `count` stand one equation and the one unknown that it refers
to, and nothing at any other stage. Unknowns and equations that are not solved alone are as they
were. -/
structure SolvedPairs (count : Nat) (s s' : EquationSystem α) : Prop where
  pair : ∀ n, 1 ≤ n → n ≤ count → ∃ i k p q, s'.select (.alone n) = ([i], [k]) ∧
    s'.params[i]? = some p ∧ s'.equations[k]? = some q ∧ s'.RefersOnlyTo q.expr p.handle
  beyond : ∀ n, n = 0 ∨ count < n → s'.select (.alone n) = ([], [])
  params : List.Forall₂ Param.SetAside s.params s'.params
  equations : List.Forall₂ Equation.Settles s.equations s'.equations

omit [Scalar α] in
/-- At its end, the pass has made pairs at the stages up to the last one in use. -/
theorem Consecutive.solvedPairs (hs : Consecutive s stage s') (hd : s.HandlesDistinct) :
    SolvedPairs (stage - 1) s s' where
  pair n hpos hle := hs.select_eq hd hpos (by have := hs.pos; omega)
  beyond n hn := hs.select_eq_nil (by omega)
  params := hs.params
  equations := hs.equations

omit [Scalar α] in
/-- Where no equation is left that could be solved, one that is still live and refers to one unknown
refers to one that is solved alone. -/
theorem Consecutive.exists_solvedAlone (hs : Consecutive s stage s')
    (hparams : ∀ p ∈ s.params, p.state ≠ .eliminated)
    (hsubstituted : ∀ q ∈ s.equations, ∀ p ∈ s.params, q.expr.dependsOn p.handle = true →
      p.state ≠ .substituted)
    (hexhausted : ∀ k, s'.Exhausted k) {q : Equation α} (hq : q ∈ s'.equations)
    (hlive : q.state = .live) (honly : s'.RefersOnlyTo q.expr h) :
    ∃ p ∈ s'.params, p.handle = h ∧ p.state = .solvedAlone := by
  have href := Expr.referenced_eq_exactly_iff.2 honly
  obtain ⟨i, p, hi, hp⟩ := exists_of_referenced href
  obtain ⟨_, hp', rfl⟩ := exists_of_position? hi
  obtain rfl := Option.some.inj (hp.symm.trans hp')
  refine ⟨p, List.mem_of_getElem? hp, rfl, ?_⟩
  have hnotlive : p.state ≠ .live := by
    intro hplive
    obtain ⟨k, hk⟩ := List.getElem?_of_mem hq
    have hfix := fixedAlone?_of_live hlive href hi hp hplive
    rw [hexhausted k hk] at hfix
    cases hfix
  obtain ⟨p₀, hp₀, hrel⟩ := forall₂_mem_of hs.params (List.mem_of_getElem? hp)
  obtain ⟨q₀, hq₀, hsettles⟩ := forall₂_mem_of hs.equations hq
  rcases hrel with ⟨_, rfl⟩ | ⟨_, halone, _⟩
  · rcases hsettles with rfl | ⟨_, _, rfl⟩
    · have hnotsubstituted := hsubstituted _ hq₀ _ hp₀ ((honly _).2 rfl).1
      cases hstate : p.state with
      | live => exact absurd hstate hnotlive
      | substituted => exact absurd hstate hnotsubstituted
      | solvedAlone => rfl
      | eliminated => exact absurd hstate (hparams _ hp₀)
    · cases hlive
  · exact halone

/-- **Equations and unknowns are solved alone in pairs.** In a system whose unknowns have different
handles, none of which is solved alone or eliminated, and with equations that are not solved alone
and refer to no substituted unknown, the pass over the equations of one unknown has a result. The
stages in use are then those from one to some number, at each of them stand one equation and the one
unknown that it refers to, and all other unknowns are as they were. If no equation has failed, a
live equation that refers to one unknown refers to one that is solved alone, and each of these has
been given a value that can be meant in closed form, or an iteration on its equation has
converged. -/
theorem solveSingletons_pairs (hd : s.HandlesDistinct)
    (hparams : ∀ p ∈ s.params, p.state ≠ .solvedAlone ∧ p.state ≠ .eliminated)
    (hequations : ∀ q ∈ s.equations, q.state ≠ .solvedAlone)
    (hsubstituted : ∀ q ∈ s.equations, ∀ p ∈ s.params, q.expr.dependsOn p.handle = true →
      p.state ≠ .substituted) :
    ∃ b s', s.solveSingletons = .ok (b, s') ∧ (∃ count, SolvedPairs count s s') ∧
      (b = true →
        (∀ q ∈ s'.equations, q.state = .live → ∀ h, s'.RefersOnlyTo q.expr h →
          ∃ p ∈ s'.params, p.handle = h ∧ p.state = .solvedAlone) ∧
        ∀ i p, s'.params[i]? = some p → p.state = .solvedAlone → s'.SolvedInTurn i p) := by
  obtain ⟨⟨b, s'⟩, hrun, _⟩ := s.yields_solveSingletons
  refine ⟨b, s', hrun, ?_⟩
  have hinitial : InTurn s 1 s :=
    ⟨.initial (fun p hp => (hparams p hp).1) hequations,
      fun {i p} hp hstate => absurd hstate (hparams p (List.mem_of_getElem? hp)).1⟩
  rcases solveAloneFrom_cases (P := InTurn s) (fun hs hq hfix hsolve => hs.step hd hq hfix hsolve)
    hinitial hrun with ⟨rfl, stage, hs⟩ | ⟨rfl, stage, t, k, q, h, i, hs, hq, hfix, hsolve⟩
  · refine ⟨⟨_, hs.consecutive.solvedPairs hd⟩, fun _ => ⟨?_, fun i p => hs.solved⟩⟩
    intro q hq hlive h honly
    refine hs.consecutive.exists_solvedAlone (fun p hp => (hparams p hp).2) hsubstituted
      (fun k => ?_) hq hlive honly
    refine exhausted_solveAloneFrom hrun k ?_
    rcases Nat.lt_or_ge k s.equations.length with hlt | hge
    · exact Or.inl (List.mem_range.2 hlt)
    · exact Or.inr fun {q} hq => by simp [List.getElem?_eq_none hge] at hq
  · exact ⟨⟨_, (hs.consecutive.step hd hq hfix hsolve).1.solvedPairs hd⟩, nofun⟩

end

/-- Of the equations, the first and the last one can be solved in closed form, the third one cannot,
the second one refers to two unknowns, and the fourth one to one that is solved already. The last
unknown has been substituted. -/
def oneAtATime : EquationSystem (Exact ℚ) :=
  { empty Settings.rational with
    params := ([1, 2, 3, 4].map fun n => { handle := ⟨n⟩, value := .number 0 }) ++
      [{ handle := ⟨5⟩, value := .number 0, root := some ⟨2⟩, state := .substituted }]
    foreign := [(⟨7⟩, .number 4)]
    equations :=
      [.const (.number 2) * .param ⟨1⟩ - .const (.number 3),
        .param ⟨1⟩ + .param ⟨2⟩ - .const (.number 10),
        .param ⟨3⟩ + .param ⟨3⟩ - .const (.number 2),
        .param ⟨1⟩ - .const (.number 1),
        .param ⟨4⟩ - .param ⟨7⟩].zipIdx.map fun (e, k) =>
          { handle := ⟨.constraint ⟨1⟩, k⟩, expr := e } }

/-- The third unknown is the one that an iteration has found. -/
theorem solveSingletons_oneAtATime : oneAtATime.HandlesDistinct ∧
    (∀ p ∈ oneAtATime.params, p.state ≠ .solvedAlone ∧ p.state ≠ .eliminated) ∧
    (∀ q ∈ oneAtATime.equations, q.state ≠ .solvedAlone) ∧
    (∀ q ∈ oneAtATime.equations, ∀ p ∈ oneAtATime.params, q.expr.dependsOn p.handle = true →
      p.state ≠ .substituted) ∧
    ∃ s', oneAtATime.solveSingletons = .ok (true, s') ∧
      (∃ count, SolvedPairs count oneAtATime s') ∧
      (∀ i p, s'.params[i]? = some p → p.state = .solvedAlone → s'.SolvedInTurn i p) ∧
      s'.params.map (·.value) =
        [.number (3 / 2), .number 0, .number 1, .number 4, .number 0] ∧
      s'.params.map (·.known) = [true, false, false, true, false] := by
  have hd : oneAtATime.HandlesDistinct := by decide +kernel
  have hparams : ∀ p ∈ oneAtATime.params, p.state ≠ .solvedAlone ∧ p.state ≠ .eliminated := by
    decide +kernel
  have hequations : ∀ q ∈ oneAtATime.equations, q.state ≠ .solvedAlone := by decide +kernel
  have hsubstituted : ∀ q ∈ oneAtATime.equations, ∀ p ∈ oneAtATime.params,
      q.expr.dependsOn p.handle = true → p.state ≠ .substituted := by decide +kernel
  obtain ⟨b, s', hrun, hpairs, hsolved⟩ :=
    solveSingletons_pairs hd hparams hequations hsubstituted
  have hresult : (oneAtATime.solveSingletons.toOption.map fun (b, s') =>
      (b, s'.params.map (·.value), s'.params.map (·.known))) =
      some (true, [.number (3 / 2), .number 0, .number 1, .number 4, .number 0],
        [true, false, false, true, false]) := by
    decide +kernel
  rw [hrun] at hresult
  simp only [Except.toOption, Option.map_some, Option.some.injEq, Prod.mk.injEq] at hresult
  obtain ⟨rfl, hvalues, hknown⟩ := hresult
  exact ⟨hd, hparams, hequations, hsubstituted, s', hrun, hpairs, (hsolved rfl).2, hvalues, hknown⟩

end EquationSystem
end SketchSolver
