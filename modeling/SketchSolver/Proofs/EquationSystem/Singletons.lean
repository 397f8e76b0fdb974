import SketchSolver.EquationSystem.Singletons
import SketchSolver.Proofs.Expr.Isolation
import SketchSolver.Proofs.EquationSystem.Newton

/-!
# Equations solved alone

An equation that is solved alone fixes one unknown and refers to no other. It is solved in closed
form or by an iteration, and what this says about the values (`SolvedFor`) depends on the parameters
of the equation only (`SolvedFor.congr`), so it goes on to hold while these keep their values. The
ways in which one equation is solved, or fails to be, are those of `SolvesAlone`.

`Settled` is the invariant of the pass: every equation solved so far has a stage that it shares with
the one unknown it fixes, so what is solved at a later stage moves none of them
(`Settled.step`).
-/

namespace SketchSolver

/-- Isolation of `h` in the equation `e = 0` gives it the value `x`, where parameters have the given
values. -/
def Isolates [Scalar α] (value : ParamHandle → α) (e : Expr α) (h : ParamHandle) (x : α) : Prop :=
  ∃ rhs, e.fold.isolate (.byHandle value) h = .ok rhs ∧ x = rhs.eval (.byHandle value)

/-- What isolation gives is a matter of the values of the parameters of the equation. -/
theorem Isolates.congr [Scalar α] {v w : ParamHandle → α} {e : Expr α} {h : ParamHandle} {x : α}
    (hx : Isolates v e h x) (hcan : e.fold.canIsolate h = true)
    (hagree : ∀ k, e.dependsOn k = true → v k = w k) : Isolates w e h x := by
  have hfold : ∀ k, e.fold.dependsOn k = true → v k = w k := fun k hk =>
    hagree k (Expr.dependsOn_of_fold hk)
  obtain ⟨rhs, hiso, rfl⟩ := hx
  obtain ⟨found, hfound, hdep⟩ := Expr.dependsOn_isolateFrom (.byHandle v) hcan (.const 0)
  obtain rfl : found = rhs := Except.ok.inj (hfound.symm.trans hiso)
  refine ⟨found, ?_, Expr.eval_byHandle_congr fun k hk => ?_⟩
  · rw [Expr.isolate, ← Expr.isolateFrom_congr hcan hfold (.const 0) (fun k hk => nomatch hk)]
    exact hiso
  · rcases hdep k hk with ⟨hk, _⟩ | hk
    · exact hfold k hk
    · cases hk

/-- The equation `e = 0` has been solved for `h`, which had a value before and has its present one
since: in closed form, or, where that is impossible, so that the residual counts as zero. -/
inductive SolvedFor [Scalar α] (settings : Settings α) (value : ParamHandle → α) (old : α)
    (e : Expr α) (h : ParamHandle) : Prop where
  | inClosedForm (rhs : Expr α) (hcan : e.fold.canIsolate h = true)
      (hiso : e.fold.isolate (.byHandle (Function.update value h old)) h = .ok rhs)
      (hvalue : value h = rhs.eval (.byHandle (Function.update value h old)))
      (hreasonable : settings.isUnreasonable (value h) = false)
  | numerically (hcan : e.fold.canIsolate h = false)
      (hjudge : settings.judge [e.fold.eval (.byHandle value)] = .converged)

/-- Whether an equation is solved is a matter of the values of its parameters. -/
theorem SolvedFor.congr [Scalar α] {settings : Settings α} {v w : ParamHandle → α} {old : α}
    {e : Expr α} {h : ParamHandle} (hs : SolvedFor settings v old e h)
    (hagree : ∀ k, e.dependsOn k = true → v k = w k) : SolvedFor settings w old e h := by
  have hfold : ∀ k, e.fold.dependsOn k = true → v k = w k := fun k hk =>
    hagree k (Expr.dependsOn_of_fold hk)
  cases hs with
  | inClosedForm rhs hcan hiso hvalue hreasonable =>
    have hh : v h = w h := hfold h (Expr.dependsOn_of_canIsolate hcan)
    have hupdate : ∀ k, e.dependsOn k = true →
        Function.update v h old k = Function.update w h old k := by
      intro k hk
      by_cases hkh : k = h
      · rw [hkh, Function.update_self, Function.update_self]
      · rw [Function.update_of_ne hkh, Function.update_of_ne hkh, hagree k hk]
    obtain ⟨x, hx, hwx⟩ := Isolates.congr ⟨rhs, hiso, hvalue⟩ hcan hupdate
    rw [hh] at hwx hreasonable
    exact .inClosedForm x hcan hx hwx hreasonable
  | numerically hcan hjudge =>
    rw [Expr.eval_byHandle_congr hfold] at hjudge
    exact .numerically hcan hjudge

/-- An unknown keeps its value, or was live and is solved alone. -/
def Param.Settles (p p' : Param α) : Prop :=
  p'.handle = p.handle ∧ p'.root = p.root ∧
    (p'.state = p.state ∧ p'.value = p.value ∨ p.state = .live ∧ p'.state = .solvedAlone)

/-- An equation is the one it was, or was live and is solved alone. -/
def Equation.Settles (q q' : Equation α) : Prop :=
  q' = q ∨ q.state = .live ∧ ∃ n, q' = { q with state := .solvedAlone, stage := n }

namespace EquationSystem

variable {s s' start : EquationSystem α} {h : ParamHandle} {i k stage : Nat}

/-- What is asked of an equation that fixes an unknown alone. -/
theorem fixedAlone?_eq_some {q : Equation α} (hfix : s.fixedAlone? q = some (h, i)) :
    q.state = .live ∧ q.expr.referenced s.isUnknown = .exactly h ∧ s.position? h = some i ∧
      ∃ p, s.params[i]? = some p ∧ p.handle = h ∧ p.state = .live := by
  unfold fixedAlone? at hfix
  split at hfix
  · cases hfix
  · next hlive =>
    rw [bne_iff_ne, ne_eq, not_not] at hlive
    split at hfix
    · next x href =>
      cases hj : s.position? x with
      | none => simp [hj] at hfix
      | some j =>
        obtain ⟨p, hp, hph⟩ := exists_of_position? hj
        simp only [hj, hp, Option.ite_none_right_eq_some, beq_iff_eq, Option.some.injEq,
          Prod.mk.injEq] at hfix
        obtain ⟨hplive, rfl, rfl⟩ := hfix
        exact ⟨hlive, href, hj, p, hp, hph, hplive⟩
    · cases hfix

section
variable [Scalar α]

/-- Isolation in slot form is isolation by handles. -/
theorem exists_isolate_slotForm {e : Expr α} (hcan : e.fold.canIsolate h = true) :
    ∃ rhs, e.fold.isolate (.byHandle s.lookup.value) h = .ok rhs ∧
      (s.slotForm e).isolate s.lookup h = .ok (rhs.toSlots s.position?) ∧
      (rhs.toSlots s.position?).eval s.lookup = rhs.eval (.byHandle s.lookup.value) := by
  have hslot : ∀ k i, s.position? k = some i → s.lookup.slot i k = s.lookup.value k :=
    fun _ _ hi => slot_of_position? hi
  obtain ⟨rhs, hrhs, _⟩ := Expr.dependsOn_isolateFrom (.byHandle s.lookup.value) hcan
    (.const 0)
  exact ⟨rhs, hrhs, Expr.isolateFrom_toSlots hslot hcan hrhs, Expr.eval_toSlots hslot rhs⟩

/-- In closed form, an unknown is what isolation says at the present values. -/
theorem valueFrom_eq_ok {e : Expr α} {x : α} (hcan : e.fold.canIsolate h = true)
    (hx : s.valueFrom e h = .ok x) : Isolates s.lookup.value e h x := by
  obtain ⟨rhs, hrhs, hslots, heval⟩ := exists_isolate_slotForm (s := s) hcan
  refine ⟨rhs, hrhs, ?_⟩
  unfold valueFrom at hx
  rw [hslots] at hx
  simp only [value] at hx
  split at hx
  · cases hx
    exact heval
  · cases hx

/-- Giving an unknown the reasonable value that isolation finds for it moves this unknown only, and
solves the equation. -/
theorem assign_spec (moved : ParamState → Nat → Prop) {e : Expr α} {p : Param α} {x : α}
    (hd : s.HandlesDistinct) (hp : s.params[i]? = some p) (hmoved : moved p.state p.stage)
    (hcan : e.fold.canIsolate p.handle = true) (hx : s.valueFrom e p.handle = .ok x)
    (hreasonable : s.settings.isUnreasonable x = false)
    (hs' : s' = s.updateParam i fun p => { p with value := x, known := true }) :
    Frame moved s s' ∧ StaysReasonable s s' ∧
      s'.lookup.value = Function.update s.lookup.value p.handle x ∧
      SolvedFor s.settings s'.lookup.value (s.lookup.value p.handle) e p.handle := by
  have hlookup : s'.lookup.value = Function.update s.lookup.value p.handle x := by
    rw [hs']
    exact hd.lookup_updateParam hp fun _ => rfl
  refine ⟨?frame, ?reasonable, hlookup, ?solved⟩
  case frame =>
    rw [hs']
    refine .updateParam fun p' hp' => ⟨rfl, rfl, rfl, rfl, fun hm => ?_⟩
    rw [hp] at hp'
    cases hp'
    exact absurd hmoved hm
  case reasonable =>
    rw [hs']
    exact .updateParam fun _ => hreasonable
  case solved =>
    obtain ⟨rhs, hrhs, hvalue⟩ := valueFrom_eq_ok hcan hx
    rw [hlookup]
    -- Undoing the assignment gives the values that isolation was done at.
    refine .inClosedForm rhs hcan ?_ ?_ ?_
    · rw [Function.update_idem, Function.update_eq_self, hrhs]
    · rw [Function.update_idem, Function.update_eq_self, Function.update_self, hvalue]
    · rw [Function.update_self, hreasonable]

/-- An unknown that is solved alone at a stage. -/
def SolvedAt (stage : Nat) (state : ParamState) (n : Nat) : Prop :=
  state = .solvedAlone ∧ n = stage

/-- An unknown that can be isolated is referred to once, so whether it can be is all that is
asked. -/
theorem isolable_slotForm (e : Expr α) :
    ((s.slotForm e).countReferences h == 1 && (s.slotForm e).canIsolate h) =
      e.fold.canIsolate h := by
  rw [slotForm, Expr.canIsolate_toSlots]
  cases hcan : e.fold.canIsolate h with
  | false => exact Bool.and_false _
  | true =>
    rw [← Expr.canIsolate_toSlots] at hcan
    rw [Expr.countReferences_of_canIsolate hcan]
    rfl

/-- How an equation `e = 0` is solved for the unknown `h` at a position. -/
inductive SolvesAlone (s : EquationSystem α) (e : Expr α) (h : ParamHandle) (i stage : Nat) :
    Bool → EquationSystem α → Prop
  /-- The unknown gets the value that isolation finds. -/
  | assigned {x : α} (hcan : e.fold.canIsolate h = true) (hx : s.valueFrom e h = .ok x)
      (hreasonable : s.settings.isUnreasonable x = false) :
      SolvesAlone s e h i stage true (s.updateParam i fun p => { p with value := x, known := true })
  /-- The value that isolation finds cannot be meant, and is kept for the report. -/
  | rejected {x : α} {written : Bool} {t s' : EquationSystem α} (hcan : e.fold.canIsolate h = true)
      (hx : s.valueFrom e h = .ok x) (hunreasonable : s.settings.isUnreasonable x = true)
      (hlinearize : (s.updateParam i fun p => { p with value := x }).linearize (.alone stage) =
        (written, t))
      (hres : (written = true → t.evalResiduals = .ok s') ∧ (written = false → s' = t)) :
      SolvesAlone s e h i stage false s'
  /-- There is no closed form, and the equation may not be linearized. -/
  | unwritten {t : EquationSystem α} (hcan : e.fold.canIsolate h = false)
      (hlinearize : s.linearize (.alone stage) = (false, t)) : SolvesAlone s e h i stage false t
  /-- There is no closed form, and the equation is iterated on. -/
  | iterated {b : Bool} {t s' : EquationSystem α} (hcan : e.fold.canIsolate h = false)
      (hlinearize : s.linearize (.alone stage) = (true, t)) (hnewton : t.newton = .ok (b, s')) :
      SolvesAlone s e h i stage b s'

/-- There is no other way to solve an equation alone. -/
theorem solveAlone_cases {e : Expr α} {b : Bool} (hsolve : s.solveAlone e h i stage = .ok (b, s')) :
    SolvesAlone s e h i stage b s' := by
  simp only [solveAlone] at hsolve
  rw [isolable_slotForm] at hsolve
  cases hcan : e.fold.canIsolate h with
  | true =>
    rw [if_pos hcan] at hsolve
    obtain ⟨x, hx, hsolve⟩ := bind_eq_ok.1 hsolve
    change (if s.settings.isUnreasonable x = true then _ else _) = _ at hsolve
    cases hunreasonable : s.settings.isUnreasonable x with
    | true =>
      rw [if_pos hunreasonable] at hsolve
      cases hlinearize :
          (s.updateParam i fun p => { p with value := x }).linearize (.alone stage) with
      | mk written t =>
        simp only [hlinearize] at hsolve
        cases written with
        | true =>
          obtain ⟨_, hres, hsolve⟩ := bind_eq_ok.1 hsolve
          cases hsolve
          exact .rejected hcan hx hunreasonable hlinearize ⟨fun _ => hres, nofun⟩
        | false =>
          cases hsolve
          exact .rejected hcan hx hunreasonable hlinearize ⟨nofun, fun _ => rfl⟩
    | false =>
      rw [if_neg (by simp [hunreasonable])] at hsolve
      cases hsolve
      have heq : ((s.updateParam i fun p => { p with value := x }).updateParam i
          fun p => { p with known := true }) =
          s.updateParam i fun p => { p with value := x, known := true } := by
        simp [updateParam, List.modify_modify_eq, Function.comp_def]
      rw [heq]
      exact .assigned hcan hx hunreasonable
  | false =>
    rw [if_neg (by simp [hcan])] at hsolve
    cases hlinearize : s.linearize (.alone stage) with
    | mk written t =>
      simp only [hlinearize] at hsolve
      cases written with
      | false =>
        cases hsolve
        exact .unwritten hcan hlinearize
      | true => exact .iterated hcan hlinearize hsolve

/-- Solving an equation for an unknown moves what is solved at its stage, and nothing else. -/
theorem solveAlone_eq_ok (stage : Nat) {q : Equation α} {p : Param α} (hd : s.HandlesDistinct)
    (hq : s.equations[k]? = some q) (hqstate : q.state = .solvedAlone) (hqstage : q.stage = stage)
    (hp : s.params[i]? = some p) (hpstate : p.state = .solvedAlone) (hpstage : p.stage = stage)
    (h : s.solveAlone q.expr p.handle i stage = .ok (true, s')) :
    Frame (SolvedAt stage) s s' ∧ StaysReasonable s s' ∧
      SolvedFor s'.settings s'.lookup.value p.value q.expr p.handle := by
  cases solveAlone_cases h with
  | assigned hcan hx hreasonable =>
    obtain ⟨hframe, hreason, -, hsolved⟩ :=
      assign_spec (SolvedAt stage) hd hp ⟨hpstate, hpstage⟩ hcan hx hreasonable rfl
    refine ⟨hframe, hreason, ?_⟩
    rwa [hframe.settings, ← hd.value_eq (List.mem_of_getElem? hp)]
  | iterated hcan hlin hnewton =>
    obtain ⟨hlinearize, hrows⟩ := s.linearize_spec (SolvedAt stage) (.alone stage)
    have hsame := s.params_linearize (.alone stage)
    rw [hlin] at hlinearize hrows hsame
    obtain ⟨hcolumns, -, hresiduals⟩ := hrows rfl
    have hcols : ColumnsMove (SolvedAt stage) _ :=
      columnsMove_of_select hlinearize hcolumns fun p' hsel => by
        simpa [Selection.hasParam, SolvedAt] using hsel
    have hiter := iterated_newton hcols hnewton
    have hreason : StaysReasonable s s' :=
      StaysReasonable.trans hlinearize.settings (.of_eq hsame) (hiter.reasonable rfl)
    refine ⟨hlinearize.trans hiter.frame, hreason, .numerically hcan ?_⟩
    have hmem : q.expr.fold.eval (.byHandle s'.lookup.value) ∈ s'.linearization.residuals := by
      rw [hiter.residuals rfl, hresiduals, ← eval_slotForm]
      refine List.mem_map.2 ⟨_, List.mem_filterMap.2 ⟨k, mem_select_snd.2 ⟨q, hq, ?_⟩, ?_⟩, rfl⟩
      · simp [Selection.hasEquation, hqstate, hqstage]
      · rw [hq, Option.map_some, (hlinearize.trans hiter.frame).slotForm_eq]
    have hjudge := judge_eq_converged.1 (hiter.judged rfl) _ hmem
    rw [hiter.frame.settings, judge_eq_converged]
    intro b hb
    rw [List.mem_singleton.1 hb]
    exact hjudge

/-! ## The pass over the equations -/

/-- The system with an equation and the unknown it fixes set aside at a stage. -/
def setAside (s : EquationSystem α) (k i stage : Nat) : EquationSystem α :=
  (s.updateEquation k fun q => { q with state := .solvedAlone, stage }).updateParam i
    fun p => { p with state := .solvedAlone, stage }

section
omit [Scalar α]

/-- Setting aside keeps the handles of the unknowns. -/
theorem handles_setAside :
    (s.setAside k i stage).params.map (·.handle) = s.params.map (·.handle) :=
  handles_updateParam (s := s.updateEquation k _) fun _ => rfl

/-- The unknown that is set aside has the stage, and everything else that it had. -/
theorem params_setAside_self {p : Param α} (hp : s.params[i]? = some p) :
    (s.setAside k i stage).params[i]? = some { p with state := .solvedAlone, stage } := by
  simp [setAside, updateParam, updateEquation, hp]

/-- Other unknowns are not set aside. -/
theorem params_setAside_of_ne {j : Nat} (hij : i ≠ j) :
    (s.setAside k i stage).params[j]? = s.params[j]? := by
  simp [setAside, updateParam, updateEquation, hij]

/-- The equation that is set aside has the stage, and everything else that it had. -/
theorem equations_setAside_self {q : Equation α} (hq : s.equations[k]? = some q) :
    (s.setAside k i stage).equations[k]? = some { q with state := .solvedAlone, stage } := by
  simp [setAside, updateParam, updateEquation, hq]

/-- Other equations are not set aside. -/
theorem equations_setAside_of_ne {l : Nat} (hkl : k ≠ l) :
    (s.setAside k i stage).equations[l]? = s.equations[l]? := by
  simp [setAside, updateParam, updateEquation, hkl]

end

/-- Setting aside changes states, and no value. -/
theorem HandlesDistinct.lookup_setAside {p : Param α} (hd : s.HandlesDistinct)
    (hp : s.params[i]? = some p) : (s.setAside k i stage).lookup.value = s.lookup.value := by
  have hupdate := HandlesDistinct.lookup_updateParam
    (s := s.updateEquation k fun q => { q with state := .solvedAlone, stage })
    (f := fun p => { p with state := .solvedAlone, stage }) hd hp fun _ => rfl
  refine hupdate.trans ?_
  change Function.update s.lookup.value p.handle p.value = _
  rw [← hd.value_eq (List.mem_of_getElem? hp), Function.update_eq_self]

/-- What is solved at a stage, once set aside, moves what is set aside at this stage. -/
theorem solveAlone_setAside {q : Equation α} {p : Param α} (hd : s.HandlesDistinct)
    (hq : s.equations[k]? = some q) (hp : s.params[i]? = some p)
    (hsolve : (s.setAside k i stage).solveAlone q.expr p.handle i stage = .ok (true, s')) :
    Frame (SolvedAt stage) (s.setAside k i stage) s' ∧
      StaysReasonable (s.setAside k i stage) s' ∧
      SolvedFor s'.settings s'.lookup.value p.value q.expr p.handle := by
  have hd₁ : (s.setAside k i stage).HandlesDistinct := hd.congr handles_setAside
  have h := solveAlone_eq_ok stage hd₁ (equations_setAside_self hq) rfl rfl
    (params_setAside_self hp) rfl rfl hsolve
  exact h

/-- The system `s` has come from `start` by solving equations alone, at stages below a given one.
Each of them refers to one unknown, which has been solved for at its stage. -/
structure Settled (start : EquationSystem α) (stage : Nat) (s : EquationSystem α) : Prop where
  settings : s.settings = start.settings
  dragged : s.dragged = start.dragged
  foreign : s.foreign = start.foreign
  elimination : s.elimination = start.elimination
  params : List.Forall₂ Param.Settles start.params s.params
  equations : List.Forall₂ Equation.Settles start.equations s.equations
  stage_lt : ∀ p ∈ s.params, p.state = .solvedAlone → p.stage < stage
  reasonable : StaysReasonable start s
  solved : ∀ q ∈ s.equations, q.state = .solvedAlone → ∃ p ∈ s.params, p.state = .solvedAlone ∧
    p.stage = q.stage ∧ q.expr.referenced s.isUnknown = .exactly p.handle ∧
    SolvedFor s.settings s.lookup.value (start.lookup.value p.handle) q.expr p.handle

namespace Settled

/-- The unknowns have the handles that they had at the start. -/
theorem handles_eq (hs : Settled start stage s) :
    s.params.map (·.handle) = start.params.map (·.handle) :=
  map_handle_eq (fun _ _ hk => hk.1) hs.params

/-- Handles that were distinct at the start still are. -/
theorem handlesDistinct (hs : Settled start stage s) (hd : start.HandlesDistinct) :
    s.HandlesDistinct :=
  hd.congr hs.handles_eq

/-- Nothing is solved alone before the first stage. -/
theorem initial (hparams : ∀ p ∈ s.params, p.state ≠ .solvedAlone)
    (hequations : ∀ q ∈ s.equations, q.state ≠ .solvedAlone) : Settled s stage s where
  settings := rfl
  dragged := rfl
  foreign := rfl
  elimination := rfl
  params := List.forall₂_same.2 fun _ _ => ⟨rfl, rfl, Or.inl ⟨rfl, rfl⟩⟩
  equations := List.forall₂_same.2 fun _ _ => Or.inl rfl
  stage_lt p hp hstate := absurd hstate (hparams p hp)
  reasonable := .of_eq rfl
  solved q hq hstate := absurd hstate (hequations q hq)

section
variable {p : Param α}

/-- Only the unknown set aside is of the stage being solved, so every other one is as it was. -/
theorem params_cases (hs : Settled start stage s) (hp : s.params[i]? = some p)
    (hframe : Frame (SolvedAt stage) (s.setAside k i stage) s') {j : Nat} {p' : Param α}
    (hp' : s'.params[j]? = some p') :
    i = j ∧ p'.handle = p.handle ∧ p'.root = p.root ∧ p'.state = .solvedAlone ∧
        p'.stage = stage ∨
      i ≠ j ∧ ∃ ps, s.params[j]? = some ps ∧ p'.handle = ps.handle ∧ p'.root = ps.root ∧
        p'.state = ps.state ∧ p'.stage = ps.stage ∧ p'.value = ps.value := by
  obtain ⟨pₛ, hpₛ, hk⟩ := hframe.kept_of hp'
  by_cases hij : i = j
  · subst hij
    rw [params_setAside_self hp] at hpₛ
    cases hpₛ
    exact Or.inl ⟨rfl, hk.handle, hk.root, hk.state, hk.stage⟩
  · rw [params_setAside_of_ne hij] at hpₛ
    refine Or.inr ⟨hij, pₛ, hpₛ, hk.handle, hk.root, hk.state, hk.stage, hk.value ?_⟩
    rintro ⟨hstate, hstage⟩
    have hlt := hs.stage_lt pₛ (List.mem_of_getElem? hpₛ) hstate
    omega

/-- A live unknown has the value that it had at the start. -/
theorem start_value (hs : Settled start stage s) (hd : start.HandlesDistinct)
    (hp : s.params[i]? = some p) (hplive : p.state = .live) :
    start.lookup.value p.handle = p.value := by
  obtain ⟨p₀, hp₀, hhandle, _, hset⟩ := forall₂_getElem?_of hs.params hp
  rcases hset with ⟨_, hv⟩ | ⟨_, halone⟩
  · rw [hhandle, hd.value_eq (List.mem_of_getElem? hp₀), hv]
  · rw [hplive] at halone
    cases halone

/-- An equation solved before stays solved: its one unknown is of an earlier stage, which is not
moved. -/
theorem solved_of_frame {q : Equation α} (hs : Settled start stage s) (hd : start.HandlesDistinct)
    (hp : s.params[i]? = some p) (hplive : p.state = .live)
    (hframe : Frame (SolvedAt stage) (s.setAside k i stage) s') (hq : q ∈ s.equations)
    (hqstate : q.state = .solvedAlone) :
    ∃ p' ∈ s'.params, p'.state = .solvedAlone ∧ p'.stage = q.stage ∧
      q.expr.referenced s'.isUnknown = .exactly p'.handle ∧
      SolvedFor s'.settings s'.lookup.value (start.lookup.value p'.handle) q.expr p'.handle := by
  have hds := hs.handlesDistinct hd
  have hd₁ : (s.setAside k i stage).HandlesDistinct := hds.congr handles_setAside
  obtain ⟨pₛ, hpₛ, hstate, hstage, href, hsolved⟩ := hs.solved q hq hqstate
  obtain ⟨j, hj⟩ := List.getElem?_of_mem hpₛ
  have hij : i ≠ j := by
    rintro rfl
    rw [hp] at hj
    cases hj
    rw [hplive] at hstate
    cases hstate
  have hj₁ : (s.setAside k i stage).params[j]? = some pₛ := by rw [params_setAside_of_ne hij, hj]
  obtain ⟨p', hp', hk⟩ := hframe.kept hj₁
  refine ⟨p', List.mem_of_getElem? hp', hk.state.trans hstate, hk.stage.trans hstage, ?_, ?_⟩
  · rw [hframe.isUnknown_eq, isUnknown_congr handles_setAside, hk.handle, href]
  · have hlookup : (s.setAside k i stage).lookup.value = s.lookup.value := hds.lookup_setAside hp
    rw [hframe.settings, hk.handle]
    refine hsolved.congr fun x hx => ?_
    rw [← hlookup]
    refine (hframe.value_eq fun p₂ hp₂ hmoved => ?_).symm
    have hx' : x = pₛ.handle := by
      refine (Expr.referenced_eq_exactly href).2.2 x hx ?_
      rw [← isUnknown_congr handles_setAside]
      exact isUnknown_of_param? hp₂
    rw [hx', hd₁.param?_eq (List.mem_of_getElem? hj₁)] at hp₂
    cases hp₂
    have hlt := hs.stage_lt pₛ hpₛ hstate
    have heq := hmoved.2
    omega

end

/-- One equation solved alone keeps the invariant, with the next stage. -/
theorem step {q : Equation α} (hs : Settled start stage s) (hd : start.HandlesDistinct)
    (hq : s.equations[k]? = some q) (hfix : s.fixedAlone? q = some (h, i))
    (hsolve : (s.setAside k i stage).solveAlone q.expr h i stage = .ok (true, s')) :
    Settled start (stage + 1) s' := by
  obtain ⟨hqlive, href, _, p, hp, rfl, hplive⟩ := fixedAlone?_eq_some hfix
  obtain ⟨hframe, hreason, hsolved⟩ := solveAlone_setAside (hs.handlesDistinct hd) hq hp hsolve
  refine ⟨hframe.settings.trans hs.settings, hframe.dragged.trans hs.dragged,
    hframe.foreign.trans hs.foreign, hframe.elimination.trans hs.elimination, ?params, ?equations,
    ?stage_lt, ?reasonable, ?solved⟩
  case params =>
    have hlen : start.params.length = s'.params.length := by
      rw [hs.params.length_eq, hframe.length_eq, setAside, updateParam, updateEquation,
        List.length_modify]
    refine forall₂_of_getElem? hlen fun j p₀ p' hp₀ hp' => ?_
    obtain ⟨pₛ, hpₛ, hhandle, hroot, hset⟩ := forall₂_getElem? hs.params hp₀
    rcases hs.params_cases hp hframe hp' with
      ⟨rfl, hh, hr, hstate, _⟩ | ⟨_, p₂, hp₂, hh, hr, hstate, _, hvalue⟩
    · rw [hp] at hpₛ
      cases hpₛ
      refine ⟨hh.trans hhandle, hr.trans hroot, Or.inr ⟨?_, hstate⟩⟩
      rcases hset with ⟨hsame, _⟩ | ⟨_, halone⟩
      · exact hsame.symm.trans hplive
      · rw [hplive] at halone
        cases halone
    · rw [hpₛ] at hp₂
      cases hp₂
      refine ⟨hh.trans hhandle, hr.trans hroot, ?_⟩
      rcases hset with ⟨hsame, hv⟩ | ⟨hl, halone⟩
      · exact Or.inl ⟨hstate.trans hsame, hvalue.trans hv⟩
      · exact Or.inr ⟨hl, hstate.trans halone⟩
  case equations =>
    rw [hframe.equations]
    refine forall₂_modify hs.equations fun q₀ q' _ hq' hrel => ?_
    rw [hq] at hq'
    cases hq'
    rcases hrel with rfl | ⟨hl, n, rfl⟩
    · exact Or.inr ⟨hqlive, stage, rfl⟩
    · cases hqlive
  case stage_lt =>
    intro p' hp' hstate'
    obtain ⟨j, hj⟩ := List.getElem?_of_mem hp'
    rcases hs.params_cases hp hframe hj with
      ⟨_, _, _, _, hstage⟩ | ⟨_, pₛ, hpₛ, _, _, hstate, hstage, _⟩
    · omega
    · have hlt := hs.stage_lt pₛ (List.mem_of_getElem? hpₛ) (hstate ▸ hstate')
      omega
  case reasonable =>
    have haside : StaysReasonable s (s.setAside k i stage) :=
      forall₂_modify (List.forall₂_same.2 fun _ _ => Or.inl rfl) fun _ _ _ _ hv => hv
    have hset : (s.setAside k i stage).settings = start.settings := hs.settings
    exact (hs.reasonable.trans hs.settings haside).trans hset hreason
  case solved =>
    intro q' hq' hstate'
    obtain ⟨l, hl⟩ := List.getElem?_of_mem hq'
    rw [hframe.equations] at hl
    by_cases hkl : k = l
    · subst hkl
      rw [equations_setAside_self hq] at hl
      cases hl
      obtain ⟨p', hp', hk⟩ := hframe.kept (params_setAside_self hp)
      refine ⟨p', List.mem_of_getElem? hp', hk.state, hk.stage, ?_, ?_⟩
      · rw [hframe.isUnknown_eq, isUnknown_congr handles_setAside, hk.handle]
        exact href
      · rw [hk.handle, hs.start_value hd hp hplive]
        exact hsolved
    · rw [equations_setAside_of_ne hkl] at hl
      exact hs.solved_of_frame hd hp hplive hframe (List.mem_of_getElem? hl) hstate'

/-- The pass over a list of equations keeps the invariant, if none of them fails. -/
theorem solveAloneFrom (hd : start.HandlesDistinct) :
    ∀ {ks : List Nat} {stage : Nat} {s : EquationSystem α}, Settled start stage s →
      s.solveAloneFrom stage ks = .ok (true, s') → ∃ stage', Settled start stage' s'
  | [], stage, s, hs, hrun => by
    cases hrun
    exact ⟨stage, hs⟩
  | k :: ks, stage, s, hs, hrun => by
    rw [EquationSystem.solveAloneFrom] at hrun
    split at hrun
    · exact solveAloneFrom hd hs hrun
    · next q hq =>
      split at hrun
      · exact solveAloneFrom hd hs hrun
      · next h i hfix =>
        obtain ⟨⟨solved, t⟩, hsolve, hrun⟩ := bind_eq_ok.1 hrun
        cases solved with
        | false => cases hrun
        | true => exact solveAloneFrom hd (hs.step hd hq hfix hsolve) hrun

end Settled
end
end EquationSystem
end SketchSolver
