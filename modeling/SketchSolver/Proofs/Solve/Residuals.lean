import SketchSolver.Proofs.Arithmetic.Folding
import SketchSolver.Proofs.Solve.Written

/-!
# What a solve solves

A solve that succeeds discharges its equations in three ways. An equality of two unknowns that have
become one holds. Newton's iteration judges the residuals of the main system, and of each equation
solved alone that has no closed form. All other equations that were solved alone, and all that were
eliminated, were solved in closed form, and only the value of their unknown has been looked at.

In exact arithmetic the first two ways leave a residual within the tolerance. A closed form leaves
no residual exactly if what it has undone can be done again, and that is all that can go wrong
(`solve_discharges`). It does go wrong: from `sqrt p + 3 = 0` the unknown gets the value nine, and
the solve succeeds (`solve_rootless`).
-/

namespace SketchSolver

variable [Field K] [LinearOrder K] [PartialFunctions K]

/-! ## Values that are judged -/

/-- What can be meant is a number. -/
theorem eq_number_of_reasonable {settings : Settings (Exact K)} {a : Exact K}
    (ha : settings.isUnreasonable a = false) : ∃ x, a = .number x := by
  cases a with
  | number x => exact ⟨x, rfl⟩
  | undefined => cases ha

/-- A residual that counts as zero is within the tolerance. -/
theorem abs_le_of_judge {settings : Settings (Exact K)} {tol : K} {l : List (Exact K)}
    {b : Exact K} (htol : settings.convergeTolerance = .number tol)
    (hjudge : settings.judge l = .converged) (hb : b ∈ l) : ∃ x, b = .number x ∧ |x| ≤ tol := by
  obtain ⟨hreasonable, hle⟩ := EquationSystem.judge_eq_converged.1 hjudge b hb
  obtain ⟨x, rfl⟩ := eq_number_of_reasonable hreasonable
  rw [htol] at hle
  exact ⟨x, rfl, not_lt.1 hle⟩

/-- An equation that is solved in closed form holds exactly if what has been undone can be done
again. -/
theorem SolvedFor.eval_eq_zero_iff [LawfulRoot K] {settings : Settings (Exact K)}
    {v : ParamHandle → Exact K} {old : Exact K} {e : Expr (Exact K)} {h : ParamHandle}
    (hs : SolvedFor settings v old e h) (hcan : e.fold.canIsolate h = true) :
    e.fold.eval (.byHandle v) = .number 0 ↔
      e.fold.reversible (Function.update v h old) h (v h) (.const 0) = true := by
  cases hs with
  | numerically hnot => rw [hcan] at hnot; cases hnot
  | inClosedForm found _ hiso hvalue hreasonable =>
    obtain ⟨x, hx⟩ := eq_number_of_reasonable hreasonable
    rw [hx] at hvalue ⊢
    obtain ⟨y, hy, hiff⟩ := Expr.eval_eq_iff_reversible hcan hiso hvalue.symm
    have hback : Function.update (Function.update v h old) h (.number x) = v := by
      rw [Function.update_idem, ← hx, Function.update_eq_self]
    obtain rfl : 0 = y := Exact.number.inj hy
    rwa [hback] at hiff

namespace EquationSystem

/-! ## One equation -/

/-- The equation at a position has been solved for an unknown in closed form: it has been eliminated
with it, or it fixes it alone and can be solved for it. -/
def InClosedForm [Scalar α] (s : EquationSystem α) (k : Nat) (h : ParamHandle) : Prop :=
  (h, k) ∈ s.elimination.flatten ∨ ∃ q, s.equations[k]? = some q ∧ q.state = .solvedAlone ∧
    q.expr.referenced s.isUnknown = .exactly h ∧ q.expr.fold.canIsolate h = true

/-- What was undone of the equation at a position can be done again from the value that `h` has got,
where `h` was `old` before. -/
def Reverses [Scalar α] (s : EquationSystem α) (k : Nat) (h : ParamHandle) (old : α) : Prop :=
  ∃ q, s.equations[k]? = some q ∧
    q.expr.fold.reversible (Function.update s.lookup.value h old) h (s.lookup.value h)
      (.const 0) = true

variable {f : ParamHandle → ParamHandle} {t s s' : EquationSystem (Exact K)} {tol : K} {k : Nat}
  {q q₀ : Equation (Exact K)} {h : ParamHandle}

/-- Every unknown that is not substituted has a number for its value in the end, if it had one in
the beginning. -/
theorem Completed.exists_number (hc : Completed t s s')
    (hnumbers : ∀ p ∈ t.params, ∃ x, p.value = .number x) {p : Param (Exact K)}
    (hp : p ∈ s'.params) (hstate : p.state ≠ .substituted) : ∃ x, p.value = .number x := by
  obtain ⟨p₀, hp₀, hvalue⟩ := forall₂_mem_of hc.reasonable hp
  rcases hvalue hstate with hsame | hreasonable
  · rw [hsame]
    exact hnumbers p₀ hp₀
  · exact eq_number_of_reasonable hreasonable

/-- An equation has the residual it was written with, under the names of the end. -/
theorem Completed.eval_fold (hc : Completed t s s') (ha : Accepted f t s) (hd : s.HandlesDistinct)
    (hq₀ : t.equations[k]? = some q₀) (hq : s'.equations[k]? = some q) :
    q₀.expr.fold.eval (.byHandle s'.lookup.value) =
      q.expr.fold.eval (.byHandle s'.lookup.value) := by
  obtain ⟨q', hq', hrel⟩ := forall₂_getElem? (hc.prepared ha hd).equations hq₀
  rw [hq] at hq'
  cases hq'
  rw [hrel.expr.fold.eval, funext (hc.value_name ha hd)]

/-- An equation that is not solved in closed form has a residual within the tolerance. -/
theorem Completed.abs_le [IsStrictOrderedRing K] (hc : Completed t s s') (ha : Accepted f t s)
    (hd : s.HandlesDistinct) (hnumbers : ∀ p ∈ t.params, ∃ x, p.value = .number x)
    (htol : t.settings.convergeTolerance = .number tol) (hq : s'.equations[k]? = some q)
    (hopen : ∀ h, ¬ s'.InClosedForm k h) :
    ∃ x, q.expr.fold.eval (.byHandle s'.lookup.value) = .number x ∧ |x| ≤ max tol 0 := by
  have hprepared := hc.prepared ha hd
  have hmem : q ∈ s'.equations := List.mem_of_getElem? hq
  have hjudged : ∀ {settings : Settings (Exact K)} {l : List (Exact K)} {b : Exact K},
      settings = t.settings → settings.judge l = .converged → b ∈ l →
        ∃ x, b = .number x ∧ |x| ≤ max tol 0 := by
    rintro _ l b rfl hjudge hb
    obtain ⟨x, hx, hle⟩ := abs_le_of_judge htol hjudge hb
    exact ⟨x, hx, hle.trans (le_max_left tol 0)⟩
  cases hstate : q.state with
  | live =>
    refine hjudged ha.prepared.settings ha.judged ?_
    rw [hc.residuals ha hd]
    rw [hc.frame.equations] at hmem
    exact List.mem_map.2 ⟨q, List.mem_filter.2 ⟨hmem, by simp [hstate]⟩, rfl⟩
  | satisfied =>
    -- Both sides are the value of one unknown.
    obtain ⟨q₀, _, hrel⟩ := forall₂_getElem?_of hprepared.equations hq
    obtain ⟨a, b, hexpr, hunknown, _, hname⟩ := hrel.satisfied hstate
    rw [← hprepared.isUnknown_eq] at hunknown
    obtain ⟨p, hp, rfl⟩ := isUnknown_iff.1 hunknown
    obtain ⟨r, hr, hrname, hrstate⟩ := hprepared.named p hp
    obtain ⟨x, hx⟩ := hc.exists_number hnumbers hr hrstate
    have hvalue : s'.lookup.value (f p.handle) = .number x := by
      rw [← hrname, (hc.frame.handlesDistinct hd).value_eq hr, hx]
    refine ⟨0, ?_, by simp⟩
    rw [hrel.expr.fold.eval, hexpr]
    change s'.lookup.value (f p.handle) - s'.lookup.value (f b) = _
    rw [← hname, hvalue, Exact.number_sub, sub_self]
  | solvedAlone =>
    obtain ⟨p, _, _, href, hsolved⟩ := hprepared.alone q hmem hstate
    cases hsolved with
    | inClosedForm _ hcan => exact absurd (Or.inr ⟨q, hq, hstate, href, hcan⟩) (hopen p.handle)
    | numerically _ hjudge => exact hjudged hprepared.settings hjudge (List.mem_singleton.2 rfl)
  | eliminated =>
    obtain ⟨⟨x, _⟩, hin, rfl⟩ := List.mem_map.1 (hprepared.covered k q hq hstate)
    exact absurd (Or.inl hin) (hopen x)

/-- An equation that is solved in closed form holds exactly if what has been undone can be done
again. -/
theorem Completed.eval_eq_zero_iff [LawfulRoot K] (hc : Completed t s s') (ha : Accepted f t s)
    (hd : s.HandlesDistinct) (hq : s'.equations[k]? = some q) (hclosed : s'.InClosedForm k h) :
    q.expr.fold.eval (.byHandle s'.lookup.value) = .number 0 ↔
      s'.Reverses k h (t.lookup.value h) := by
  have hprepared := hc.prepared ha hd
  have hsolved : SolvedFor s'.settings s'.lookup.value (t.lookup.value h) q.expr h ∧
      q.expr.fold.canIsolate h = true := by
    rcases hclosed with hin | ⟨q', hq', hstate, href, hcan⟩
    · obtain ⟨q', hq', _, hcan⟩ := hprepared.replayable.defining _ hin
      rw [hq] at hq'
      cases hq'
      exact ⟨hc.recovered _ hin q hq, hcan⟩
    · rw [hq] at hq'
      cases hq'
      obtain ⟨p, _, _, href', hsolved⟩ := hprepared.alone q (List.mem_of_getElem? hq) hstate
      obtain rfl := Referenced.exactly.inj (href.symm.trans href')
      exact ⟨hsolved, hcan⟩
  rw [hsolved.1.eval_eq_zero_iff hsolved.2]
  refine ⟨fun hrev => ⟨q, hq, hrev⟩, fun ⟨q', hq', hrev⟩ => ?_⟩
  rw [hq] at hq'
  cases hq'
  exact hrev

/-! ## All equations -/

/-- How the equations of `t` stand at the values of an outcome. -/
structure Discharges (tol : K) (t : EquationSystem (Exact K)) (out : Outcome δ (Exact K)) :
    Prop where
  /-- The residual is within the tolerance, if all that a closed form has undone can be done
  again. -/
  within : ∀ k q, t.equations[k]? = some q →
    (∀ h, out.system.InClosedForm k h → out.system.Reverses k h (t.lookup.value h)) →
      ∃ x, q.expr.fold.eval (.byHandle out.value) = .number x ∧ |x| ≤ max tol 0
  /-- If it cannot, the equation does not hold. -/
  missed : ∀ k q h, t.equations[k]? = some q → out.system.InClosedForm k h →
    ¬ out.system.Reverses k h (t.lookup.value h) →
      q.expr.fold.eval (.byHandle out.value) ≠ .number 0
  /-- The residual is the value of the equation as it was written, if that has one. -/
  unfolded : ∀ q ∈ t.equations, ∀ x, q.expr.eval (.byHandle out.value) = .number x →
    q.expr.fold.eval (.byHandle out.value) = .number x

variable [IsStrictOrderedRing K] [LawfulRoot K] [Document δ (Exact K)] {doc : δ} {g : GroupHandle}
  {options : SolveOptions} {watch : Stopwatch} {out : Outcome δ (Exact K)} {report : Report}

/-- A solve that succeeds has solved every equation, but for those whose closed form has squared the
negative value of a square root. -/
theorem solve_discharges (hd : ((Document.params doc g).map Prod.fst).Nodup)
    (hnumbers : ∀ e ∈ Document.params doc g, ∃ x : K, e.2 = .number x)
    (htol : s.settings.convergeTolerance = .number tol)
    (h : s.solve doc g options watch = .ok out) (hresult : out.result = .ok report)
    (hok : report.result.isOkay = true) :
    ∃ policy t doc', s.load doc g none = .ok (policy, t, doc') ∧ Discharges tol t out := by
  obtain ⟨policy, t, doc', f, s₁, hload, hd₁, _, ha, hcompleted, hvalue, _⟩ :=
    solve_eq_ok hd h hresult hok
  have hloads := loads_of_load hload
  have hnumbers' : ∀ p ∈ t.clearTags.params, ∃ x, p.value = .number x := by
    intro p hp
    obtain ⟨p₀, hp₀, rfl⟩ := List.mem_map.1 hp
    rw [hloads.params] at hp₀
    obtain ⟨e, he, rfl⟩ := List.mem_map.1 hp₀
    exact hnumbers e he
  have htol' : t.clearTags.settings.convergeTolerance = .number tol := by
    rw [← htol, ← hloads.settings]
    rfl
  -- Every equation has kept its place and its residual.
  have hkept : ∀ (k : Nat) (q : Equation (Exact K)), t.equations[k]? = some q →
      ∃ q', out.system.equations[k]? = some q' ∧
        q.expr.fold.eval (.byHandle out.value) = q'.expr.fold.eval (.byHandle out.value) := by
    intro k q hq
    have hq₀ : t.clearTags.equations[k]? = some { q with state := .live, stage := 0 } := by
      simp [clearTags, hq]
    obtain ⟨q', hq', _⟩ := forall₂_getElem? (hcompleted.prepared ha hd₁).equations hq₀
    have heq := hcompleted.eval_fold ha hd₁ hq₀ hq'
    rw [← hvalue] at heq
    exact ⟨q', hq', heq⟩
  refine ⟨policy, t, doc', hload, ?within, ?missed, fun q _ x hx => Expr.eval_fold hx⟩
  case within =>
    intro k q hq hreverses
    obtain ⟨q', hq', heq⟩ := hkept k q hq
    rw [heq, hvalue]
    by_cases hclosed : ∃ h, out.system.InClosedForm k h
    · obtain ⟨h, hclosed⟩ := hclosed
      have hrev := hreverses h hclosed
      rw [← lookup_clearTags] at hrev
      exact ⟨0, (hcompleted.eval_eq_zero_iff ha hd₁ hq' hclosed).2 hrev, by simp⟩
    · exact hcompleted.abs_le ha hd₁ hnumbers' htol' hq' (not_exists.1 hclosed)
  case missed =>
    intro k q h hq hclosed hnot hzero
    obtain ⟨q', hq', heq⟩ := hkept k q hq
    rw [heq, hvalue, hcompleted.eval_eq_zero_iff ha hd₁ hq' hclosed, lookup_clearTags] at hzero
    exact hnot hzero

/-- A group in which a square root would have to be negative, and the second parameter follows from
the first. -/
def rootless : EquationTable (Exact ℚ) where
  params := [{ handle := ⟨1⟩, value := 1 }, { handle := ⟨2⟩, value := 1 }]
  constraints :=
    [{ handle := ⟨1⟩, coincident := false,
        equations := [(Expr.param ⟨1⟩).sqrt + .const (.number 3)] },
      { handle := ⟨2⟩, coincident := false,
        equations := [.param ⟨2⟩ + .param ⟨1⟩ - .const (.number 10)] }]

/-- The solve succeeds with a residual of six in the first equation. The second one holds. -/
theorem solve_rootless : ((Document.params rootless EquationTable.group).map Prod.fst).Nodup ∧
    (∀ e ∈ Document.params rootless EquationTable.group, ∃ x : ℚ, e.2 = .number x) ∧
    (empty Settings.rational).settings.convergeTolerance = .number (1 / 100000000) ∧
    ∃ out report, solve (.empty Settings.rational) rootless EquationTable.group {} .still =
        .ok out ∧
      out.result = .ok report ∧ report.result.isOkay = true ∧
      out.writes.map (·.value) = [9, 1].map .number ∧
      (out.system.equations.map fun q => q.expr.fold.eval (.byHandle out.value)) =
        [6, 0].map .number ∧
      ∃ t, Discharges (1 / 100000000) t out := by
  have hd : ((Document.params rootless EquationTable.group).map Prod.fst).Nodup := by
    decide +kernel
  have hnumbers : ∀ e ∈ Document.params rootless EquationTable.group,
      ∃ x : ℚ, e.2 = .number x := by
    intro e he
    simp only [Document.params, rootless, List.map_cons, List.map_nil, List.mem_cons,
      List.not_mem_nil, or_false] at he
    rcases he with rfl | rfl <;> exact ⟨1, rfl⟩
  have hrun : (solve (.empty Settings.rational) rootless EquationTable.group {} .still).toOption.map
      (fun out => (out.result.toOption.map (·.result), out.writes.map (·.value),
        out.system.equations.map fun q => q.expr.fold.eval (.byHandle out.value))) =
      some (some .okay, [9, 1].map .number, [6, 0].map .number) := by decide +kernel
  obtain ⟨out, hout, heq⟩ := Option.map_eq_some_iff.1 hrun
  obtain ⟨hresult, hvalues, hresiduals⟩ := by simpa only [Prod.mk.injEq] using heq
  obtain ⟨report, hreport, hokay⟩ := Option.map_eq_some_iff.1 hresult
  rw [toOption_eq_some] at hout hreport
  have hok : report.result.isOkay = true := by rw [hokay]; rfl
  obtain ⟨_, t, _, _, hdischarges⟩ := solve_discharges hd hnumbers rfl hout hreport hok
  exact ⟨hd, hnumbers, rfl, out, report, hout, hreport, hok, hvalues, hresiduals, t, hdischarges⟩

end EquationSystem

end SketchSolver
