import Mathlib.Data.List.Dedup
import SketchSolver.Proofs.Arithmetic.Exact
import SketchSolver.Proofs.Sketch.Loading
import SketchSolver.Proofs.Solve.Trials

/-!
# Conflicts of a sketch

The constraints that a check of a group names as conflicting are those that can be removed: a check
of the sketch without one of them succeeds, and a check without any other one does not
(`mem_bad_iff_removeConstraint`). The two checks go different ways. A trial loads the group except
for the constraint, into a system that has served other trials, from a document that has been
measured on the way; a check after the removal loads another document afresh. Both load a system
that agrees with the one loaded from the sketch itself (`agree_load`), since all documents that come
up on the way look the same as the sketch, those that values were written back to included
(`looksSame_of_check`).
-/

namespace SketchSolver

namespace Sketch

open EquationSystem (lastValue?)

variable [Scalar α] {g : GroupHandle} {policy : Policy} {s s' : Sketch α}

/-! ## Trials and removals -/

/-- The trials of a search have the answers that the sketch gives with the values of the main
system, whatever trials have come before. They keep what measuring reference dimensions keeps. -/
theorem decides_withValuesOf {main : EquationSystem α} {t : ConstraintHandle → EquationSystem α}
    {d : ConstraintHandle → Sketch α} {answer : ConstraintHandle → Bool} {Q : Sketch α → Prop}
    (ht : ∀ c, (EquationSystem.empty s.settings).load (s.withValuesOf g main) g (some c) =
      .ok (policy, t c, d c))
    (hanswer : ∀ c, (t c).independent = .ok (answer c)) (hsettings : main.settings = s.settings)
    (hcover : main.params.map (·.handle) = (Document.params s g).map Prod.fst)
    (hQ : ∀ doc except, Q doc → Q (doc.measureReferences g policy except)) :
    main.Decides g (fun doc => LooksSame g policy s doc ∧ Q doc) answer := by
  intro trial doc c htrial ⟨hdoc, hkept⟩
  have hpolicy : Document.policy doc g = .ok policy :=
    hdoc.policy_eq (EquationSystem.loads_of_load (ht c)).policy
  have hvalued : Document.policy (doc.withValuesOf g main) g = .ok policy := hpolicy
  obtain ⟨u, doc', hu⟩ := exists_load_eq_ok hpolicy trial (some c)
  obtain ⟨v, _, hv⟩ := exists_load_eq_ok hvalued trial (some c)
  have hlooks := hdoc.withValuesOf main
  have hagree : (t c).Agree v :=
    (agree_load hlooks (htrial.trans hsettings) (ht c) hv (hlooks.groupEquations_eq (some c))).1
  have hvalues : v.Agree (u.withValuesOf main) :=
    agree_load_withValuesOf rfl (hcover.trans hdoc.handles.symm) hu hv
  have hindependent : (u.withValuesOf main).independent = .ok (answer c) := by
    rw [EquationSystem.independent_congr hvalues, EquationSystem.independent_congr hagree, hanswer]
  obtain ⟨trial', htrial', hsame⟩ := EquationSystem.independentWithout_eq hu hindependent
  have hl := EquationSystem.loads_of_load hu
  have hdocument : doc' = doc.measureReferences g policy (some c) := by
    rw [hl.document, writeEquations_eq hpolicy]
  refine ⟨trial', doc', htrial', hsame.trans (hl.settings.trans htrial), ?_⟩
  rw [hdocument]
  exact ⟨hdoc.trans (looksSame_measureReferences doc (some c)), hQ doc (some c) hkept⟩

/-- Where the main system has the values of the sketch, these are the answers that the sketch itself
gives. -/
theorem decides_of_looksSame {main : EquationSystem α} {t : ConstraintHandle → EquationSystem α}
    {d : ConstraintHandle → Sketch α} {answer : ConstraintHandle → Bool}
    (ht : ∀ c, (EquationSystem.empty s.settings).load s g (some c) = .ok (policy, t c, d c))
    (hanswer : ∀ c, (t c).independent = .ok (answer c)) (hsettings : main.settings = s.settings)
    (hhandles : main.params.map (·.handle) = (Document.params s g).map Prod.fst)
    (hvalue : ∀ x y, lastValue? (Document.params s g) x = some y → main.lookup.value x = y) :
    main.Decides g (LooksSame g policy s) answer := by
  have hlooks : LooksSame g policy s (s.withValuesOf g main) := by
    refine looksSame_withValuesOf fun x y p hy hp => ?_
    have hvalue := hvalue x y hy
    simpa only [EquationSystem.lookup, hp] using hvalue
  have hloads : ∀ c, ∃ u d', (EquationSystem.empty s.settings).load (s.withValuesOf g main) g
      (some c) = .ok (policy, u, d') := fun c =>
    exists_load_eq_ok (hlooks.policy_eq (EquationSystem.loads_of_load (ht c)).policy) _ _
  choose u d' hu using hloads
  have hanswer' : ∀ c, (u c).independent = .ok (answer c) := by
    intro c
    have hagree : (t c).Agree (u c) :=
      (agree_load hlooks rfl (ht c) (hu c) (hlooks.groupEquations_eq _)).1
    rw [EquationSystem.independent_congr hagree, hanswer]
  have hdec := decides_withValuesOf (Q := fun _ => True) hu hanswer' hsettings hhandles
    fun _ _ _ => trivial
  simpa only [and_true] using hdec

/-- A check of a sketch succeeds if and only if what it loads is independent. -/
theorem checkGroup_okay_iff {findFree : Bool} {watch : Stopwatch} {t : EquationSystem α}
    (hload : (EquationSystem.empty s.settings).load s g none = .ok (policy, t, s')) :
    (∃ report s'', s.checkGroup g findFree watch = .ok (.ok report, s'') ∧
      report.result = .okay) ↔ t.independent = .ok true := by
  have hchecked : (∃ out report, t.checkLoaded s' g policy true findFree watch = .ok out ∧
      out.result = .ok report ∧ report.result = .okay) ↔ t.independent = .ok true :=
    EquationSystem.checkLoaded_okay_iff
  rw [← hchecked]
  unfold checkGroup EquationSystem.check
  rw [hload]
  constructor
  · rintro ⟨report, s'', h, hokay⟩
    obtain ⟨out, hout, h⟩ := bind_eq_ok.1 h
    exact ⟨out, report, hout, (Prod.ext_iff.1 (Except.ok.inj h)).1, hokay⟩
  · rintro ⟨out, report, hout, hreport, hokay⟩
    exact ⟨report, out.document, bind_eq_ok.2 ⟨out, hout, by rw [hreport]; rfl⟩, hokay⟩

/-- A check of a sketch that looks the same, without a constraint, succeeds if and only if what the
sketch itself loads except for the constraint is independent. -/
theorem checkGroup_removeConstraint_okay_iff {start : Sketch α} {c : ConstraintHandle}
    {t : EquationSystem α} {findFree : Bool} {watch : Stopwatch}
    (hlooks : LooksSame g policy s start)
    (ht : (EquationSystem.empty s.settings).load s g (some c) = .ok (policy, t, s')) :
    (∃ report s'', (start.removeConstraint c).checkGroup g findFree watch = .ok (.ok report, s'') ∧
      report.result = .okay) ↔ t.independent = .ok true := by
  have hpolicy : Document.policy start g = .ok policy :=
    hlooks.policy_eq (EquationSystem.loads_of_load ht).policy
  have hremoved : Document.policy (start.removeConstraint c) g = .ok policy := hpolicy
  obtain ⟨u, _, hu⟩ :=
    exists_load_eq_ok hremoved (.empty (start.removeConstraint c).settings) none
  obtain ⟨v, _, hv⟩ := exists_load_eq_ok hpolicy (.empty start.settings) (some c)
  have hagree : t.Agree v :=
    (agree_load hlooks hlooks.settings ht hv (hlooks.groupEquations_eq _)).1
  have hagree' : v.Agree u := agree_load_removeConstraint rfl hv hu
  rw [checkGroup_okay_iff hu, EquationSystem.independent_congr hagree',
    EquationSystem.independent_congr hagree]

/-- Nothing shows of the values and the status that a check writes back, since it has moved none of
the values it has loaded. -/
theorem looksSame_of_check {t main : EquationSystem α} {d d' : Sketch α} {status : Status}
    (hload : (EquationSystem.empty s.settings).load s g none = .ok (policy, t, d'))
    (hframe : EquationSystem.Frame (fun _ _ => False) t.clearTags main)
    (hlooks : LooksSame g policy s d) : LooksSame g policy s
      (Document.recordStatus (EquationSystem.applyWrites d main.writes) g status) := by
  have hkeeps : ∀ w ∈ main.writes, Keeps (Document.params d g) w := by
    intro w hw
    obtain ⟨p, hp, rfl⟩ := List.mem_map.1 hw
    obtain ⟨p₁, hp₁, hk⟩ := hframe.kept_of_mem hp
    obtain ⟨p₀, hp₀, rfl⟩ := List.mem_map.1 hp₁
    rw [(EquationSystem.loads_of_load hload).params] at hp₀
    obtain ⟨e, he, rfl⟩ := List.mem_map.1 hp₀
    have hmem : (p.handle, p.value) ∈ Document.params s g := by
      rw [hk.handle, hk.value id]
      exact he
    exact (Keeps.of_mem hmem).congr hlooks.handles hlooks.own
  exact (hlooks.trans (looksSame_applyWrites hkeeps)).trans (looksSame_recordStatus _ _)

/-- The constraints that a check names as conflicting are those whose removal lets a check succeed,
from the sketch as it was or as the check has left it. -/
theorem mem_bad_iff_removeConstraint {group : Group} {findFree : Bool} {watch : Stopwatch}
    {report : Report} (hgroup : s.group? g = some group)
    (hsuppress : group.policy.suppressDof = false) (hallow : group.policy.allowRedundant = false)
    (h : s.checkGroup g findFree watch = .ok (.ok report, s'))
    (hredundant : report.result = .redundantOkay) (htime : report.timedOut = false) :
    ∀ c ∈ s.constraints, c.group = g → ∀ start, start = s ∨ start = s' →
      ∀ (findFree' : Bool) (watch' : Stopwatch), c.handle ∈ report.bad ↔
        ∃ report' s'', (start.removeConstraint c.handle).checkGroup g findFree' watch' =
          .ok (.ok report', s'') ∧ report'.result = .okay := by
  have hpolicy : Document.policy s g = .ok group.policy := by
    rw [policy_eq_ok_iff, hgroup]
    rfl
  obtain ⟨t₀, s₀, hload⟩ := exists_load_eq_ok hpolicy (.empty s.settings) none
  have hlooks₀ : LooksSame g group.policy s s₀ :=
    (agree_load (.refl g group.policy s) rfl hload hload rfl).2
  have hl₀ := EquationSystem.loads_of_load hload
  -- What every trial answers is what the sketch itself loads without the constraint.
  have hloads : ∀ c, ∃ t d,
      (EquationSystem.empty s.settings).load s g (some c) = .ok (group.policy, t, d) :=
    fun c => exists_load_eq_ok hpolicy _ (some c)
  choose t d ht using hloads
  have hanswers : ∀ c, ∃ b, (t c).independent = .ok b := fun c => ⟨_, (t c).independent_eq⟩
  choose answer hanswer using hanswers
  unfold checkGroup EquationSystem.check at h
  rw [hload] at h
  obtain ⟨out, hout, h⟩ := bind_eq_ok.1 h
  obtain ⟨hreport, hdocument⟩ := Prod.ext_iff.1 (Except.ok.inj h)
  have hcases := EquationSystem.checkLoaded_cases hout hreport
  rw [hredundant] at hcases
  obtain ⟨_, _, hsearch⟩ := (hcases.resolve_left nofun).resolve_left nofun
  obtain ⟨main, found, d₁, hframe, hfind, hbad, htimed, hwritten⟩ := hsearch hsuppress hallow rfl
  have hvalue : ∀ x y, lastValue? (Document.params s g) x = some y → main.lookup.value x = y := by
    intro x y hy
    rw [hframe.value_eq_of_forall fun _ _ _ => id, EquationSystem.lookup_clearTags, hl₀.value_eq,
      hy]
  have hhandles : main.params.map (·.handle) = (Document.params s g).map Prod.fst := by
    rw [hframe.handles_eq, ← hl₀.handles_eq]
    simp [EquationSystem.clearTags, Function.comp_def]
  have hdec : main.Decides g (LooksSame g group.policy s) answer :=
    decides_of_looksSame ht hanswer (hframe.settings.trans hl₀.settings) hhandles hvalue
  obtain ⟨hlooks₁, hexact⟩ := EquationSystem.findConflicts_spec hdec hlooks₀ hfind
  rw [htimed] at htime
  have hlooks' : LooksSame g group.policy s s' := by
    have hs' : s' = _ := hdocument.symm.trans hwritten
    rw [hs']
    exact looksSame_of_check hload hframe hlooks₁
  intro c hc hcg start hstart findFree' watch'
  have hlooks : LooksSame g group.policy s start := by
    rcases hstart with rfl | rfl
    · exact .refl g group.policy start
    · exact hlooks'
  have hmem : c.handle ∈ (Document.constraints s₀ g).map Prod.fst := by
    rw [hlooks₀.constraints_eq]
    refine List.mem_map.2 ⟨(c.handle, c.isCoincident), List.mem_map.2 ⟨c, ?_, rfl⟩, rfl⟩
    exact List.mem_filter.2 ⟨hc, beq_iff_eq.2 hcg⟩
  rw [checkGroup_removeConstraint_okay_iff hlooks (ht c.handle), hanswer, hbad, hexact htime]
  simp [hmem]

/-- Two points that are asked twice to have one height, and once to stand one above the other. The
rank of a matrix is taken to be the number of its different rows. -/
def doubled : Sketch (Exact ℚ) :=
  let s := Sketch.empty { Settings.rational with rankOf := fun A => A.toRows.dedup.length }
  let (g, s) := s.addGroup "doubled"
  let (a, s) := s.addPoint g (.number 0) (.number 0)
  let (b, s) := s.addPoint g (.number 4) (.number 3)
  let (_, s) := s.addConstraint g (.horizontal a b)
  let (_, s) := s.addConstraint g (.horizontal a b)
  (s.addConstraint g (.vertical a b)).2

/-- Each of the two equal constraints can be removed, and the third one cannot. -/
theorem check_doubled : ∃ group report s', doubled.group? ⟨1⟩ = some group ∧
    group.policy.suppressDof = false ∧ group.policy.allowRedundant = false ∧
    doubled.checkGroup ⟨1⟩ false .still = .ok (.ok report, s') ∧
    report.result = .redundantOkay ∧ report.timedOut = false ∧ report.bad = [⟨1⟩, ⟨2⟩] ∧
    (∃ report' s'', (s'.removeConstraint ⟨1⟩).checkGroup ⟨1⟩ true .still = .ok (.ok report', s'') ∧
      report'.result = .okay) ∧
    ¬ ∃ report' s'', (s'.removeConstraint ⟨3⟩).checkGroup ⟨1⟩ true .still =
      .ok (.ok report', s'') ∧ report'.result = .okay := by
  have hgroup : (doubled.group? ⟨1⟩).map (fun group =>
      (group.policy.suppressDof, group.policy.allowRedundant)) = some (false, false) := by
    decide +kernel
  have hrun : (doubled.checkGroup ⟨1⟩ false .still).toOption.map (fun out =>
      out.1.toOption.map fun report => (report.result, report.timedOut, report.bad)) =
      some (some (.redundantOkay, false, [⟨1⟩, ⟨2⟩])) := by decide +kernel
  obtain ⟨group, hgroup, hpolicy⟩ := Option.map_eq_some_iff.1 hgroup
  obtain ⟨hsuppress, hallow⟩ := by simpa only [Prod.mk.injEq] using hpolicy
  obtain ⟨⟨result, s'⟩, hout, heq⟩ := Option.map_eq_some_iff.1 hrun
  obtain ⟨report, hreport, heq⟩ := Option.map_eq_some_iff.1 heq
  obtain ⟨hredundant, htime, hbad⟩ := by simpa only [Prod.mk.injEq] using heq
  rw [toOption_eq_some] at hout hreport
  simp only at hreport
  subst hreport
  have hiff := mem_bad_iff_removeConstraint hgroup hsuppress hallow hout hredundant htime
  have hfirst := hiff ⟨⟨1⟩, ⟨1⟩, .horizontal ⟨1⟩ ⟨2⟩, false⟩ (by decide +kernel) rfl s' (Or.inr rfl)
    true .still
  have hthird := hiff ⟨⟨3⟩, ⟨1⟩, .vertical ⟨1⟩ ⟨2⟩, false⟩ (by decide +kernel) rfl s' (Or.inr rfl)
    true .still
  rw [hbad] at hfirst hthird
  exact ⟨group, report, s', hgroup, hsuppress, hallow, hout, hredundant, htime, hbad,
    hfirst.1 (by decide), fun h => absurd (hthird.2 h) (by decide)⟩

end Sketch

end SketchSolver
