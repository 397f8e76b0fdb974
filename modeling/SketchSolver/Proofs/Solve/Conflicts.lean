import SketchSolver.Solve.Basic
import SketchSolver.Proofs.EquationSystem.Totality
import SketchSolver.Proofs.Solve.Loading

/-!
# Checks and the search for conflicts

A check is taken apart once, into the exits that it is left by (`checkLoaded_exit`). It succeeds if
the equations that have been loaded are independent (`checkLoaded_okay_iff`). If they are not, it
looks for conflicts and moves nothing (`checkLoaded_cases`).

One system is loaded again and again for the trials of the search. What a trial answers is the
independence of what has been loaded at the values of the main system (`independentWithout_eq`), so
nothing of an earlier trial can show, provided that a document looks the same whatever equations it
has written before. `Decides` says that much of documents.
-/

namespace SketchSolver.EquationSystem

variable {s t main trial : EquationSystem α}

/-! ## Values of another system -/

/-- Values from another system change no handle. -/
theorem handles_withValuesOf (t main : EquationSystem α) :
    (t.withValuesOf main).params.map (·.handle) = t.params.map (·.handle) := by
  rw [withValuesOf, List.map_map]
  refine List.map_congr_left fun p _ => ?_
  simp only [Function.comp_apply]
  split <;> rfl

section
variable [Scalar α]

/-- A system with the values of another one of the same unknowns has them for all unknowns. -/
theorem lookup_withValuesOf (h : main.params.map (·.handle) = t.params.map (·.handle))
    (x : ParamHandle) : (t.withValuesOf main).lookup.value x =
      if t.isUnknown x = true then main.lookup.value x else t.lookup.value x := by
  have hposition : (t.withValuesOf main).position? = t.position? :=
    position?_congr (handles_withValuesOf t main)
  have hforeign : (t.withValuesOf main).foreign = t.foreign := rfl
  unfold isUnknown
  simp only [lookup, param?, hposition, hforeign]
  cases hi : t.position? x with
  | none => rfl
  | some i =>
    obtain ⟨p, hp, hpx⟩ := exists_of_position? hi
    have hmain : main.position? x = some i := by rw [position?_congr h, hi]
    obtain ⟨current, hcurrent, _⟩ := exists_of_position? hmain
    have hparam : main.param? x = some current := by rw [param?, hmain]; exact hcurrent
    simp [withValuesOf, hp, hpx, hmain, hcurrent, hparam]

/-- A system with the values of another one of the same unknowns has all values of that one, if both
have kept the same aside. -/
theorem value_withValuesOf (h : main.params.map (·.handle) = t.params.map (·.handle))
    (hforeign : main.foreign = t.foreign) :
    (t.withValuesOf main).lookup.value = main.lookup.value := by
  funext x
  rw [lookup_withValuesOf h]
  split
  · rfl
  · next hunknown =>
    have hnone : t.param? x = none := by
      simpa [isUnknown_eq_isSome_param?] using hunknown
    have hnone' : main.param? x = none := by
      rw [← isUnknown_congr h] at hunknown
      simpa [isUnknown_eq_isSome_param?] using hunknown
    simp only [lookup, hnone, hnone', hforeign]

/-- What is loaded from two documents agrees if the equations, the values of the group and those
kept aside are the same. -/
theorem Loads.agree [Document δ α] {s' t' : EquationSystem α} {doc₁ doc₁' doc₂ doc₂' : δ}
    {g : GroupHandle} {except except' : Option ConstraintHandle} {policy policy' : Policy}
    (h : Loads s doc₁ g except policy t doc₁') (h' : Loads s' doc₂ g except' policy' t' doc₂')
    (hsettings : s'.settings = s.settings) (hequations : t'.equations = t.equations)
    (hhandles : (Document.params doc₂ g).map Prod.fst = (Document.params doc₁ g).map Prod.fst)
    (hlast : ∀ x, lastValue? (Document.params doc₂ g) x = lastValue? (Document.params doc₁ g) x)
    (hother : ∀ x, lastValue? (Document.params doc₁ g) x = none →
      Document.paramValue? doc₂' x = Document.paramValue? doc₁' x) : Agree t t' where
  settings := h'.settings.trans (hsettings.trans h.settings.symm)
  equations := hequations
  handles := by rw [h'.handles_eq, h.handles_eq, hhandles]
  value := by
    funext x
    rw [h'.value_eq, h.value_eq, hlast, hequations]
    cases hx : lastValue? (Document.params doc₁ g) x with
    | some _ => rfl
    | none => simp only [hother x hx]

/-! ## Checks -/

variable [Document δ α] {doc doc' : δ} {g : GroupHandle} {policy : Policy}
  {findBad findFree : Bool} {watch : Stopwatch} {out : Outcome δ α} {report : Report}

/-- The first test of a check asks whether the equations are independent. -/
theorem testRank_linearize (hwritten : (s.clearTags.linearize .live).1 = true) :
    ∃ b t, (s.clearTags.linearize .live).2.testRank = .ok (b, t) ∧ s.independent = .ok b := by
  have hjac := s.clearTags.evalJacobian_linearize .live
  unfold independent testRank
  generalize s.clearTags.linearize .live = out at hjac hwritten ⊢
  obtain ⟨written, t⟩ := out
  simp only at hwritten hjac ⊢
  subst hwritten
  rw [hjac]
  exact ⟨_, _, rfl, rfl⟩

/-- The equations that have been loaded are linearized, and a test of the rank has led to `main`. -/
def Tested (s : EquationSystem α) (independent : Bool) (main : EquationSystem α) : Prop :=
  ∃ t, s.clearTags.linearize .live = (true, t) ∧ t.testRank = .ok (independent, main)

omit [Document δ α] in
/-- The test of a check moves nothing. -/
theorem Tested.frame {moved : ParamState → Nat → Prop} {b : Bool} (h : s.Tested b main) :
    Frame moved s.clearTags main := by
  obtain ⟨t, hlinearize, hrank⟩ := h
  have hframe := (s.clearTags.linearize_spec moved .live).1
  rw [hlinearize] at hframe
  exact hframe.trans (testRank_eq_ok moved hrank).1

omit [Document δ α] in
/-- The test of a check says whether the loaded equations are independent. -/
theorem Tested.independent {b : Bool} (h : s.Tested b main) : s.independent = .ok b := by
  obtain ⟨t, hlinearize, hrank⟩ := h
  obtain ⟨_, _, hrank', hindependent⟩ := testRank_linearize (congrArg Prod.fst hlinearize)
  rw [hlinearize, hrank] at hrank'
  cases hrank'
  exact hindependent

/-- The exits of a check, with the systems that it is left by. -/
inductive CheckExit (s : EquationSystem α) (doc : δ) (g : GroupHandle) (policy : Policy)
    (findBad findFree : Bool) (watch : Stopwatch) : Outcome δ α → Prop
  | tooMany {t : EquationSystem α} (hlinearize : s.clearTags.linearize .live = (false, t)) :
      CheckExit s doc g policy findBad findFree watch
        (t.conclude doc g { result := .tooManyUnknowns } [])
  | independent {main s' : EquationSystem α} (htested : s.Tested true main)
      (hmark : main.markFree findFree = .ok s') :
      CheckExit s doc g policy findBad findFree watch
        (s'.conclude doc g { result := .okay, dof := main.dof, rank := main.rank } s'.writes)
  | refused {main : EquationSystem α} {doc' : δ} {e : SolverError} (htested : s.Tested false main)
      (hsearch : main.findConflicts doc g true (watch policy.searchTimeoutMs) =
        .ok (.error e, doc')) :
      CheckExit s doc g policy findBad findFree watch
        { result := .error e, system := main, document := doc' }
  /-- Conflicts are looked for where the policy lets it. -/
  | redundant {main : EquationSystem α} {doc' : δ} {found : ConflictSearch}
      (htested : s.Tested false main)
      (hsearch :
        if policy.suppressDof = false ∧ policy.allowRedundant = false ∧ findBad = true then
          main.findConflicts doc g true (watch policy.searchTimeoutMs) = .ok (.ok found, doc')
        else found = {} ∧ doc' = doc) :
      CheckExit s doc g policy findBad findFree watch
        (main.conclude doc' g
          { result := .redundantOkay
            dof := main.dof
            rank := main.rank
            bad := found.bad
            timedOut := found.timedOut } main.writes)

/-- Every check leaves by one of the exits. -/
theorem checkLoaded_exit (h : s.checkLoaded doc g policy findBad findFree watch = .ok out) :
    CheckExit s doc g policy findBad findFree watch out := by
  simp only [checkLoaded] at h
  cases hlinearize : s.clearTags.linearize .live with
  | mk written t =>
  rw [hlinearize] at h
  cases written with
  | false =>
    cases h
    exact .tooMany hlinearize
  | true =>
  obtain ⟨⟨independent, main⟩, hrank, h⟩ := bind_eq_ok.1 h
  have htested : s.Tested independent main := ⟨t, hlinearize, hrank⟩
  cases independent with
  | true =>
    obtain ⟨s', hmark, h⟩ := bind_eq_ok.1 h
    cases h
    exact .independent htested hmark
  | false =>
    simp only [Bool.false_eq_true, if_false] at h
    split at h
    · next hasked =>
      have hpolicy : policy.suppressDof = false ∧ policy.allowRedundant = false ∧
          findBad = true := by
        simpa [and_assoc] using hasked
      obtain ⟨⟨search, doc'⟩, hsearch, h⟩ := bind_eq_ok.1 h
      cases search with
      | error e =>
        cases h
        exact .refused htested hsearch
      | ok found =>
        cases h
        exact .redundant htested (by rwa [if_pos hpolicy])
    · next hnot =>
      have hpolicy : ¬ (policy.suppressDof = false ∧ policy.allowRedundant = false ∧
          findBad = true) := by
        simpa [and_assoc] using hnot
      have hskipped : if policy.suppressDof = false ∧ policy.allowRedundant = false ∧
          findBad = true then main.findConflicts doc g true (watch policy.searchTimeoutMs) =
            .ok (.ok {}, doc) else ({} : ConflictSearch) = {} ∧ doc = doc := by
        rw [if_neg hpolicy]
        exact ⟨rfl, rfl⟩
      cases h
      exact .redundant htested hskipped

/-- What a check that comes to a report has found, and what it does if equations are redundant: it
looks for conflicts where the policy lets it, and writes back the values that it has loaded. -/
theorem checkLoaded_cases (h : s.checkLoaded doc g policy findBad findFree watch = .ok out)
    (hreport : out.result = .ok report) :
    report.result = .tooManyUnknowns ∧ s.independent = .ok false ∨
      report.result = .okay ∧ s.independent = .ok true ∨
        report.result = .redundantOkay ∧ s.independent = .ok false ∧
          (policy.suppressDof = false → policy.allowRedundant = false → findBad = true →
            ∃ main found doc', Frame (fun _ _ => False) s.clearTags main ∧
              main.findConflicts doc g true (watch policy.searchTimeoutMs) =
                .ok (.ok found, doc') ∧
              report.bad = found.bad ∧ report.timedOut = found.timedOut ∧
              out.document = Document.recordStatus (applyWrites doc' main.writes) g
                report.status) := by
  cases checkLoaded_exit h with
  | tooMany hlinearize =>
    cases hreport
    refine .inl ⟨rfl, ?_⟩
    rw [independent_eq, hlinearize]
    rfl
  | independent htested _ =>
    cases hreport
    exact .inr (.inl ⟨rfl, htested.independent⟩)
  | refused _ _ => cases hreport
  | @redundant main doc' found htested hsearch =>
    cases hreport
    refine .inr (.inr ⟨rfl, htested.independent, fun hsuppress hallow hfind => ?_⟩)
    rw [if_pos ⟨hsuppress, hallow, hfind⟩] at hsearch
    exact ⟨main, found, doc', htested.frame, hsearch, rfl, rfl, rfl⟩

/-- A check succeeds if and only if the equations are independent. -/
theorem checkLoaded_okay_iff : (∃ out report,
      s.checkLoaded doc g policy findBad findFree watch = .ok out ∧ out.result = .ok report ∧
        report.result = .okay) ↔ s.independent = .ok true := by
  constructor
  · rintro ⟨out, report, hout, hreport, hokay⟩
    rcases checkLoaded_cases hout hreport with ⟨hmany, _⟩ | ⟨_, hind⟩ | ⟨hredundant, _⟩
    · rw [hokay] at hmany
      cases hmany
    · exact hind
    · rw [hokay] at hredundant
      cases hredundant
  · intro hind
    have hwritten : (s.clearTags.linearize .live).1 = true := by
      rw [independent_eq, Except.ok.injEq, Bool.and_eq_true] at hind
      exact hind.1
    obtain ⟨b, t₁, hrank, hindependent⟩ := testRank_linearize hwritten
    obtain rfl : b = true := Except.ok.inj (hindependent.symm.trans hind)
    obtain ⟨t₂, hmark, _⟩ := t₁.yields_markFree findFree
    unfold checkLoaded
    generalize s.clearTags.linearize .live = linearized at hwritten hrank ⊢
    obtain ⟨written, t⟩ := linearized
    simp only at hwritten hrank ⊢
    subst hwritten
    exact ⟨_, _, bind_eq_ok.2 ⟨_, hrank, bind_eq_ok.2 ⟨_, hmark, rfl⟩⟩, rfl, rfl⟩

/-! ## The search -/

/-- A trial asks whether what has been loaded is independent at the values of the main system. -/
theorem independentWithout_eq {c : ConstraintHandle} {b : Bool}
    (hload : trial.load doc g (some c) = .ok (policy, t, doc'))
    (hb : (t.withValuesOf main).independent = .ok b) :
    ∃ t', main.independentWithout trial doc g c true = .ok (.ok b, t', doc') ∧
      t'.settings = t.settings := by
  obtain ⟨hlinearize, _⟩ :=
    (t.withValuesOf main).clearTags.linearize_spec (fun _ _ => False) .live
  have hsettings : ((t.withValuesOf main).clearTags.linearize .live).2.settings = t.settings :=
    hlinearize.settings
  unfold independent at hb
  unfold independentWithout
  simp only [hload, if_true]
  generalize (t.withValuesOf main).clearTags.linearize .live = out at hb hsettings ⊢
  obtain ⟨written, t₁⟩ := out
  cases written with
  | false =>
    cases hb
    exact ⟨t₁, rfl, hsettings⟩
  | true =>
    obtain ⟨t₂, hjac, hb⟩ := bind_eq_ok.1 hb
    cases hb
    refine ⟨t₂, bind_eq_ok.2 ⟨_, hjac, rfl⟩, ?_⟩
    obtain ⟨jacobian, rfl⟩ := evalJacobian_eq_ok hjac
    exact hsettings

/-- On documents that `P` holds of, trials have answers that depend on the constraint only, and
they leave `P` true. -/
def Decides (main : EquationSystem α) (g : GroupHandle) (P : δ → Prop)
    (answer : ConstraintHandle → Bool) : Prop :=
  ∀ (trial : EquationSystem α) (doc : δ) (c : ConstraintHandle), trial.settings = main.settings →
    P doc → ∃ trial' doc', main.independentWithout trial doc g c true =
      .ok (.ok (answer c), trial', doc') ∧ trial'.settings = main.settings ∧ P doc'

end

end SketchSolver.EquationSystem
