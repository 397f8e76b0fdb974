import SketchSolver.EquationTable
import SketchSolver.Proofs.Solve.Search
import SketchSolver.Proofs.Solve.Totality

/-!
# How a call ends

A solve has one way to succeed and several to fail: an equation of one unknown cannot be solved,
too many equations are left, the main iteration fails, the search for conflicts is refused a policy,
or an unknown cannot be recovered. `Exit` tells them apart up to the main iteration, and
`solveLoaded_exit` is the one place where the whole run is taken apart.

What a call does to the document is the same at every exit but one: equations have been written some
number of times (`Relabelled`), a status is recorded, and values are written back if the call has
succeeded (`Ends`). A solve then writes one value for each parameter of the group (`ends_solve`),
and a check writes the values that are there (`ends_check`).
-/

namespace SketchSolver

/-- What a document becomes while the equations of a group are written, however often and whichever
constraint is excepted. -/
inductive Relabelled [Document δ α] (g : GroupHandle) (doc : δ) : δ → Prop
  | refl : Relabelled g doc doc
  | write {doc' : δ} (except : Option ConstraintHandle) (out : List (Equation α)) :
      Relabelled g doc doc' → Relabelled g doc (Document.writeEquations doc' g except out).2

/-- A table has no labels. -/
theorem Relabelled.eq_table {g : GroupHandle} {table d : EquationTable α}
    (hd : Relabelled g table d) : d = table := by
  induction hd with
  | refl => rfl
  | write _ _ _ ih => exact ih

/-- Where no values were found there is nothing to write back, redundant or not. -/
theorem SolveResult.isOkay_ofDiverged (independent : Bool) :
    (ofDiverged independent).isOkay = false := by
  cases independent <;> rfl

/-- Where all equations hold there are values to write back, redundant or not. -/
theorem SolveResult.isOkay_ofConverged (independent : Bool) :
    (ofConverged independent).isOkay = true := by
  cases independent <;> rfl

namespace EquationSystem

section
variable [Scalar α]

/-! ## Exits of a run -/

/-- The main system, with whether its equations are independent: what is left for the iteration
after equations have been solved alone and unknowns eliminated, if a run gets there. -/
def mainSystem (s : EquationSystem α) (policy : Policy) (options : SolveOptions) :
    Except (Fault α) (Option (Bool × EquationSystem α)) := do
  let (alone, s) ← (s.simplified policy options).solveSingletons
  if !alone then return none
  let (written, s) := s.eliminate.2.linearize .live
  if !written then return none
  let s := { s with rank := none, dof := -1 }
  let main ← s.testRankUnless (policy.suppressDof || policy.allowRedundant)
  return some main

variable [Document δ α]

/-- The exits of a run, with the systems that it is left by. -/
inductive Exit (s : EquationSystem α) (doc : δ) (g : GroupHandle) (policy : Policy)
    (options : SolveOptions) (watch : Stopwatch) : Outcome δ α → Prop
  | alone {s₁} (h : (s.simplified policy options).solveSingletons = .ok (false, s₁)) :
      Exit s doc g policy options watch (s₁.conclude doc g (s₁.divergence doc true) [])
  | tooMany {s₁ s₂} (h : (s.simplified policy options).solveSingletons = .ok (true, s₁))
      (hlinearize : s₁.eliminate.2.linearize .live = (false, s₂)) :
      Exit s doc g policy options watch (s₂.conclude doc g { result := .tooManyUnknowns } [])
  | diverged {independent main s₁}
      (h : s.mainSystem policy options = .ok (some (independent, main)))
      (hnewton : main.newton = .ok (false, s₁)) :
      Exit s doc g policy options watch (s₁.conclude doc g (s₁.divergence doc independent) [])
  | converged {independent main s₁ independent' s₂ out}
      (h : s.mainSystem policy options = .ok (some (independent, main)))
      (hnewton : main.newton = .ok (true, s₁))
      (hrank : s₁.testRankUnless policy.suppressDof = .ok (independent', s₂))
      (hfinish : s₂.finish doc g policy options watch independent' = .ok out) :
      Exit s doc g policy options watch out

variable {s s' main : EquationSystem α} {doc doc' : δ} {g : GroupHandle} {policy : Policy}
  {options : SolveOptions} {watch : Stopwatch} {out : Outcome δ α}

/-- Every run leaves by one of the exits. -/
theorem solveLoaded_exit (h : s.solveLoaded doc g policy options watch = .ok out) :
    Exit s doc g policy options watch out := by
  rw [solveLoaded_eq] at h
  simp only at h
  have hmain : ∀ s₁ s₂ main, (s.simplified policy options).solveSingletons = .ok (true, s₁) →
      s₁.eliminate.2.linearize .live = (true, s₂) →
      ({ s₂ with rank := none, dof := -1 } : EquationSystem α).testRankUnless
        (policy.suppressDof || policy.allowRedundant) = .ok main →
      s.mainSystem policy options = .ok (some main) := by
    intro s₁ s₂ main halone hlinearize hrank
    unfold mainSystem
    refine bind_eq_ok.2 ⟨_, halone, ?_⟩
    simp only [Bool.not_true, Bool.false_eq_true, if_false, hlinearize]
    exact bind_eq_ok.2 ⟨_, hrank, rfl⟩
  obtain ⟨⟨alone, s₁⟩, halone, h⟩ := bind_eq_ok.1 h
  cases alone with
  | false =>
    cases h
    exact .alone halone
  | true =>
  cases hlinearize : s₁.eliminate.2.linearize .live with
  | mk written s₂ =>
  simp only [Bool.not_true, Bool.false_eq_true, if_false, hlinearize] at h
  cases written with
  | false =>
    cases h
    exact .tooMany halone hlinearize
  | true =>
  obtain ⟨⟨independent, s₃⟩, hrank, h⟩ := bind_eq_ok.1 h
  obtain ⟨⟨converged, s₄⟩, hnewton, h⟩ := bind_eq_ok.1 h
  have hmain := hmain s₁ s₂ _ halone hlinearize hrank
  cases converged with
  | false =>
    cases h
    exact .diverged hmain hnewton
  | true =>
    obtain ⟨⟨independent', s₅⟩, hrank', h⟩ := bind_eq_ok.1 h
    exact .converged hmain hnewton hrank' h

/-! ## The main system -/

omit [Scalar α] [Document δ α] in
/-- Clearing the tags and substituting leave the unknowns and the settings. -/
theorem sameUnknowns_simplified (s : EquationSystem α) (policy : Policy)
    (options : SolveOptions) : SameUnknowns s (s.simplified policy options) := by
  unfold simplified
  split
  · exact s.sameUnknowns_clearTags.trans s.clearTags.sameUnknowns_substitute
  · exact s.sameUnknowns_clearTags

omit [Document δ α] in
/-- The passes up to elimination leave the unknowns and the settings. -/
theorem sameUnknowns_alone {b : Bool}
    (h : (s.simplified policy options).solveSingletons = .ok (b, s')) : SameUnknowns s s' := by
  obtain ⟨_, h', hsame, _⟩ := (s.simplified policy options).yields_solveSingletons
  obtain rfl := Except.ok.inj (h'.symm.trans h)
  exact (s.sameUnknowns_simplified policy options).trans hsame

omit [Document δ α] in
/-- Elimination leaves them too. -/
theorem sameUnknowns_reduced {b : Bool}
    (h : (s.simplified policy options).solveSingletons = .ok (b, s')) :
    SameUnknowns s s'.eliminate.2 :=
  (sameUnknowns_alone h).trans (sameUnknowns_eliminateRounds _ _ _ s')

omit [Document δ α] in
/-- What does not get past the equations of one unknown is not accepted. -/
theorem accepted_of_alone {s₁ : EquationSystem α}
    (h : (s.simplified policy options).solveSingletons = .ok (false, s₁)) :
    s.accepted policy options = .ok none :=
  bind_eq_ok.2 ⟨_, h, rfl⟩

omit [Document δ α] in
/-- The passes that lead to the main system. -/
theorem passes_of_mainSystem {independent : Bool}
    (h : s.mainSystem policy options = .ok (some (independent, main))) :
    ∃ s₁ s₂, (s.simplified policy options).solveSingletons = .ok (true, s₁) ∧
      s₁.eliminate.2.linearize .live = (true, s₂) ∧
      ({ s₂ with rank := none, dof := -1 } : EquationSystem α).testRankUnless
        (policy.suppressDof || policy.allowRedundant) = .ok (independent, main) := by
  unfold mainSystem at h
  obtain ⟨⟨alone, s₁⟩, halone, h⟩ := bind_eq_ok.1 h
  cases alone with
  | false => cases h
  | true =>
  cases hlinearize : s₁.eliminate.2.linearize .live with
  | mk written s₂ =>
  simp only [Bool.not_true, Bool.false_eq_true, if_false, hlinearize] at h
  cases written with
  | false => cases h
  | true =>
  obtain ⟨rank, hrank, h⟩ := bind_eq_ok.1 h
  cases h
  exact ⟨s₁, s₂, halone, hlinearize, hrank⟩

/-- A run that gets to the main system goes on from there. -/
theorem solveLoaded_of_mainSystem {independent : Bool}
    (h : s.mainSystem policy options = .ok (some (independent, main))) :
    s.solveLoaded doc g policy options watch = (do
      let (converged, s) ← main.newton
      if !converged then return s.conclude doc g (s.divergence doc independent) []
      let (independent, s) ← s.testRankUnless policy.suppressDof
      s.finish doc g policy options watch independent) := by
  obtain ⟨s₁, s₂, halone, hlinearize, hrank⟩ := passes_of_mainSystem h
  unfold simplified at halone
  rw [solveLoaded_eq]
  simp only [halone, bind, Except.bind, Bool.not_true, Bool.false_eq_true, if_false, hlinearize,
    hrank]

omit [Document δ α] in
/-- A run that gets to the main system is accepted if the iteration converges. -/
theorem accepted_of_mainSystem {independent : Bool}
    (h : s.mainSystem policy options = .ok (some (independent, main))) :
    s.accepted policy options = (do
      let (converged, s) ← main.newton
      return if converged then some s else none) := by
  obtain ⟨s₁, s₂, halone, hlinearize, hrank⟩ := passes_of_mainSystem h
  unfold simplified at halone
  simp only [accepted, halone, bind, Except.bind, Bool.not_true, Bool.false_eq_true, if_false,
    hlinearize, hrank]

omit [Document δ α] in
/-- The main system has come from one whose equations of one unknown have been solved alone. -/
theorem mainSystem_eq_ok {independent : Bool}
    (h : s.mainSystem policy options = .ok (some (independent, main))) :
    ∃ s₁, (s.simplified policy options).solveSingletons = .ok (true, s₁) ∧
      (s₁.eliminate.2.linearize .live).1 = true ∧
      Frame (fun _ _ => False) s₁.eliminate.2 main ∧
      (s₁.eliminate.2.linearize .live).2.linearization.SameForm main.linearization := by
  obtain ⟨s₁, s₂, halone, hlinearize, hrank⟩ := passes_of_mainSystem h
  obtain ⟨hframe, _⟩ := s₁.eliminate.2.linearize_spec (fun _ _ => False) .live
  have hreset : Frame (fun _ _ => False) s₂ { s₂ with rank := none, dof := -1 } :=
    .of_eq rfl rfl rfl rfl rfl rfl
  obtain ⟨hstill, hform, _⟩ := testRankUnless_eq_ok (fun _ _ => False) hrank
  rw [hlinearize] at hframe
  refine ⟨s₁, halone, ?_⟩
  rw [hlinearize]
  exact ⟨rfl, (hframe.trans hreset).trans hstill, hform⟩

omit [Document δ α] in
/-- The main system has the unknowns that have been loaded, and so have those of its iteration. -/
theorem sameUnknowns_mainSystem {independent converged : Bool}
    (h : s.mainSystem policy options = .ok (some (independent, main)))
    (hnewton : main.newton = .ok (converged, s')) : SameUnknowns s s' := by
  obtain ⟨s₁, halone, hwritten, hframe, hform⟩ := mainSystem_eq_ok h
  obtain ⟨hlinearize, _⟩ := s₁.eliminate.2.linearize_spec Anything .live
  have hresolved : main.Resolved := by
    refine ⟨?_, ?_⟩
    · rw [hform.partials, hframe.position?_eq, ← hlinearize.position?_eq]
      exact (s₁.eliminate.2.resolved_linearize .live).partials
    · rw [hform.residualExprs, hframe.position?_eq, ← hlinearize.position?_eq]
      exact (s₁.eliminate.2.resolved_linearize .live).residualExprs
  obtain ⟨_, hnewton', hiterated, _⟩ := hresolved.yields_newton
  obtain rfl := Except.ok.inj (hnewton'.symm.trans hnewton)
  exact (sameUnknowns_reduced halone).trans (hframe.sameUnknowns.trans hiterated.sameUnknowns)

/-! ## What becomes of the document -/

omit [Scalar α] in
/-- A group can be loaded unless it has no policy. -/
theorem policy_of_load_eq_error {except : Option ConstraintHandle} {e : SolverError}
    (h : s.load doc g except = .error e) : Document.policy doc g = .error e := by
  unfold load at h
  cases hpolicy : Document.policy doc g with
  | error e' =>
    rw [hpolicy] at h
    cases h
    rfl
  | ok _ =>
    rw [hpolicy] at h
    cases h

omit [Scalar α] in
/-- A load writes the equations once. -/
theorem relabelled_load {t : EquationSystem α} {d d' : δ} {except : Option ConstraintHandle}
    (hd : Relabelled g doc d) (h : s.load d g except = .ok (policy, t, d')) :
    Relabelled g doc d' := by
  rw [(loads_of_load h).document]
  exact .write except [] hd

/-- A trial writes equations once, unless it is refused a policy. -/
theorem relabelled_independentWithout {trial trial' : EquationSystem α} {d d' : δ}
    {c : ConstraintHandle} {strict : Bool} {verdict : Except SolverError Bool}
    (hd : Relabelled g doc d)
    (h : main.independentWithout trial d g c strict = .ok (verdict, trial', d')) :
    Relabelled g doc d' ∧ ∀ e, verdict = .error e → Document.policy d' g = .error e := by
  unfold independentWithout at h
  cases hload : trial.load d g (some c) with
  | error e =>
    rw [hload] at h
    cases h
    refine ⟨hd, fun e' he' => ?_⟩
    cases he'
    exact policy_of_load_eq_error hload
  | ok loaded =>
    obtain ⟨policy, t, d₁⟩ := loaded
    rw [hload] at h
    have hd₁ := relabelled_load hd hload
    simp only at h
    generalize (if strict = true then (t.withValuesOf main).clearTags
      else (t.withValuesOf main).clearTags.substitute.2).linearize .live = linearized at h
    obtain ⟨written, t₁⟩ := linearized
    cases written with
    | false =>
      cases h
      exact ⟨hd₁, nofun⟩
    | true =>
      obtain ⟨t₂, _, h⟩ := bind_eq_ok.1 h
      cases h
      exact ⟨hd₁, nofun⟩

/-- A search writes equations once for each trial. -/
theorem relabelled_searchFrom {strict : Bool} {deadline : Deadline}
    {search : Except SolverError ConflictSearch} :
    ∀ {passes : List (ConstraintHandle × Bool)} {check : Nat} {found : ConflictSearch}
      {trial : EquationSystem α} {d d' : δ}, Relabelled g doc d →
      main.searchFrom g strict deadline check passes found trial d = .ok (search, d') →
      Relabelled g doc d' ∧ ∀ e, search = .error e → Document.policy d' g = .error e
  | [], _, _, _, _, _, hd, h => by
    cases h
    exact ⟨hd, nofun⟩
  | (c, tried) :: rest, check, found, trial, d, d', hd, h => by
    rw [searchFrom] at h
    split at h
    · cases h
      exact ⟨hd, fun _ he => by cases he⟩
    · split at h
      · exact relabelled_searchFrom hd h
      · obtain ⟨⟨verdict, trial', d₁⟩, htrial, h⟩ := bind_eq_ok.1 h
        obtain ⟨hd₁, hrefused⟩ := relabelled_independentWithout hd htrial
        cases verdict with
        | error e =>
          cases h
          exact ⟨hd₁, fun _ he => by cases he; exact hrefused _ rfl⟩
        | ok independent => exact relabelled_searchFrom hd₁ h

/-- A search writes equations for its trials, and is refused a policy only if the document is by
then. -/
theorem relabelled_findConflicts {strict : Bool} {deadline : Deadline} {d d' : δ}
    {search : Except SolverError ConflictSearch} (hd : Relabelled g doc d)
    (h : main.findConflicts d g strict deadline = .ok (search, d')) :
    Relabelled g doc d' ∧ ∀ e, search = .error e → Document.policy d' g = .error e :=
  relabelled_searchFrom hd h

/-! ## What a call leaves behind -/

/-- How a call on a group ends: it is refused a policy, it fails and writes nothing back, or it
succeeds with writes of which `P` holds. It comes to a report only if there has been a policy. -/
inductive Ends (g : GroupHandle) (doc : δ) (P : List (Write α) → Prop) : Outcome δ α → Prop
  | refused {s : EquationSystem α} {doc' : δ} {e : SolverError} (hdoc : Relabelled g doc doc')
      (h : Document.policy doc' g = .error e) :
      Ends g doc P { result := .error e, system := s, document := doc' }
  | failed {s : EquationSystem α} {doc' : δ} {policy : Policy} {report : Report}
      (hpolicy : Document.policy doc g = .ok policy) (hdoc : Relabelled g doc doc')
      (h : report.result.isOkay = false) : Ends g doc P (s.conclude doc' g report [])
  | succeeded {s : EquationSystem α} {doc' : δ} {policy : Policy} {report : Report}
      {writes : List (Write α)} (hpolicy : Document.policy doc g = .ok policy)
      (hdoc : Relabelled g doc doc') (h : report.result.isOkay = true) (hwrites : P writes) :
      Ends g doc P (s.conclude doc' g report writes)

/-- One value is written back for each parameter of the group, in the order of the document. -/
def WritesAll (doc : δ) (g : GroupHandle) (writes : List (Write α)) : Prop :=
  writes.map (·.handle) = (Document.params doc g).map Prod.fst

/-- The values that are written back are those that the parameters of the group have. -/
def WritesSame (doc : δ) (g : GroupHandle) (writes : List (Write α)) : Prop :=
  writes.map (fun w => (w.handle, w.value)) = Document.params doc g

variable {d : δ} {independent : Bool}

omit [Scalar α] in
/-- Calls that succeed with some writes succeed with more general ones. -/
theorem Ends.mono {P P' : List (Write α) → Prop} (h : Ends g doc P out)
    (hP : ∀ writes, P writes → P' writes) : Ends g doc P' out := by
  cases h with
  | refused hdoc hrefused => exact .refused hdoc hrefused
  | failed hpolicy hdoc hfailed => exact .failed hpolicy hdoc hfailed
  | succeeded hpolicy hdoc hok hwrites => exact .succeeded hpolicy hdoc hok (hP _ hwrites)

omit [Scalar α] in
/-- What holds of the writes of a call that succeeds holds of all that it writes. -/
theorem Ends.forall_writes {P : List (Write α) → Prop} {Q : Write α → Prop} (h : Ends g doc P out)
    (hP : ∀ writes, P writes → ∀ w ∈ writes, Q w) : ∀ w ∈ out.writes, Q w := by
  cases h with
  | refused _ _ | failed _ _ _ => exact nofun
  | succeeded _ _ _ hwrites => exact hP _ hwrites

omit [Scalar α] in
/-- Writes of the values that are there are one for each parameter. -/
theorem WritesSame.writesAll {writes : List (Write α)} (h : WritesSame doc g writes) :
    WritesAll doc g writes := by
  rw [WritesAll, ← h, List.map_map]
  rfl

omit [Scalar α] [Document δ α] in
/-- One value is written for each unknown. -/
theorem handles_writes (s : EquationSystem α) :
    s.writes.map (·.handle) = s.params.map (·.handle) := by
  simp [writes, Function.comp_def]

/-- Recovery ends a solve with all values written back, or with none. -/
theorem ends_recoverAndWrite {report : Report} (hpolicy : Document.policy doc g = .ok policy)
    (hd : Relabelled g doc d)
    (hs : s.params.map (·.handle) = (Document.params doc g).map Prod.fst)
    (hok : report.result.isOkay = true)
    (h : s.recoverAndWrite d g report independent = .ok out) :
    Ends g doc (WritesAll doc g) out := by
  obtain ⟨s', hframe, rfl | ⟨defining, rfl⟩⟩ := recoverAndWrite_cases h
  · refine .succeeded hpolicy hd hok ?_
    rw [WritesAll, handles_writes, hframe.handles_eq, hs]
  · exact .failed hpolicy hd (SolveResult.isOkay_ofDiverged independent)

/-- What comes after the iteration ends a solve with all values written back, or with none. -/
theorem ends_finish {policy' : Policy} (hpolicy : Document.policy doc g = .ok policy')
    (hd : Relabelled g doc d)
    (hs : s.params.map (·.handle) = (Document.params doc g).map Prod.fst)
    (h : s.finish d g policy options watch independent = .ok out) :
    Ends g doc (WritesAll doc g) out := by
  have hok := SolveResult.isOkay_ofConverged independent
  unfold finish at h
  cases independent with
  | true =>
    obtain ⟨s₁, hmark, h⟩ := bind_eq_ok.1 h
    have hframe : Frame (fun _ _ => False) s s₁ := frame_markFree hmark
    refine ends_recoverAndWrite hpolicy hd ?_ hok h
    rw [hframe.handles_eq, hs]
  | false =>
    simp only [Bool.false_eq_true, if_false] at h
    split at h
    · obtain ⟨⟨search, d'⟩, hsearch, h⟩ := bind_eq_ok.1 h
      obtain ⟨hd', hrefused⟩ := relabelled_findConflicts hd hsearch
      cases search with
      | error e =>
        cases h
        exact .refused hd' (hrefused e rfl)
      | ok found => exact ends_recoverAndWrite hpolicy hd' hs hok h
    · exact ends_recoverAndWrite hpolicy hd hs hok h

/-- A solve writes back one value for each parameter of the group, or nothing. -/
theorem ends_solve (h : s.solve doc g options watch = .ok out) :
    Ends g doc (WritesAll doc g) out := by
  unfold solve at h
  cases hload : s.load doc g none with
  | error e =>
    rw [hload] at h
    cases h
    exact .refused .refl (policy_of_load_eq_error hload)
  | ok loaded =>
    obtain ⟨policy, t, d⟩ := loaded
    rw [hload] at h
    have hd : Relabelled g doc d := relabelled_load .refl hload
    have hpolicy := (loads_of_load hload).policy
    have ht := (loads_of_load hload).handles_eq
    cases solveLoaded_exit h with
    | alone _ => exact .failed hpolicy hd rfl
    | tooMany _ _ => exact .failed hpolicy hd rfl
    | diverged _ _ => exact .failed hpolicy hd (SolveResult.isOkay_ofDiverged _)
    | converged hmain hnewton hrank hfinish =>
      obtain ⟨hstill, _⟩ := testRankUnless_eq_ok (fun _ _ => False) hrank
      refine ends_finish hpolicy hd ?_ hfinish
      rw [hstill.handles_eq, (sameUnknowns_mainSystem hmain hnewton).handles, ht]

omit [Scalar α] in
/-- What has been loaded and has not been moved is written back as it was. -/
theorem writesSame_of_frame {except : Option ConstraintHandle} {t : EquationSystem α}
    (hload : s.load doc g except = .ok (policy, t, d))
    (hframe : Frame (fun _ _ => False) t.clearTags s') : WritesSame doc g s'.writes := by
  have hparams := (loads_of_load hload).params
  have hkept := hframe.params
  simp only [clearTags, hparams, List.map_map, List.forall₂_map_left_iff] at hkept
  rw [WritesSame, writes, List.map_map]
  refine (List.forall₂_eq_eq_eq ▸ List.forall₂_map_left_iff.2 ?_ : _)
  exact hkept.flip.imp fun p e hk => Prod.ext hk.handle (hk.value id)

/-- A check writes back the values that are there, or nothing. -/
theorem ends_check {findBad findFree : Bool} (h : s.check doc g findBad findFree watch = .ok out) :
    Ends g doc (WritesSame doc g) out := by
  unfold check at h
  cases hload : s.load doc g none with
  | error e =>
    rw [hload] at h
    cases h
    exact .refused .refl (policy_of_load_eq_error hload)
  | ok loaded =>
    obtain ⟨policy, t, d⟩ := loaded
    rw [hload] at h
    have hd : Relabelled g doc d := relabelled_load .refl hload
    have hpolicy := (loads_of_load hload).policy
    cases checkLoaded_exit h with
    | tooMany _ => exact .failed hpolicy hd rfl
    | independent htested hmark =>
      exact .succeeded hpolicy hd rfl
        (writesSame_of_frame hload (htested.frame.trans (frame_markFree hmark)))
    | refused _ hsearch =>
      obtain ⟨hd', hrefused⟩ := relabelled_findConflicts hd hsearch
      exact .refused hd' (hrefused _ rfl)
    | redundant htested hsearch =>
      have hsame := writesSame_of_frame hload htested.frame
      split at hsearch
      · exact .succeeded hpolicy (relabelled_findConflicts hd hsearch).1 rfl hsame
      · obtain ⟨_, rfl⟩ := hsearch
        exact .succeeded hpolicy hd rfl hsame

end

end EquationSystem

end SketchSolver
