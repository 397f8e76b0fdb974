import SketchSolver.Proofs.Solve.Exits

/-!
# A system remembers nothing

A system that has been used before, or has been tampered with, answers every call as a new one with
the same settings does. A load starts by emptying the system (`load_eq_afresh`), and no call reads
the system before its load, so one call tells nothing of what was there (`observe_serve`). The
settings outlive every call (`settings_serve`), hence a list of calls to one system is answered as
if each went to a system of its own (`serveAll_eq_afresh`). The same holds inside of a call: the
search for conflicts hands one system on from trial to trial, and finds what it would find with a
new system for each (`findConflicts_eq_afresh`). `solve_history` puts these together.
-/

namespace SketchSolver

/-- What the caller and the document see of a call. -/
structure Observation (δ : Type u) (α : Type v) where
  result : Except SolverError Report
  document : δ
  writes : List (Write α)
  status : Option Status

/-- An outcome without the system that is left behind. -/
def Outcome.observation (out : Outcome δ α) : Observation δ α where
  result := out.result
  document := out.document
  writes := out.writes
  status := out.status

/-- A call of a system on a group. -/
inductive Request where
  | solve (g : GroupHandle) (options : SolveOptions) (watch : Stopwatch)
  | check (g : GroupHandle) (findBad findFree : Bool) (watch : Stopwatch)

namespace EquationSystem

section
variable [Scalar α] [Document δ α]

/-! ## Calls -/

/-- The outcome of a call. -/
def serve (s : EquationSystem α) (doc : δ) : Request → Except (Fault α) (Outcome δ α)
  | .solve g options watch => s.solve doc g options watch
  | .check g findBad findFree watch => s.check doc g findBad findFree watch

/-- What is seen of a call. -/
def observe (s : EquationSystem α) (doc : δ) (r : Request) :
    Except (Fault α) (Observation δ α) :=
  (s.serve doc r).map Outcome.observation

/-- What is seen of a list of calls, each with a document, that one system serves one after the
other. -/
def serveAll (s : EquationSystem α) : List (δ × Request) →
    Except (Fault α) (List (Observation δ α))
  | [] => return []
  | (doc, r) :: rest => do
    let out ← s.serve doc r
    let seen ← out.system.serveAll rest
    return out.observation :: seen

/-- The search over a list of constraints with a new system for every trial. -/
def searchAfresh (main : EquationSystem α) (g : GroupHandle) (strict : Bool)
    (deadline : Deadline) : (check : Nat) → List (ConstraintHandle × Bool) → ConflictSearch → δ →
    Except (Fault α) (Except SolverError ConflictSearch × δ)
  | _, [], found, doc => return (.ok found, doc)
  | check, (c, tried) :: rest, found, doc =>
    if deadline check then return (.ok { found with timedOut := true }, doc)
    else if !tried then main.searchAfresh g strict deadline (check + 1) rest found doc
    else do
      let (verdict, _, doc) ← main.independentWithout (.empty main.settings) doc g c strict
      match verdict with
      | .error e => return (.error e, doc)
      | .ok independent =>
        let found := if independent then { found with bad := found.bad ++ [c] } else found
        main.searchAfresh g strict deadline (check + 1) rest found doc

/-- The constraints to remove, found with a new system for every trial. -/
def findConflictsAfresh (main : EquationSystem α) (doc : δ) (g : GroupHandle) (strict : Bool)
    (deadline : Deadline) : Except (Fault α) (Except SolverError ConflictSearch × δ) :=
  let constraints := Document.constraints doc g
  let passes := constraints.map (fun (c, coincident) => (c, !coincident)) ++ constraints
  main.searchAfresh g strict deadline 0 passes {} doc

variable {s s' t main trial trial' : EquationSystem α} {doc doc' : δ} {g : GroupHandle}
  {policy : Policy} {options : SolveOptions} {watch : Stopwatch} {out : Outcome δ α}
  {report : Report} {independent : Bool}

/-! ## One call -/

omit [Scalar α] in
/-- What is loaded depends on the settings alone. -/
theorem load_eq_afresh (s : EquationSystem α) (doc : δ) (g : GroupHandle)
    (except : Option ConstraintHandle) :
    s.load doc g except = (empty s.settings).load doc g except :=
  rfl

/-- What is seen of a call depends on the settings alone. A call that is refused a policy does hand
on the system as it was, but nothing of it is seen. -/
theorem observe_serve (s : EquationSystem α) (doc : δ) (r : Request) :
    s.observe doc r = (empty s.settings).observe doc r := by
  cases r with
  | solve g options watch =>
    simp only [observe, serve, solve, load_eq_afresh s]
    cases (empty s.settings).load doc g none with
    | error e => rfl
    | ok loaded => rfl
  | check g findBad findFree watch =>
    simp only [observe, serve, check, load_eq_afresh s]
    cases (empty s.settings).load doc g none with
    | error e => rfl
    | ok loaded => rfl

/-! ## Settings -/

/-- Recovering and writing back leave the unknowns and the settings. -/
theorem sameUnknowns_recoverAndWrite
    (h : s.recoverAndWrite doc g report independent = .ok out) : SameUnknowns s out.system := by
  obtain ⟨s', hframe, rfl | ⟨defining, rfl⟩⟩ := recoverAndWrite_cases h
  · exact hframe.sameUnknowns
  · exact hframe.sameUnknowns

/-- What comes after the iteration leaves the unknowns and the settings. -/
theorem sameUnknowns_finish (h : s.finish doc g policy options watch independent = .ok out) :
    SameUnknowns s out.system := by
  unfold finish at h
  cases independent with
  | true =>
    obtain ⟨s₁, hmark, h⟩ := bind_eq_ok.1 h
    have hframe : Frame Anything s s₁ := frame_markFree hmark
    exact hframe.sameUnknowns.trans (sameUnknowns_recoverAndWrite h)
  | false =>
    simp only [Bool.false_eq_true, if_false] at h
    split at h
    · obtain ⟨⟨search, doc'⟩, _, h⟩ := bind_eq_ok.1 h
      cases search with
      | error e =>
        cases h
        exact .refl s
      | ok found => exact sameUnknowns_recoverAndWrite h
    · exact sameUnknowns_recoverAndWrite h

/-- Whichever way a run ends, its system has the unknowns and the settings that it started with. -/
theorem sameUnknowns_solveLoaded (h : s.solveLoaded doc g policy options watch = .ok out) :
    SameUnknowns s out.system := by
  cases solveLoaded_exit h with
  | alone hrun => exact sameUnknowns_alone hrun
  | @tooMany s₁ s₂ hrun hlinearize =>
    have hframe := (s₁.eliminate.2.linearize_spec Anything .live).1.sameUnknowns
    rw [hlinearize] at hframe
    exact (sameUnknowns_reduced hrun).trans hframe
  | diverged hmain hnewton => exact sameUnknowns_mainSystem hmain hnewton
  | converged hmain hnewton hrank hfinish =>
    have htest := (testRankUnless_eq_ok Anything hrank).1.sameUnknowns
    exact ((sameUnknowns_mainSystem hmain hnewton).trans htest).trans (sameUnknowns_finish hfinish)

/-- A check leaves the unknowns and the settings that have been loaded. -/
theorem sameUnknowns_checkLoaded {findBad findFree : Bool}
    (h : s.checkLoaded doc g policy findBad findFree watch = .ok out) :
    SameUnknowns s out.system := by
  have htested : ∀ {b main}, s.Tested b main → SameUnknowns s main := by
    intro b main htested
    have hframe : Frame Anything s.clearTags main := htested.frame
    exact s.sameUnknowns_clearTags.trans hframe.sameUnknowns
  cases checkLoaded_exit h with
  | tooMany hlinearize =>
    have hframe := (s.clearTags.linearize_spec Anything .live).1.sameUnknowns
    rw [hlinearize] at hframe
    exact s.sameUnknowns_clearTags.trans hframe
  | independent htest hmark =>
    have hframe : Frame Anything _ _ := frame_markFree hmark
    exact (htested htest).trans hframe.sameUnknowns
  | refused htest _ | redundant htest _ => exact htested htest

/-- No call changes the settings. -/
theorem settings_serve {r : Request} (h : s.serve doc r = .ok out) :
    out.system.settings = s.settings := by
  cases r with
  | solve g options watch =>
    simp only [serve, solve] at h
    split at h
    · cases h
      rfl
    · next policy t doc' hload =>
      exact (sameUnknowns_solveLoaded h).settings.trans (loads_of_load hload).settings
  | check g findBad findFree watch =>
    simp only [serve, check] at h
    split at h
    · cases h
      rfl
    · next policy t doc' hload =>
      exact (sameUnknowns_checkLoaded h).settings.trans (loads_of_load hload).settings

/-! ## Many calls -/

/-- A list of calls to one system is answered as if each of them went to a new one. -/
theorem serveAll_eq_afresh (s : EquationSystem α) (calls : List (δ × Request)) :
    s.serveAll calls = calls.mapM fun call => (empty s.settings).observe call.1 call.2 := by
  induction calls generalizing s with
  | nil => rfl
  | cons call rest ih =>
    rw [List.mapM_cons, ← observe_serve s call.1 call.2]
    unfold serveAll observe
    cases hserve : s.serve call.1 call.2 with
    | error fault => rfl
    | ok out =>
      have hrest := ih out.system
      rw [settings_serve hserve] at hrest
      simp only [bind, Except.bind, hrest, Except.map, observe]

/-! ## Trials -/

/-- A trial depends on the settings of its system alone, unless it is refused a policy. -/
theorem independentWithout_eq_afresh (hsettings : trial.settings = main.settings) (doc : δ)
    (g : GroupHandle) (c : ConstraintHandle) (strict : Bool) :
    (∃ e, main.independentWithout trial doc g c strict = .ok (.error e, trial, doc) ∧
      main.independentWithout (.empty main.settings) doc g c strict =
        .ok (.error e, .empty main.settings, doc)) ∨
    main.independentWithout trial doc g c strict =
      main.independentWithout (.empty main.settings) doc g c strict := by
  unfold independentWithout
  rw [load_eq_afresh trial, hsettings]
  cases (empty main.settings).load doc g (some c) with
  | error e => exact .inl ⟨e, rfl, rfl⟩
  | ok loaded => exact .inr rfl

/-- No trial changes the settings of its system. -/
theorem settings_independentWithout {c : ConstraintHandle} {strict : Bool}
    {verdict : Except SolverError Bool}
    (h : main.independentWithout trial doc g c strict = .ok (verdict, trial', doc')) :
    trial'.settings = trial.settings := by
  unfold independentWithout at h
  cases hload : trial.load doc g (some c) with
  | error e =>
    rw [hload] at h
    cases h
    rfl
  | ok loaded =>
    obtain ⟨policy, t, doc₁⟩ := loaded
    rw [hload] at h
    simp only at h
    have hcleared : ((t.withValuesOf main).clearTags).settings = trial.settings :=
      (loads_of_load hload).settings
    have hstart : (if strict = true then (t.withValuesOf main).clearTags
        else (t.withValuesOf main).clearTags.substitute.2).settings = trial.settings := by
      split
      · exact hcleared
      · exact ((t.withValuesOf main).clearTags.sameUnknowns_substitute).settings.trans hcleared
    generalize (if strict = true then (t.withValuesOf main).clearTags
      else (t.withValuesOf main).clearTags.substitute.2) = t₁ at h hstart
    have hlinearize := (t₁.linearize_spec Anything .live).1.settings
    generalize t₁.linearize .live = linearized at h hlinearize
    obtain ⟨written, t₂⟩ := linearized
    cases written with
    | false =>
      cases h
      exact hlinearize.trans hstart
    | true =>
      obtain ⟨t₃, heval, h⟩ := bind_eq_ok.1 h
      cases h
      obtain ⟨_, rfl⟩ := evalJacobian_eq_ok heval
      exact hlinearize.trans hstart

/-- A search that hands on the system of its trials finds what one with new systems finds. -/
theorem searchFrom_eq_afresh {strict : Bool} {deadline : Deadline} :
    ∀ {passes : List (ConstraintHandle × Bool)} {check : Nat} {found : ConflictSearch}
      {trial : EquationSystem α} {doc : δ}, trial.settings = main.settings →
      main.searchFrom g strict deadline check passes found trial doc =
        main.searchAfresh g strict deadline check passes found doc
  | [], _, _, _, _, _ => rfl
  | (c, tried) :: rest, check, found, trial, doc, hsettings => by
    rw [searchFrom, searchAfresh]
    split
    · rfl
    split
    · exact searchFrom_eq_afresh hsettings
    rcases independentWithout_eq_afresh hsettings doc g c strict with ⟨e, hused, hnew⟩ | hsame
    · rw [hused, hnew]
      rfl
    · rw [hsame]
      cases htrial : main.independentWithout (.empty main.settings) doc g c strict with
      | error fault => rfl
      | ok tested =>
        obtain ⟨verdict, trial', doc'⟩ := tested
        cases verdict with
        | error e => rfl
        | ok independent =>
          have hkept := settings_independentWithout htrial
          exact searchFrom_eq_afresh (hkept.trans rfl)

/-- The search of a call finds what it would find with a new system for every trial. -/
theorem findConflicts_eq_afresh (main : EquationSystem α) (doc : δ) (g : GroupHandle)
    (strict : Bool) (deadline : Deadline) :
    main.findConflicts doc g strict deadline = main.findConflictsAfresh doc g strict deadline :=
  searchFrom_eq_afresh rfl

/-! ## Nothing is remembered -/

/-- **No state leaks from one call into another.** Whatever a system holds, a solve and a check of
any group of any document give the report or the error, the document with what is written back to
it in which order, and the status that a new system with the same settings gives; so does every
call of a list of calls, each with a document of its own, that one system serves one after the
other; and the search for conflicts, whose trials share a system, finds what it would find with a
new one for each. -/
theorem solve_history (s : EquationSystem α) :
    (∀ (doc : δ) g options watch,
      (s.solve doc g options watch).map Outcome.observation =
        ((empty s.settings).solve doc g options watch).map Outcome.observation) ∧
    (∀ (doc : δ) g findBad findFree watch,
      (s.check doc g findBad findFree watch).map Outcome.observation =
        ((empty s.settings).check doc g findBad findFree watch).map Outcome.observation) ∧
    (∀ calls : List (δ × Request),
      s.serveAll calls = calls.mapM fun call => (empty s.settings).observe call.1 call.2) ∧
    ∀ (doc : δ) g strict deadline,
      s.findConflicts doc g strict deadline = s.findConflictsAfresh doc g strict deadline :=
  ⟨fun doc g options watch => s.observe_serve doc (.solve g options watch),
    fun doc g findBad findFree watch => s.observe_serve doc (.check g findBad findFree watch),
    s.serveAll_eq_afresh, s.findConflicts_eq_afresh⟩

end

end EquationSystem

end SketchSolver
