import SketchSolver.EquationTable
import SketchSolver.Proofs.Arithmetic.Exact
import SketchSolver.Proofs.Solve.History
import SketchSolver.Proofs.Solve.TwoRuns

/-!
# The trials of a search

A search for conflicts is taken apart once, into its trials (`tries_of_findConflicts`). Each trial
is one in a new system (`Tries`), so no trial shows in a later one by the system that they share.
They share the document as well, which writes its equations for every trial. If nothing shows of
that in what a document answers, the verdicts are those of the document as it was before the search
(`removable`).

A search may be stopped at any check of the clock. What it has found by then are the constraints
that can be removed among those that come first in the order of the trials
(`findConflicts_stopped`): the constraints of the group in the order of its table, the coincidences
of points after all others (`trialOrder`). A search that has not been stopped has tried them all
(`findConflicts_spec`).
-/

namespace SketchSolver.EquationSystem

/-- All constraints twice, each time with a mark that says whether it is to be tried: those that are
no coincidences first. -/
def passes (constraints : List (ConstraintHandle × Bool)) : List (ConstraintHandle × Bool) :=
  constraints.map (fun (c, coincident) => (c, !coincident)) ++ constraints

/-- The constraints with a mark. -/
def marked (constraints : List (ConstraintHandle × Bool)) : List ConstraintHandle :=
  (constraints.filter (·.2)).map Prod.fst

/-- The order of the trials. -/
def trialOrder (constraints : List (ConstraintHandle × Bool)) : List ConstraintHandle :=
  (constraints.filter (fun e => !e.2) ++ constraints.filter (·.2)).map Prod.fst

/-- What is tried in the two passes is tried in the order of the trials. -/
theorem marked_passes (constraints : List (ConstraintHandle × Bool)) :
    marked (passes constraints) = trialOrder constraints := by
  simp [marked, passes, trialOrder, List.filter_map, Function.comp_def]

/-- Each constraint is tried once. -/
theorem perm_trialOrder (constraints : List (ConstraintHandle × Bool)) :
    (trialOrder constraints).Perm (constraints.map Prod.fst) := by
  have hparts : trialOrder constraints =
      (constraints.filter (fun e => !e.2) ++ constraints.filter fun e => !!e.2).map Prod.fst := by
    simp [trialOrder]
  rw [hparts]
  exact (List.filter_append_perm _ constraints).map _

/-- Two passes make two checks for each constraint. -/
theorem length_passes (constraints : List (ConstraintHandle × Bool)) :
    (passes constraints).length = 2 * constraints.length := by
  rw [passes, List.length_append, List.length_map, Nat.two_mul]

/-- What has been tried at any time is a beginning of the order. -/
theorem begins_trialOrder (constraints : List (ConstraintHandle × Bool)) (n : Nat) :
    marked ((passes constraints).take n) <+: trialOrder constraints := by
  rw [← marked_passes]
  exact ((List.take_prefix n _).filter _).map _

/-! ## The clock -/

/-- A clock lets a search that has a number of checks ahead, the first of them being `check`, go on
for `n` of them. -/
structure GoesOn (deadline : Deadline) (check steps n : Nat) : Prop where
  le : n ≤ steps
  free : ∀ k < n, deadline (check + k) = false
  stop : n < steps → deadline (check + n) = true

namespace GoesOn

variable {deadline : Deadline} {check steps n : Nat}

/-- A search goes on for one more check. -/
theorem succ (hcheck : deadline check = false) (h : GoesOn deadline (check + 1) steps n) :
    GoesOn deadline check (steps + 1) (n + 1) := by
  have hnext : ∀ k, check + 1 + k = check + (k + 1) := fun k => by omega
  refine ⟨Nat.succ_le_succ h.le, fun k hk => ?_, fun hlt => ?_⟩
  · cases k with
    | zero => exact hcheck
    | succ k => exact hnext k ▸ h.free k (Nat.lt_of_succ_lt_succ hk)
  · exact hnext n ▸ h.stop (Nat.lt_of_succ_lt_succ hlt)

/-- A search goes on no further than to a check that is positive. -/
theorem le_of_positive (h : GoesOn deadline check steps n) {k : Nat}
    (hk : deadline (check + k) = true) : n ≤ k := by
  by_contra hlt
  rw [h.free k (Nat.lt_of_not_le hlt)] at hk
  cases hk

/-- A search is stopped if and only if a check is positive. -/
theorem lt_iff (h : GoesOn deadline check steps n) :
    n < steps ↔ ∃ k < steps, deadline (check + k) = true := by
  constructor
  · exact fun hlt => ⟨n, hlt, h.stop hlt⟩
  · rintro ⟨k, hk, hpositive⟩
    exact Nat.lt_of_le_of_lt (h.le_of_positive hpositive) hk

/-- The first positive check stops a search. -/
theorem eq_of_first (h : GoesOn deadline check steps n) {k : Nat} (hk : k < steps)
    (hpositive : deadline (check + k) = true) (hfirst : ∀ j < k, deadline (check + j) = false) :
    n = k := by
  have hle : n ≤ k := h.le_of_positive hpositive
  refine Nat.le_antisymm hle (Nat.le_of_not_lt fun hlt => ?_)
  have hstop := h.stop (Nat.lt_trans hlt hk)
  rw [hfirst n hlt] at hstop
  cases hstop

end GoesOn

section
variable [Scalar α] [Document δ α]

/-! ## Trials -/

/-- The verdict on a constraint of a new system, loaded without it. -/
def removable (main : EquationSystem α) (doc : δ) (g : GroupHandle) (strict : Bool)
    (c : ConstraintHandle) : Bool :=
  match main.independentWithout (.empty main.settings) doc g c strict with
  | .ok (.ok independent, _) => independent
  | _ => false

/-- Constraints are tried one after the other, each in a new system, and the document goes on from
trial to trial. The last list is that of the constraints which can be removed. -/
inductive Tries (main : EquationSystem α) (g : GroupHandle) (strict : Bool) :
    δ → δ → List ConstraintHandle → List ConstraintHandle → Prop
  | nil (doc : δ) : Tries main g strict doc doc [] []
  | cons {doc d d' : δ} {trial : EquationSystem α} {independent : Bool} {c : ConstraintHandle}
      {cs bad : List ConstraintHandle}
      (htrial : main.independentWithout (.empty main.settings) doc g c strict =
        .ok (.ok independent, trial, d)) (hrest : Tries main g strict d d' cs bad) :
      Tries main g strict doc d' (c :: cs) (if independent then c :: bad else bad)

variable {main : EquationSystem α} {doc d d' : δ} {g : GroupHandle} {strict : Bool}
  {deadline : Deadline} {R : δ → δ → Prop} {cs bad : List ConstraintHandle}

/-- The constraints that can be removed are among those that are tried, in their order. -/
theorem Tries.sublist (ht : main.Tries g strict d d' cs bad) : bad.Sublist cs := by
  induction ht with
  | nil => exact .slnil
  | @cons _ _ _ _ independent c _ _ _ _ ih =>
    cases independent with
    | true => exact ih.cons_cons c
    | false => exact ih.cons c

/-- If trials have answers that depend on the constraint only, those that can be removed are the
ones for which this is the answer. -/
theorem Tries.decided {P : δ → Prop} {answer : ConstraintHandle → Bool}
    (hdec : main.Decides g P answer) (ht : main.Tries g true d d' cs bad) (hd : P d) :
    P d' ∧ bad = cs.filter answer := by
  induction ht with
  | nil => exact ⟨hd, rfl⟩
  | @cons d _ _ _ _ c _ _ htrial _ ih =>
    obtain ⟨_, _, hanswer, -, hP⟩ := hdec (.empty main.settings) d c rfl hd
    cases hanswer.symm.trans htrial
    obtain ⟨hP', hbad⟩ := ih hP
    exact ⟨hP', by rw [List.filter_cons, hbad]⟩

/-- The verdict is the same for documents that answer alike. -/
theorem removable_related (hR : Bisimulation g R) (hd : R d d') (c : ConstraintHandle) :
    main.removable d' g strict c = main.removable d g strict c := by
  obtain ⟨⟨verdict, t⟩, htrial, -⟩ :=
    main.yields_independentWithout (.empty main.settings) d g c strict
  obtain ⟨⟨verdict', t'⟩, htrial', -⟩ :=
    main.yields_independentWithout (.empty main.settings) d' g c strict
  obtain ⟨rfl, -⟩ : verdict' = verdict ∧ _ :=
    coupled_independentWithout hR hd c strict _ _ htrial htrial'
  simp only [removable, htrial, htrial']
  cases verdict' <;> rfl

/-- The constraints that can be removed are those for which the document itself has this verdict, if
it goes on to answer alike. -/
theorem Tries.bad_eq (hR : Bisimulation g R) (hkept : ∀ d, Relabelled g doc d → R doc d)
    (ht : main.Tries g strict d d' cs bad) (hd : Relabelled g doc d) :
    bad = cs.filter (main.removable doc g strict) := by
  induction ht with
  | nil => rfl
  | cons htrial _ ih =>
    rw [List.filter_cons, ← removable_related hR (hkept _ hd), removable, htrial,
      ih (relabelled_independentWithout hd htrial).1]

/-! ## The search -/

/-- A search goes on for some number of checks, and has tried until then what it was to try. -/
theorem tries_of_searchAfresh :
    ∀ {steps : List (ConstraintHandle × Bool)} {check : Nat} {found found' : ConflictSearch}
      {d d' : δ}, main.searchAfresh g strict deadline check steps found d = .ok (.ok found', d') →
      ∃ n bad, GoesOn deadline check steps.length n ∧
        main.Tries g strict d d' (marked (steps.take n)) bad ∧
        found' = {
          bad := found.bad ++ bad
          timedOut := found.timedOut || decide (n < steps.length) }
  | [], _, _, _, d, _, h => by
    cases h
    exact ⟨0, [], ⟨Nat.le_refl 0, nofun, nofun⟩, .nil d, by simp⟩
  | (c, tried) :: rest, check, _, _, d, _, h => by
    rw [searchAfresh] at h
    cases hcheck : deadline check with
    | true =>
      rw [hcheck, if_pos rfl] at h
      cases h
      exact ⟨0, [], ⟨Nat.zero_le _, nofun, fun _ => hcheck⟩, .nil d, by simp⟩
    | false =>
    rw [hcheck, if_neg Bool.false_ne_true] at h
    cases tried with
    | false =>
      obtain ⟨n, bad, hgo, htries, rfl⟩ := tries_of_searchAfresh h
      exact ⟨n + 1, bad, hgo.succ hcheck, htries, by simp⟩
    | true =>
      obtain ⟨⟨verdict, trial, d₁⟩, htrial, h⟩ := bind_eq_ok.1 h
      cases verdict with
      | error _ => cases h
      | ok independent =>
        obtain ⟨n, bad, hgo, htries, rfl⟩ := tries_of_searchAfresh h
        refine ⟨n + 1, _, hgo.succ hcheck, .cons htrial htries, ?_⟩
        cases independent <;> simp

/-- A search that comes to a result has tried what it was to try at the checks that let it go on. -/
theorem tries_of_findConflicts {found : ConflictSearch}
    (h : main.findConflicts doc g strict deadline = .ok (.ok found, d')) :
    ∃ n, GoesOn deadline 0 (2 * (Document.constraints doc g).length) n ∧
      main.Tries g strict doc d' (marked ((passes (Document.constraints doc g)).take n)) found.bad ∧
      (found.timedOut = true ↔ n < 2 * (Document.constraints doc g).length) ∧
      (found.timedOut = false → marked ((passes (Document.constraints doc g)).take n) =
        trialOrder (Document.constraints doc g)) := by
  rw [findConflicts_eq_afresh] at h
  have hrun : main.searchAfresh g strict deadline 0 (passes (Document.constraints doc g)) {} doc =
      .ok (.ok found, d') := h
  obtain ⟨n, bad, hgo, htries, rfl⟩ := tries_of_searchAfresh hrun
  rw [length_passes] at hgo
  refine ⟨n, hgo, htries, ?_, fun htime => ?_⟩
  · simp [length_passes]
  · have hall : ¬ n < 2 * (Document.constraints doc g).length := by
      simpa [length_passes] using htime
    rw [Nat.le_antisymm hgo.le (Nat.le_of_not_lt hall), ← length_passes, List.take_length,
      marked_passes]

/-- A search of a group that always has a policy comes to a result. -/
theorem exists_findConflicts_eq_ok
    (hpolicy : ∀ d, Relabelled g doc d → ∃ policy, Document.policy d g = .ok policy)
    (main : EquationSystem α) (strict : Bool) (deadline : Deadline) :
    ∃ found d', main.findConflicts doc g strict deadline = .ok (.ok found, d') := by
  obtain ⟨⟨search, d'⟩, hfind, -⟩ := main.yields_findConflicts doc g strict deadline
  cases search with
  | ok found => exact ⟨found, d', hfind⟩
  | error e =>
    obtain ⟨hd', hrefused⟩ := relabelled_findConflicts .refl hfind
    obtain ⟨policy, hgranted⟩ := hpolicy d' hd'
    cases hgranted.symm.trans (hrefused e rfl)

/-- A search for conflicts that has not been stopped has found the constraints of the group whose
trial is for them. -/
theorem findConflicts_spec {P : δ → Prop} {answer : ConstraintHandle → Bool}
    {found : ConflictSearch} (hdec : main.Decides g P answer) (hP : P doc)
    (h : main.findConflicts doc g true deadline = .ok (.ok found, d')) :
    P d' ∧ (found.timedOut = false → ∀ c, c ∈ found.bad ↔
      c ∈ (Document.constraints doc g).map Prod.fst ∧ answer c = true) := by
  obtain ⟨n, -, htries, -, hall⟩ := tries_of_findConflicts h
  obtain ⟨hP', hbad⟩ := htries.decided hdec hP
  refine ⟨hP', fun htime c => ?_⟩
  rw [hbad, hall htime, List.mem_filter, (perm_trialOrder _).mem_iff]

/-- **A search finds a beginning.** Whatever a clock answers, a search of a group that always has a
policy has a result. It has tried the constraints that come first in the order of the trials, and
found those of them that can be removed. It tells that it has been stopped if a check of the clock
has been positive; then it has tried those that come before the first such check, and otherwise all.
If nothing shows of the equations that the document has written for the trials, each verdict is the
one that the document as it was gives to a new system. -/
theorem findConflicts_stopped (main : EquationSystem α) (strict : Bool) (deadline : Deadline)
    (hpolicy : ∀ d, Relabelled g doc d → ∃ policy, Document.policy d g = .ok policy) :
    ∃ tried found doc', main.findConflicts doc g strict deadline = .ok (.ok found, doc') ∧
      tried <+: trialOrder (Document.constraints doc g) ∧
      main.Tries g strict doc doc' tried found.bad ∧
      (found.timedOut = true ↔
        ∃ k < 2 * (Document.constraints doc g).length, deadline k = true) ∧
      (found.timedOut = false → tried = trialOrder (Document.constraints doc g)) ∧
      (∀ k < 2 * (Document.constraints doc g).length, deadline k = true →
        (∀ j < k, deadline j = false) →
          tried = marked ((passes (Document.constraints doc g)).take k)) ∧
      ∀ R, Bisimulation g R → (∀ d, Relabelled g doc d → R doc d) →
        found.bad = tried.filter (main.removable doc g strict) := by
  obtain ⟨found, doc', hfind⟩ := exists_findConflicts_eq_ok hpolicy main strict deadline
  obtain ⟨n, hgo, htries, htime, hall⟩ := tries_of_findConflicts hfind
  refine ⟨_, found, doc', hfind, begins_trialOrder _ n, htries, ?_, hall,
    fun k hk hpositive hfirst => ?_, fun R hR hkept => htries.bad_eq hR hkept .refl⟩
  · rw [htime, hgo.lt_iff]
    simp only [Nat.zero_add]
  · have hcut : n = k :=
      hgo.eq_of_first hk (by rwa [Nat.zero_add]) (by simpa only [Nat.zero_add] using hfirst)
    rw [hcut]

omit [Scalar α] in
/-- A document answers as it does itself. -/
theorem bisimulation_eq (g : GroupHandle) : Bisimulation g (Eq : δ → δ → Prop) where
  policy := by
    rintro d _ rfl
    rfl
  equations := by
    rintro d _ rfl _ _
    rfl
  written := by
    rintro d _ rfl _ _
    rfl
  constraints := by
    rintro d _ rfl
    rfl
  hasConstraint := by
    rintro d _ rfl _
    rfl
  params := by
    rintro d _ rfl
    rfl
  paramValue? := by
    rintro d _ rfl _
    rfl
  dragged := by
    rintro d _ rfl
    rfl
  writeBack := by
    rintro d _ rfl _ _ _
    rfl
  recordStatus := by
    rintro d _ rfl _
    rfl

end

/-- The first two constraints say the same, and the first one is a coincidence. -/
def saidTwice : EquationTable (Exact ℚ) where
  params := [1, 2].map fun n => { handle := ⟨n⟩, value := .number 0 }
  constraints :=
    [{ handle := ⟨1⟩, coincident := true, equations := [.param ⟨1⟩ - .param ⟨2⟩] },
      { handle := ⟨2⟩, coincident := false, equations := [.param ⟨1⟩ - .param ⟨2⟩] },
      { handle := ⟨3⟩, coincident := false, equations := [.param ⟨1⟩ - .const (.number 5)] }]

/-- The rank of a matrix is taken to be the number of its different rows. -/
def countingRows : EquationSystem (Exact ℚ) :=
  .empty { Settings.rational with rankOf := fun A => A.toRows.dedup.length }

/-- After three checks the second constraint has been found, and the coincidence has not been
tried. -/
theorem findConflicts_saidTwice :
    (∀ d, Relabelled EquationTable.group saidTwice d →
      ∃ policy, Document.policy d EquationTable.group = .ok policy) ∧
    ∃ found, countingRows.findConflicts saidTwice EquationTable.group true (3 ≤ ·) =
        .ok (.ok found, saidTwice) ∧
      found = { bad := [⟨2⟩], timedOut := true } ∧
      found.bad = [⟨2⟩, ⟨3⟩].filter
        (countingRows.removable saidTwice EquationTable.group true) ∧
      countingRows.removable saidTwice EquationTable.group true ⟨1⟩ = true := by
  have hpolicy : ∀ d, Relabelled EquationTable.group saidTwice d →
      ∃ policy, Document.policy d EquationTable.group = .ok policy := by
    intro d hd
    rw [hd.eq_table]
    exact ⟨_, rfl⟩
  have hresult : (countingRows.findConflicts saidTwice EquationTable.group true
      (3 ≤ ·)).toOption.map (fun r => r.1.toOption) =
        some (some { bad := [⟨2⟩], timedOut := true }) := by
    decide +kernel
  obtain ⟨tried, found, d, hfind, -, -, -, -, hcut, hverdicts⟩ :=
    findConflicts_stopped countingRows true (3 ≤ ·) hpolicy
  obtain rfl : d = saidTwice := (relabelled_findConflicts .refl hfind).1.eq_table
  rw [hfind] at hresult
  simp only [Except.toOption, Option.map_some, Option.some.injEq] at hresult
  have htried : tried = [⟨2⟩, ⟨3⟩] := hcut 3 (by decide) (by decide) (by decide)
  have hbad := hverdicts Eq (bisimulation_eq _) fun _ hd => hd.eq_table.symm
  rw [htried] at hbad
  exact ⟨hpolicy, found, hfind, hresult, hbad, by decide +kernel⟩

end SketchSolver.EquationSystem
