import SketchSolver.Proofs.Sketch.SolveConflicts
import SketchSolver.Proofs.Solve.Exits

/-!
# What a call changes in a sketch

A solve of a group is all or nothing on the parameters: it overwrites each parameter of the group
once and no other (`Overwritten`), or it leaves all of them as they are. Either way it touches
nothing else but the labels of reference dimensions of the group and the status of the group
(`Untouched`). A check keeps to the same, and gives no parameter another value
(`solveGroup_checkGroup_frame`).

Parameters are told apart by their handles. These are different in every sketch that has been built,
edited, solved and checked, as long as there are handles to give out (`Built.handlesGivenOut`).
-/

namespace SketchSolver

/-- The parameter with what is written back for it. -/
def SketchParam.overwrite (p : SketchParam α) (w : Write α) : SketchParam α :=
  { p with value := w.value, known := true, free := w.free }

/-- The parameter after the writes to a group: one write is for it if the group owns it, and it is
as it was if not. -/
def SketchParam.Overwritten (g : GroupHandle) (writes : List (Write α)) (p p' : SketchParam α) :
    Prop :=
  if p.group = g then
    ∃ w, writes.filter (·.handle == p.handle) = [w] ∧ p' = p.overwrite w
  else p' = p

/-- The group as it was, but for its status if it is the one of the handle. -/
def Group.Untouched (g : GroupHandle) (group group' : Group) : Prop :=
  group' = group ∨ group.handle = g ∧ ∃ status, group' = { group with status }

namespace Sketch

open EquationSystem (applyWrites)

/-- What a call on a group of the given policy leaves as it is: all but values and marks of
parameters, labels of reference dimensions of the group, and the status of the group. -/
structure Untouched (g : GroupHandle) (policy : Policy) (s s' : Sketch α) : Prop where
  settings : s'.settings = s.settings
  params : s'.params.map (fun p => (p.handle, p.group)) = s.params.map fun p => (p.handle, p.group)
  entities : s'.entities = s.entities
  constraints : List.Forall₂ (Constraint.LooksSame g policy) s.constraints s'.constraints
  groups : List.Forall₂ (Group.Untouched g) s.groups s'.groups
  dragged : s'.dragged = s.dragged
  nextParam : s'.nextParam = s.nextParam
  nextEntity : s'.nextEntity = s.nextEntity
  nextConstraint : s'.nextConstraint = s.nextConstraint

/-- How a call on a group answers, given what it writes back, and the sketch that it leaves. It
finds no such group and leaves the sketch as it is, or it comes to a report and records it. If the
report is okay, each parameter of the group has been overwritten once and no other has, and if it is
not, nothing has been written back. -/
def Answered (g : GroupHandle) (s : Sketch α) (writes : List (Write α)) :
    Except SolverError Report → Sketch α → Prop
  | .error e, s' => s.group? g = none ∧ e = .unknownGroup g ∧ writes = [] ∧ s' = s
  | .ok report, s' => ∃ group, s.group? g = some group ∧
      s'.group? g = some { group with status := report.status } ∧
      Untouched g group.policy s s' ∧
      if report.result.isOkay then
        writes.map (·.handle) = (s.params.filter (·.group == g)).map (·.handle) ∧
          List.Forall₂ (SketchParam.Overwritten g writes) s.params s'.params
      else writes = [] ∧ s'.params = s.params

section
variable [Scalar α] {g : GroupHandle} {policy : Policy} {group : Group} {s s' d : Sketch α}
  {writes : List (Write α)}

/-! ## Equations are written -/

/-- Writing equations measures reference dimensions of the group, if there is the group. -/
theorem constraints_of_relabelled (hgroup : s.group? g = some group) (h : Relabelled g s d) :
    ∃ constraints, d = { s with constraints } ∧
      List.Forall₂ (Constraint.LooksSame g group.policy) s.constraints constraints := by
  induction h with
  | refl => exact ⟨s.constraints, rfl, List.forall₂_same.2 fun c _ => .refl g group.policy c⟩
  | write except out _ ih =>
    obtain ⟨constraints, rfl, hlooks⟩ := ih
    have hmeasured : LooksSame g group.policy { s with constraints }
        (measureReferences { s with constraints } g group.policy except) :=
      looksSame_measureReferences _ except
    refine ⟨(measureReferences { s with constraints } g group.policy except).constraints, ?_,
      forall₂_trans (fun _ _ _ hxy hyz => hxy.trans hyz) hlooks hmeasured.constraints⟩
    change (writeEquations { s with constraints } g except out).2 = _
    have hgroup' : ({ s with constraints } : Sketch α).group? g = some group := hgroup
    unfold writeEquations
    rw [hgroup']
    rfl

/-- A group that is missing writes nothing. -/
theorem eq_of_relabelled (hgroup : s.group? g = none) (h : Relabelled g s d) : d = s := by
  induction h with
  | refl => rfl
  | write except out _ ih =>
    subst ih
    change (writeEquations _ g except out).2 = _
    unfold writeEquations
    rw [hgroup]

/-! ## Values are written back -/

/-- The parameters after writes to different ones: each is overwritten by what is for it. -/
theorem applyWrites_eq : ∀ {writes : List (Write α)} {s : Sketch α},
    (s.params.map (·.handle)).Nodup → (writes.map (·.handle)).Nodup →
      applyWrites s writes =
        { s with
          params := s.params.map fun p =>
            ((writes.find? (·.handle == p.handle)).map p.overwrite).getD p }
  | [], s, _, _ => by
    have hsame : s.params.map (fun p => (((([] : List (Write α)).find? (·.handle == p.handle))).map
        p.overwrite).getD p) = s.params := List.map_id' _
    rw [hsame]
    rfl
  | w :: rest, s, hs, hw => by
    rw [List.map_cons, List.nodup_cons] at hw
    have hone : Document.writeBack s w.handle w.value w.free =
        { s with
          params := s.params.map fun p => if p.handle = w.handle then p.overwrite w else p } :=
      congrArg (fun params => { s with params }) (updateFirst_eq_map hs)
    have hhandle : ∀ p : SketchParam α,
        (if p.handle = w.handle then p.overwrite w else p).handle = p.handle := by
      intro p
      split <;> rfl
    have hs' : ((s.params.map fun p =>
        if p.handle = w.handle then p.overwrite w else p).map (·.handle)).Nodup := by
      rw [List.map_map]
      exact (congrArg List.Nodup (List.map_congr_left fun p _ => hhandle p)).mpr hs
    change applyWrites (Document.writeBack s w.handle w.value w.free) rest = _
    rw [hone, applyWrites_eq hs' hw.2]
    simp only [List.map_map]
    refine congrArg (fun params => { s with params }) (List.map_congr_left fun p _ => ?_)
    rw [Function.comp_apply, hhandle, List.find?_cons]
    by_cases hp : p.handle = w.handle
    · -- No other write is for this parameter.
      have hnone : rest.find? (·.handle == p.handle) = none := by
        rw [List.find?_eq_none]
        intro v hv hvp
        refine hw.1 (List.mem_map.2 ⟨v, hv, ?_⟩)
        rw [← hp]
        exact beq_iff_eq.1 hvp
      rw [hnone, if_pos hp, beq_iff_eq.2 hp.symm]
      rfl
    · rw [if_neg hp, beq_eq_false_iff_ne.2 (Ne.symm hp)]

/-- Writes to all parameters of a group overwrite each of them once, and no other. -/
theorem overwritten_applyWrites (hs : (s.params.map (·.handle)).Nodup)
    (hwrites : writes.map (·.handle) = (s.params.filter (·.group == g)).map (·.handle)) :
    ∃ params, applyWrites s writes = { s with params } ∧
      List.Forall₂ (SketchParam.Overwritten g writes) s.params params := by
  have hdistinct : (writes.map (·.handle)).Nodup := by
    rw [hwrites]
    exact hs.sublist (List.filter_sublist.map _)
  refine ⟨_, applyWrites_eq hs hdistinct, ?_⟩
  rw [List.forall₂_map_right_iff, List.forall₂_same]
  intro p hp
  have hmem : p.handle ∈ writes.map (·.handle) ↔ p.group = g := by
    rw [hwrites, List.mem_map]
    constructor
    · rintro ⟨p', hp', hpp'⟩
      obtain ⟨hmem, hgroup⟩ := List.mem_filter.1 hp'
      rw [← List.inj_on_of_nodup_map hs hmem hp hpp']
      exact beq_iff_eq.1 hgroup
    · intro hgroup
      exact ⟨p, List.mem_filter.2 ⟨hp, beq_iff_eq.2 hgroup⟩, rfl⟩
  unfold SketchParam.Overwritten
  split
  · next hgroup =>
    obtain ⟨w, hw, hwp⟩ := List.mem_map.1 (hmem.2 hgroup)
    have hfilter : writes.filter (·.handle == p.handle) = [w] := by
      have hlength : (writes.filter (·.handle == p.handle)).length = 1 := by
        rw [← List.countP_eq_length_filter, ← hwp]
        have hcount := List.count_eq_one_of_mem hdistinct (List.mem_map_of_mem (f := (·.handle)) hw)
        rwa [List.count, List.countP_map] at hcount
      obtain ⟨v, hv⟩ := List.length_eq_one_iff.1 hlength
      have hwv : w ∈ writes.filter (·.handle == p.handle) :=
        List.mem_filter.2 ⟨hw, beq_iff_eq.2 hwp⟩
      rw [hv, List.mem_singleton] at hwv
      rw [hv, hwv]
    refine ⟨w, hfilter, ?_⟩
    rw [← List.head?_filter, hfilter]
    rfl
  · next hgroup =>
    have hnone : writes.find? (·.handle == p.handle) = none := by
      rw [List.find?_eq_none]
      intro w hw hwp
      exact hgroup (hmem.1 (List.mem_map.2 ⟨w, hw, beq_iff_eq.1 hwp⟩))
    rw [hnone]
    rfl

/-! ## The status is recorded -/

/-- What has been relabelled and overwritten, with a status for the group, is otherwise
untouched. -/
theorem untouched_conclude {constraints : List (Constraint α)} {params : List (SketchParam α)}
    (status : Status)
    (hparams : params.map (fun p => (p.handle, p.group)) =
      s.params.map fun p => (p.handle, p.group))
    (hlooks : List.Forall₂ (Constraint.LooksSame g policy) s.constraints constraints) :
    Untouched g policy s (Document.recordStatus { s with params, constraints } g status) where
  settings := rfl
  params := hparams
  entities := rfl
  constraints := hlooks
  groups := (forall₂_updateFirst s.groups).imp fun _ _ hchange =>
    hchange.imp id fun ⟨hg, heq⟩ => ⟨beq_iff_eq.1 hg, status, heq⟩
  dragged := rfl
  nextParam := rfl
  nextEntity := rfl
  nextConstraint := rfl

/-- The group has the status that has been recorded, and everything else that it had. -/
theorem group?_recordStatus (hgroup : s.group? g = some group) (status : Status) :
    (Document.recordStatus s g status).group? g = some { group with status } := by
  have hfind := find?_updateFirst_self (p := (·.handle == g))
    (f := fun group : Group => { group with status }) (fun _ h => h) s.groups
  change (updateFirst _ _ s.groups).find? _ = _
  rw [hfind]
  exact congrArg (Option.map _) hgroup

/-- Reference dimensions can be measured once more. -/
theorem Untouched.remeasure (h : Untouched g group.policy s s') {status : Status}
    (hgroup : s'.group? g = some { group with status }) :
    Untouched g group.policy s (s'.remeasure g) := by
  have hmeasured : s'.remeasure g = s'.measureReferences g group.policy none := by
    unfold Sketch.remeasure
    rw [hgroup]
  have hlooks : LooksSame g group.policy s' (s'.measureReferences g group.policy none) :=
    looksSame_measureReferences s' none
  rw [hmeasured]
  exact { h with
    constraints := forall₂_trans (fun _ _ _ hxy hyz => hxy.trans hyz) h.constraints
      hlooks.constraints }

omit [Scalar α] in
/-- Overwriting gives no parameter another handle or group. -/
theorem map_of_overwritten {params : List (SketchParam α)}
    (h : List.Forall₂ (SketchParam.Overwritten g writes) s.params params) :
    params.map (fun p => (p.handle, p.group)) = s.params.map fun p => (p.handle, p.group) := by
  refine map_eq_of_forall₂ (fun p p' hp => ?_) h
  unfold SketchParam.Overwritten at hp
  split at hp
  · obtain ⟨w, _, rfl⟩ := hp
    rfl
  · rw [hp]

/-! ## Calls -/

/-- A call leaves the sketch as its exit says, if the parameters have different handles. -/
theorem answered_of_ends {out : Outcome (Sketch α) α} (hs : (s.params.map (·.handle)).Nodup)
    (h : EquationSystem.Ends g s (EquationSystem.WritesAll s g) out) :
    Answered g s out.writes out.result out.document := by
  -- What there is of the group decides whether there is a policy.
  have hgroup : ∀ {policy}, Document.policy s g = .ok policy →
      ∃ group, s.group? g = some group ∧ group.policy = policy := fun hpolicy =>
    Option.map_eq_some_iff.1 (policy_eq_ok_iff.1 hpolicy)
  cases h with
  | @refused _ d e hdoc hrefused =>
    cases hnone : s.group? g with
    | none =>
      obtain rfl := eq_of_relabelled hnone hdoc
      simp only [Document.policy, hnone, Except.error.injEq] at hrefused
      exact ⟨hnone, hrefused.symm, rfl, rfl⟩
    | some group =>
      obtain ⟨constraints, rfl, _⟩ := constraints_of_relabelled hnone hdoc
      have hsome : ({ s with constraints } : Sketch α).group? g = some group := hnone
      simp [Document.policy, hsome] at hrefused
  | failed hpolicy hdoc hfailed =>
    obtain ⟨group, hsome, _⟩ := hgroup hpolicy
    obtain ⟨constraints, rfl, hlooks⟩ := constraints_of_relabelled hsome hdoc
    refine ⟨group, hsome, group?_recordStatus hsome _, untouched_conclude _ rfl hlooks, ?_⟩
    rw [if_neg (by simp [hfailed])]
    exact ⟨rfl, rfl⟩
  | @succeeded t _ _ report writes hpolicy hdoc hok hwrites =>
    obtain ⟨group, hsome, _⟩ := hgroup hpolicy
    obtain ⟨constraints, rfl, hlooks⟩ := constraints_of_relabelled hsome hdoc
    have hhandles : writes.map (·.handle) = (s.params.filter (·.group == g)).map (·.handle) := by
      refine hwrites.trans ?_
      change (List.map _ (s.params.filter _)).map _ = _
      rw [List.map_map]
      rfl
    obtain ⟨params, hparams, hoverwritten⟩ :=
      overwritten_applyWrites (s := { s with constraints }) hs hhandles
    have hdocument : (t.conclude { s with constraints } g report writes).document =
        Document.recordStatus { s with constraints, params } g report.status :=
      congrArg (Document.recordStatus · g report.status) hparams
    rw [hdocument]
    refine ⟨group, hsome, group?_recordStatus hsome _,
      untouched_conclude _ (map_of_overwritten hoverwritten) hlooks, ?_⟩
    rw [if_pos hok]
    exact ⟨hhandles, hoverwritten⟩

/-- A call on a group that has a policy comes to a report. -/
theorem exists_report_of_ends {W : List (Write α) → Prop} {out : Outcome (Sketch α) α}
    (hs : Document.policy s g = .ok policy) (h : EquationSystem.Ends g s W out) :
    ∃ report, out.result = .ok report := by
  cases h with
  | refused hdoc hrefused =>
    obtain ⟨group, hgroup, _⟩ := Option.map_eq_some_iff.1 (policy_eq_ok_iff.1 hs)
    obtain ⟨_, rfl, _⟩ := constraints_of_relabelled hgroup hdoc
    cases hs.symm.trans hrefused
  | failed _ _ _ | succeeded _ _ _ _ => exact ⟨_, rfl⟩

/-- Once more the reference dimensions are measured. -/
theorem Answered.remeasure {report : Report} (h : Answered g s writes (.ok report) s') :
    Answered g s writes (.ok report) (s'.remeasure g) := by
  obtain ⟨group, hsome, hstatus, huntouched, hparams⟩ := h
  have hgroups : (s'.remeasure g).group? g = s'.group? g := by
    unfold Sketch.remeasure
    split <;> rfl
  refine ⟨group, hsome, hgroups.trans hstatus, huntouched.remeasure hstatus, ?_⟩
  rw [params_remeasure]
  exact hparams

/-- A call that writes to parameters the values that they have gives none another value. -/
theorem Answered.values {answer : Except SolverError Report}
    (hs : (s.params.map (·.handle)).Nodup) (h : Answered g s writes answer s')
    (hwrites : ∀ w ∈ writes, (w.handle, w.value) ∈ Document.params s g) :
    s'.params.map (·.value) = s.params.map (·.value) := by
  have hover : ∀ p ∈ s.params, ∀ p', SketchParam.Overwritten g writes p p' →
      p'.value = p.value := by
    intro p hp p' hover
    unfold SketchParam.Overwritten at hover
    split at hover
    · obtain ⟨w, hw, rfl⟩ := hover
      have hmem : w ∈ writes.filter (·.handle == p.handle) := by
        rw [hw]
        exact List.mem_singleton_self w
      obtain ⟨hmem, hhandle⟩ := List.mem_filter.1 hmem
      obtain ⟨k, hk, heq⟩ := List.mem_map.1 (hwrites w hmem)
      obtain ⟨hkh, hkv⟩ := Prod.mk.inj heq
      obtain rfl := List.inj_on_of_nodup_map hs (List.mem_filter.1 hk).1 hp
        (hkh.trans (beq_iff_eq.1 hhandle))
      exact hkv.symm
    · rw [hover]
  cases answer with
  | error e =>
    obtain ⟨_, _, _, rfl⟩ := h
    rfl
  | ok report =>
    obtain ⟨group, _, _, _, hparams⟩ := h
    split at hparams
    · refine List.ext_getElem? fun i => ?_
      rw [List.getElem?_map, List.getElem?_map]
      cases hp : s.params[i]? with
      | none =>
        rw [List.getElem?_eq_none_iff, hparams.2.length_eq, ← List.getElem?_eq_none_iff] at hp
        rw [hp]
      | some p =>
        obtain ⟨p', hp', hchange⟩ := forall₂_getElem? hparams.2 hp
        rw [hp', Option.map_some, Option.map_some, hover p (List.mem_of_getElem? hp) p' hchange]
    · rw [hparams.2]

/-- A solve answers as its outcome says, and leaves the sketch so. -/
theorem exists_solveGroup (hs : (s.params.map (·.handle)).Nodup) (g : GroupHandle)
    (options : SolveOptions) (watch : Stopwatch) :
    ∃ out s', (EquationSystem.empty s.settings).solve s g options watch = .ok out ∧
      s.solveGroup g options watch = .ok (out.result, s') ∧
      Answered g s out.writes out.result s' := by
  obtain ⟨out, hsolve, _⟩ := (EquationSystem.empty s.settings).yields_solve s g options watch
  have hanswered := answered_of_ends hs (EquationSystem.ends_solve hsolve)
  unfold solveGroup
  rw [hsolve]
  cases hresult : out.result with
  | error e =>
    refine ⟨out, out.document, rfl, ?_, hanswered⟩
    simp only [bind, Except.bind, hresult]
    rfl
  | ok report =>
    rw [hresult] at hanswered
    simp only [bind, Except.bind, hresult]
    split
    · exact ⟨out, _, rfl, by rw [hresult]; rfl, hresult ▸ hanswered.remeasure⟩
    · exact ⟨out, _, rfl, by rw [hresult]; rfl, hresult ▸ hanswered⟩

/-- A check answers as its outcome says, and gives no parameter another value. -/
theorem exists_checkGroup (hs : (s.params.map (·.handle)).Nodup) (g : GroupHandle)
    (findFree : Bool) (watch : Stopwatch) :
    ∃ out s', (EquationSystem.empty s.settings).check s g true findFree watch = .ok out ∧
      s.checkGroup g findFree watch = .ok (out.result, s') ∧
      Answered g s out.writes out.result s' ∧
      s'.params.map (·.value) = s.params.map (·.value) := by
  obtain ⟨out, hcheck, _⟩ :=
    (EquationSystem.empty s.settings).yields_check s g true findFree watch
  have hends := EquationSystem.ends_check hcheck
  have hanswered := answered_of_ends hs (hends.mono fun _ => EquationSystem.WritesSame.writesAll)
  refine ⟨out, out.document, hcheck, ?_, hanswered, hanswered.values hs ?_⟩
  · unfold checkGroup
    rw [hcheck]
    rfl
  · refine hends.forall_writes fun writes hwrites w hw => ?_
    rw [← hwrites]
    exact List.mem_map_of_mem (f := fun w : Write α => (w.handle, w.value)) hw

/-! ## Sketches that are built -/

/-- The sketches that come about by building, editing, solving and checking, as long as there are
handles of parameters to give out. Points and circles are parameters and an entity. -/
inductive Built : Sketch α → Prop
  | empty (settings : Settings α) : Built (.empty settings)
  | addGroup {s : Sketch α} (h : Built s) (name : String) : Built (s.addGroup name).2
  | addParam {s : Sketch α} (h : Built s) (g : GroupHandle) (value : α)
      (hleft : s.nextParam.number.toNat + 1 < UInt32.size) : Built (s.addParam g value).2
  | addEntity {s : Sketch α} (h : Built s) (g : GroupHandle) (kind : EntityKind) :
      Built (s.addEntity g kind).2
  | addConstraint {s : Sketch α} (h : Built s) (g : GroupHandle) (kind : ConstraintKind α) :
      Built (s.addConstraint g kind).2
  | setReference {s : Sketch α} (h : Built s) (c : ConstraintHandle) (reference : Bool) :
      Built (s.setReference c reference)
  | setLabel {s : Sketch α} (h : Built s) (c : ConstraintHandle) (value : α) :
      Built (s.setLabel c value)
  | removeConstraint {s : Sketch α} (h : Built s) (c : ConstraintHandle) :
      Built (s.removeConstraint c)
  | dragPoint {s : Sketch α} (h : Built s) (e : EntityHandle) : Built (s.dragPoint e)
  | stopDragging {s : Sketch α} (h : Built s) : Built s.stopDragging
  | setParam {s : Sketch α} (h : Built s) (x : ParamHandle) (value : α) :
      Built (s.setParam x value)
  | setPolicy {s : Sketch α} (h : Built s) (g : GroupHandle) (policy : Policy) :
      Built (s.setPolicy g policy)
  | solveGroup {s s' : Sketch α} {answer : Except SolverError Report} (h : Built s)
      (g : GroupHandle) (options : SolveOptions) (watch : Stopwatch)
      (hrun : s.solveGroup g options watch = .ok (answer, s')) : Built s'
  | checkGroup {s s' : Sketch α} {answer : Except SolverError Report} (h : Built s)
      (g : GroupHandle) (findFree : Bool) (watch : Stopwatch)
      (hrun : s.checkGroup g findFree watch = .ok (answer, s')) : Built s'

/-- The parameters have different handles, all of which have been given out. -/
structure HandlesGivenOut (s : Sketch α) : Prop where
  nodup : (s.params.map (·.handle)).Nodup
  lt : ∀ h ∈ s.params.map (·.handle), h.number.toNat < s.nextParam.number.toNat

omit [Scalar α] in
/-- Whether all handles have been given out is a matter of the handles and of the next one. -/
theorem HandlesGivenOut.congr (h : HandlesGivenOut s)
    (hhandles : s'.params.map (·.handle) = s.params.map (·.handle))
    (hnext : s'.nextParam = s.nextParam) : HandlesGivenOut s' where
  nodup := by rw [hhandles]; exact h.nodup
  lt := by rw [hhandles, hnext]; exact h.lt

omit [Scalar α] in
/-- A call gives no parameter another handle. -/
theorem Untouched.handles_eq (h : Untouched g policy s s') :
    s'.params.map (·.handle) = s.params.map (·.handle) := by
  have hfst := congrArg (List.map Prod.fst) h.params
  rwa [List.map_map, List.map_map] at hfst

omit [Scalar α] in
/-- A call gives out no handle. -/
theorem Answered.handlesGivenOut {answer : Except SolverError Report} (h : HandlesGivenOut s)
    (hanswered : Answered g s writes answer s') : HandlesGivenOut s' := by
  cases answer with
  | error e =>
    obtain ⟨_, _, _, rfl⟩ := hanswered
    exact h
  | ok report =>
    obtain ⟨group, _, _, huntouched, _⟩ := hanswered
    exact h.congr huntouched.handles_eq huntouched.nextParam

omit [Scalar α] in
/-- A handle that is given out is a new one. -/
theorem HandlesGivenOut.addParam (h : HandlesGivenOut s) (g : GroupHandle) (value : α)
    (hleft : s.nextParam.number.toNat + 1 < UInt32.size) :
    HandlesGivenOut (s.addParam g value).2 := by
  have hparams : (s.addParam g value).2.params.map (·.handle) =
      s.params.map (·.handle) ++ [s.nextParam] := by
    simp [Sketch.addParam]
  have hnext : (s.addParam g value).2.nextParam.number.toNat =
      s.nextParam.number.toNat + 1 := by
    have hadd : (s.nextParam.number + 1).toNat = (s.nextParam.number.toNat + 1) % 2 ^ 32 :=
      UInt32.toNat_add ..
    exact hadd.trans (Nat.mod_eq_of_lt hleft)
  constructor
  · rw [hparams, List.nodup_append]
    refine ⟨h.nodup, List.nodup_singleton _, ?_⟩
    rintro x hx y hy rfl
    rw [List.mem_singleton] at hy
    subst hy
    exact absurd (h.lt _ hx) (Nat.lt_irrefl _)
  · rw [hparams, hnext]
    intro x hx
    rcases List.mem_append.1 hx with hx | hx
    · exact Nat.lt_succ_of_lt (h.lt x hx)
    · rw [List.mem_singleton.1 hx]
      exact Nat.lt_succ_self _

/-- The parameters of a sketch that has been built have different handles. -/
theorem Built.handlesGivenOut (h : Built s) : HandlesGivenOut s := by
  induction h with
  | empty settings => exact ⟨List.nodup_nil, nofun⟩
  | addParam _ g value hleft ih => exact ih.addParam g value hleft
  | addGroup _ _ ih | addEntity _ _ _ ih | addConstraint _ _ _ ih | setReference _ _ _ ih
  | setLabel _ _ _ ih | removeConstraint _ _ ih | stopDragging _ ih | setPolicy _ _ _ ih =>
    exact ih.congr rfl rfl
  | dragPoint _ e ih =>
    unfold Sketch.dragPoint
    split
    · exact ih.congr rfl rfl
    · exact ih
  | setParam _ x value ih =>
    exact ih.congr (map_updateFirst (f := fun p : SketchParam α => { p with value })
      (fun _ => rfl) _) rfl
  | solveGroup _ g options watch hrun ih =>
    obtain ⟨_, _, _, hrun', hanswered⟩ := exists_solveGroup ih.nodup g options watch
    obtain ⟨_, rfl⟩ := Prod.mk.inj (Except.ok.inj (hrun'.symm.trans hrun))
    exact hanswered.handlesGivenOut ih
  | checkGroup _ g findFree watch hrun ih =>
    obtain ⟨_, _, _, hrun', hanswered, _⟩ := exists_checkGroup ih.nodup g findFree watch
    obtain ⟨_, rfl⟩ := Prod.mk.inj (Except.ok.inj (hrun'.symm.trans hrun))
    exact hanswered.handlesGivenOut ih

/-! ## Both -/

/-- A call on a group of a sketch that has been built is all or nothing on the parameters, and
touches nothing else but labels of reference dimensions and the status of the group. A solve writes
each parameter of the group once, if it succeeds, and a check writes to each the value that it
has. -/
theorem solveGroup_checkGroup_frame (hs : Built s) (g : GroupHandle) (options : SolveOptions)
    (findFree : Bool) (watch : Stopwatch) :
    (∃ out s', (EquationSystem.empty s.settings).solve s g options watch = .ok out ∧
      s.solveGroup g options watch = .ok (out.result, s') ∧
      Answered g s out.writes out.result s') ∧
    ∃ out s', (EquationSystem.empty s.settings).check s g true findFree watch = .ok out ∧
      s.checkGroup g findFree watch = .ok (out.result, s') ∧
      Answered g s out.writes out.result s' ∧
      s'.params.map (·.value) = s.params.map (·.value) :=
  ⟨exists_solveGroup hs.handlesGivenOut.nodup g options watch,
    exists_checkGroup hs.handlesGivenOut.nodup g findFree watch⟩

/-- A point that is to be at a place, and its distance to a point of another group, which is only
measured. The rank of a matrix is taken to be the number of its different rows. -/
def measured : Sketch (Exact ℚ) :=
  let s := Sketch.empty { Settings.rational with rankOf := fun A => A.toRows.dedup.length }
  let (g, s) := s.addGroup "placed"
  let (g', s) := s.addGroup "fixed"
  let (a, s) := s.addPoint g (.number 0) (.number 0)
  let (b, s) := s.addPoint g' (.number 3) (.number 4)
  let (_, s) := s.addConstraint g (.lock a (.number 3) (.number 0))
  let (c, s) := s.addConstraint g (.pointDistance a b (.number 1))
  s.setReference c true

/-- The point is moved, the other one is not, and the distance is measured. -/
theorem solveGroup_measured : Built measured ∧
    ∃ report writes s', measured.solveGroup ⟨1⟩ {} .still = .ok (.ok report, s') ∧
      report.result = .okay ∧ Answered ⟨1⟩ measured writes (.ok report) s' ∧
      s'.params.map (fun p => (p.value, p.known)) =
        [(.number 3, true), (.number 0, true), (.number 3, false), (.number 4, false)] ∧
      s'.constraints.map (·.kind.label?) = [none, some (.number 4)] := by
  have hgroups := ((Built.empty measured.settings).addGroup "placed").addGroup "fixed"
  have hpoint := ((hgroups.addParam ⟨1⟩ (.number 0) (by decide)).addParam ⟨1⟩ (.number 0)
    (by decide)).addEntity ⟨1⟩ (.point ⟨1⟩ ⟨2⟩)
  have hpoints := ((hpoint.addParam ⟨2⟩ (.number 3) (by decide)).addParam ⟨2⟩ (.number 4)
    (by decide)).addEntity ⟨2⟩ (.point ⟨3⟩ ⟨4⟩)
  have hs : Built measured :=
    ((hpoints.addConstraint ⟨1⟩ _).addConstraint ⟨1⟩ _).setReference ⟨2⟩ true
  have hrun : (measured.solveGroup ⟨1⟩ {} .still).toOption.map (fun out =>
      (out.1.toOption.map (·.result), out.2.params.map (fun p => (p.value, p.known)),
        out.2.constraints.map (·.kind.label?))) =
      some (some .okay,
        [(.number 3, true), (.number 0, true), (.number 3, false), (.number 4, false)],
        [none, some (.number 4)]) := by decide +kernel
  obtain ⟨⟨out, s', _, hsolve, hanswered⟩, _⟩ :=
    solveGroup_checkGroup_frame hs ⟨1⟩ {} false .still
  rw [hsolve] at hrun
  simp only [Except.toOption, Option.map_some, Option.some.injEq, Prod.mk.injEq] at hrun
  obtain ⟨hresult, hparams, hlabels⟩ := hrun
  cases hout : out.result with
  | error e =>
    rw [hout] at hresult
    cases hresult
  | ok report =>
    rw [hout] at hresult hsolve hanswered
    exact ⟨hs, report, out.writes, s', hsolve, Option.some.inj hresult, hanswered, hparams, hlabels⟩

end

end Sketch

end SketchSolver
