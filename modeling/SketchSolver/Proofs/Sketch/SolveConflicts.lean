import SketchSolver.Proofs.Arithmetic.Rank
import SketchSolver.Proofs.Sketch.Conflicts
import SketchSolver.Proofs.Solve.Search
import SketchSolver.Proofs.Solve.Written

/-!
# Conflicts that a solve finds

A solve looks for conflicts before it recovers eliminated and substituted unknowns. So the
constraints that it names can be removed from the sketch in which these unknowns still have the
values from before the solve, and all others those that the solve has left
(`mem_bad_iff_removable_withValuesOf`). Where recovering has moved an unknown, this need not be so
in the sketch that the solve has left: a derivative that is not zero at the value from before can be
zero at the one recovered (`solve_tangent`).
-/

namespace SketchSolver

/-- An unknown has the value it had where nothing moves. -/
theorem EquationSystem.Frame.value?_eq {s s' : EquationSystem α}
    (h : EquationSystem.Frame (fun _ _ => False) s s') (x : ParamHandle) :
    (s'.param? x).map (·.value) = (s.param? x).map (·.value) := by
  unfold EquationSystem.param?
  rw [h.position?_eq]
  cases hi : s.position? x with
  | none => rfl
  | some i =>
    obtain ⟨p, hp, _⟩ := EquationSystem.exists_of_position? hi
    obtain ⟨p', hp', hk⟩ := h.kept hp
    rw [Option.bind_some, Option.bind_some, hp, hp', Option.map_some, Option.map_some, hk.value id]

namespace Sketch

open EquationSystem (lastValue? Deferred applyWrites)

variable {g : GroupHandle} {policy : Policy} {s s' : Sketch α} {x : ParamHandle}

/-! ## Values of a sketch -/

/-- Systems with the same values give them to a sketch. -/
theorem withValuesOf_congr {main main' : EquationSystem α}
    (h : ∀ x, (main'.param? x).map (·.value) = (main.param? x).map (·.value)) :
    s.withValuesOf g main' = s.withValuesOf g main := by
  unfold withValuesOf
  simp only [h]

/-- Measuring a group again changes no parameter. -/
theorem params_remeasure [Scalar α] (s : Sketch α) (g : GroupHandle) :
    (s.remeasure g).params = s.params := by
  unfold remeasure
  split <;> rfl

variable [Scalar α]

/-- Measuring a group again leaves the sketch looking the same. -/
theorem looksSame_remeasure (hs : Document.policy s g = .ok policy) :
    LooksSame g policy s (s.remeasure g) := by
  obtain ⟨group, hgroup, rfl⟩ := Option.map_eq_some_iff.1 (policy_eq_ok_iff.1 hs)
  unfold remeasure
  rw [hgroup]
  exact looksSame_measureReferences s none

omit [Scalar α] in
/-- A handle leads to its parameter, if no other one has it. -/
theorem param?_of_mem (hd : (s.params.map (·.handle)).Nodup) {p : SketchParam α}
    (hp : p ∈ s.params) : s.param? p.handle = some p := by
  change s.params.find? (·.handle == p.handle) = _
  cases hfind : s.params.find? (·.handle == p.handle) with
  | none => simpa using List.find?_eq_none.1 hfind p hp
  | some p' =>
    have hhandle : p'.handle = p.handle := by simpa using List.find?_some hfind
    rw [List.inj_on_of_nodup_map hd (List.mem_of_find?_eq_some hfind) hp hhandle]

/-- A parameter has the value that it has in the table, if no other one has its handle. -/
theorem paramValue?_of_mem (hd : (s.params.map (·.handle)).Nodup) {p : SketchParam α}
    (hp : p ∈ s.params) : Document.paramValue? s p.handle = some p.value :=
  congrArg (Option.map (·.value)) (param?_of_mem hd hp)

/-- The values of a group are those of its parameters, if no two of them have one handle. -/
theorem paramValue?_of_mem_params (hd : (s.params.map (·.handle)).Nodup) {e : ParamHandle × α}
    (he : e ∈ Document.params s g) : Document.paramValue? s e.1 = some e.2 := by
  obtain ⟨p, hp, rfl⟩ := List.mem_map.1 he
  exact paramValue?_of_mem hd (List.mem_filter.1 hp).1

/-- The parameters of a group have different handles if all parameters have. -/
theorem nodup_params (hd : (s.params.map (·.handle)).Nodup) :
    ((Document.params s g).map Prod.fst).Nodup := by
  refine List.Nodup.sublist ?_ hd
  change List.Sublist ((List.map _ (s.params.filter _)).map _) _
  rw [List.map_map]
  exact List.filter_sublist.map _

/-! ## Values that are written back -/

/-- Writing values back changes no policy. -/
theorem policy_applyWrites : ∀ (writes : List (Write α)) (s : Sketch α),
    Document.policy (applyWrites s writes) g = Document.policy s g
  | [], _ => rfl
  | _ :: rest, _ => policy_applyWrites rest _

/-- Writing values back changes no handle. -/
theorem handles_applyWrites : ∀ (writes : List (Write α)) (s : Sketch α),
    (applyWrites s writes).params.map (·.handle) = s.params.map (·.handle)
  | [], _ => rfl
  | w :: rest, s => by
    have hone : (Document.writeBack s w.handle w.value w.free).params.map (·.handle) =
        s.params.map (·.handle) :=
      map_updateFirst (p := (·.handle == w.handle))
        (f := fun p : SketchParam α => { p with value := w.value, known := true, free := w.free })
        (fun _ => rfl) _
    exact (handles_applyWrites rest _).trans hone

/-- A parameter that nothing is written back for keeps its value. -/
theorem paramValue?_applyWrites_of_not_mem : ∀ {writes : List (Write α)} {s : Sketch α},
    x ∉ writes.map (·.handle) →
      Document.paramValue? (applyWrites s writes) x = Document.paramValue? s x
  | [], _, _ => rfl
  | w :: rest, s, hx => by
    rw [List.map_cons, List.mem_cons, not_or] at hx
    exact (paramValue?_applyWrites_of_not_mem hx.2).trans (paramValue?_writeBack hx.1 s ..)

/-- A parameter has the value in the end that is written back for it. -/
theorem paramValue?_applyWrites : ∀ {writes : List (Write α)} {s : Sketch α},
    (writes.map (·.handle)).Nodup → ∀ w ∈ writes, w.handle ∈ s.params.map (·.handle) →
      Document.paramValue? (applyWrites s writes) w.handle = some w.value
  | [], _, _, _, hw, _ => nomatch hw
  | w :: rest, s, hd, w', hw', hmem => by
    rw [List.map_cons, List.nodup_cons] at hd
    change Document.paramValue? (applyWrites (Document.writeBack s w.handle w.value w.free) rest)
      w'.handle = some w'.value
    rcases List.mem_cons.1 hw' with rfl | hrest
    · rw [paramValue?_applyWrites_of_not_mem hd.1]
      have hfind := find?_updateFirst_self (p := (·.handle == w'.handle))
        (f := fun p : SketchParam α => { p with value := w'.value, known := true, free := w'.free })
        (fun _ h => h) s.params
      change ((updateFirst _ _ s.params).find? _).map _ = _
      rw [hfind, Option.map_map]
      obtain ⟨p, hp, hph⟩ := List.mem_map.1 hmem
      obtain ⟨p', hp'⟩ := Option.isSome_iff_exists.1
        (List.find?_isSome (p := (·.handle == w'.handle)).2 ⟨p, hp, beq_iff_eq.2 hph⟩)
      rw [hp']
      rfl
    · refine paramValue?_applyWrites hd.2 w' hrest ?_
      have hone := handles_applyWrites [w] s
      exact hone.symm ▸ hmem

/-- A parameter of a group has the value that is written back for it, whatever is measured and
recorded after that. -/
theorem paramValue?_of_writes {d : Sketch α} {writes : List (Write α)} {status : Status}
    (hs' : s' = remeasure (Document.recordStatus (applyWrites d writes) g status) g)
    (hd : (writes.map (·.handle)).Nodup) {w : Write α} (hw : w ∈ writes)
    (hmem : w.handle ∈ d.params.map (·.handle)) :
    Document.paramValue? s' w.handle = some w.value := by
  have hparams : s'.params = (applyWrites d writes).params := by
    rw [hs', params_remeasure]
    rfl
  rw [← paramValue?_applyWrites hd w hw hmem]
  change (s'.params.find? _).map _ = ((applyWrites d writes).params.find? _).map _
  rw [hparams]

/-! ## Removals -/

/-- A check of the group succeeds once the constraint has been removed. -/
def Removable (s : Sketch α) (g : GroupHandle) (c : ConstraintHandle) (findFree : Bool)
    (watch : Stopwatch) : Prop :=
  ∃ report s', (s.removeConstraint c).checkGroup g findFree watch = .ok (.ok report, s') ∧
    report.result = .okay

/-- What can be removed is the same of sketches that look the same. -/
theorem LooksSame.removable_iff (h : LooksSame g policy s s')
    (hs : Document.policy s g = .ok policy) (c : ConstraintHandle) (findFree : Bool)
    (watch : Stopwatch) : s'.Removable g c findFree watch ↔ s.Removable g c findFree watch := by
  obtain ⟨t, d, ht⟩ := exists_load_eq_ok hs (.empty s.settings) (some c)
  exact (checkGroup_removeConstraint_okay_iff h ht).trans
    (checkGroup_removeConstraint_okay_iff (.refl g policy s) ht).symm

/-- A sketch that has the values of a system looks the same with them. -/
theorem looksSame_withValuesOf_self {main : EquationSystem α}
    (hd : (s.params.map (·.handle)).Nodup)
    (hvalue : ∀ p ∈ main.params, Document.paramValue? s p.handle = some p.value) :
    LooksSame g policy s (s.withValuesOf g main) := by
  refine looksSame_withValuesOf fun x y p hy hp => ?_
  obtain ⟨e, he, rfl⟩ := Option.map_eq_some_iff.1 hy
  obtain ⟨hmem, hx⟩ := List.mem_filter.1 (List.mem_of_getLast? he)
  obtain ⟨i, _, hi⟩ := Option.bind_eq_some_iff.1 hp
  have hown := hvalue p (List.mem_of_getElem? hi)
  rw [EquationSystem.handle_of_param? hp, ← beq_iff_eq.1 hx, paramValue?_of_mem_params hd hmem]
    at hown
  exact (Option.some.inj hown).symm

/-- The values of a system change nothing in a sketch that has them. -/
theorem removable_withValuesOf_iff {main : EquationSystem α}
    (hs : Document.policy s g = .ok policy) (hd : (s.params.map (·.handle)).Nodup)
    (hvalue : ∀ p ∈ main.params, Document.paramValue? s p.handle = some p.value)
    (c : ConstraintHandle) (findFree : Bool) (watch : Stopwatch) :
    (s.withValuesOf g main).Removable g c findFree watch ↔ s.Removable g c findFree watch :=
  (looksSame_withValuesOf_self hd hvalue).removable_iff hs c findFree watch

/-! ## Conflicts -/

section
variable {options : SolveOptions} {watch : Stopwatch} {report : Report} {main : EquationSystem α}

/-- A search that has looked at a sketch with the values of its main system names the constraints
that can be removed there. It leaves a sketch that looks the same. -/
theorem findConflicts_removable {s₀ d : Sketch α} {deadline : Deadline} {found : ConflictSearch}
    (hpolicy : Document.policy s g = .ok policy) (hsettings : main.settings = s.settings)
    (hcover : main.params.map (·.handle) = (Document.params s g).map Prod.fst)
    (hlooks : LooksSame g policy s s₀) (hparams : s₀.params = s.params)
    (hsearch : main.findConflicts s₀ g true deadline = .ok (.ok found, d)) :
    LooksSame g policy s d ∧ d.params = s.params ∧ (found.timedOut = false →
      ∀ start, LooksSame g policy (s.withValuesOf g main) start →
        ∀ c ∈ s.constraints, c.group = g → ∀ (findFree : Bool) (watch : Stopwatch),
          c.handle ∈ found.bad ↔ start.Removable g c.handle findFree watch) := by
  -- What every trial answers is what the sketch loads without the constraint, with these values.
  have hvalued : Document.policy (s.withValuesOf g main) g = .ok policy := hpolicy
  have hloads : ∀ c, ∃ u e, (EquationSystem.empty s.settings).load (s.withValuesOf g main) g
      (some c) = .ok (policy, u, e) := fun c => exists_load_eq_ok hvalued _ (some c)
  choose u e hu using hloads
  have hanswers : ∀ c, ∃ b, (u c).independent = .ok b := fun c => ⟨_, (u c).independent_eq⟩
  choose answer hanswer using hanswers
  have hdec := decides_withValuesOf (Q := fun doc => doc.params = s.params) hu hanswer hsettings
    hcover fun _ _ h => h
  obtain ⟨⟨hlooks', hparams'⟩, hexact⟩ :=
    EquationSystem.findConflicts_spec hdec ⟨hlooks, hparams⟩ hsearch
  refine ⟨hlooks', hparams', fun htime start hstart c hc hcg findFree watch => ?_⟩
  have hmem : c.handle ∈ (Document.constraints s₀ g).map Prod.fst := by
    rw [hlooks.constraints_eq]
    refine List.mem_map.2 ⟨(c.handle, c.isCoincident), List.mem_map.2 ⟨c, ?_, rfl⟩, rfl⟩
    exact List.mem_filter.2 ⟨hc, beq_iff_eq.2 hcg⟩
  unfold Removable
  rw [checkGroup_removeConstraint_okay_iff hstart (hu c.handle), hanswer, hexact htime]
  simp [hmem]

/-- A solve of a group that succeeds measures the group again. -/
theorem solveGroup_eq_ok (h : s.solveGroup g options watch = .ok (.ok report, s'))
    (hok : report.result.isOkay = true) :
    ∃ out, (EquationSystem.empty s.settings).solve s g options watch = .ok out ∧
      out.result = .ok report ∧ s' = out.document.remeasure g := by
  unfold solveGroup at h
  obtain ⟨out, hout, h⟩ := bind_eq_ok.1 h
  cases hresult : out.result with
  | error e =>
    rw [hresult] at h
    cases h
  | ok report₀ =>
    rw [hresult] at h
    simp only at h
    split at h
    · cases h
      exact ⟨out, hout, hresult, rfl⟩
    · next hnot =>
      cases h
      exact absurd hok hnot

/-- What a solve writes back and records does not show where the values are replaced by others. -/
theorem looksSame_withValuesOf_of_solve {d : Sketch α} {writes : List (Write α)} {status : Status}
    (hpolicy : Document.policy s g = .ok policy) (hlooks : LooksSame g policy s d)
    (hcover : main.params.map (·.handle) = (Document.params s g).map Prod.fst)
    (hwrites : writes.map (·.handle) = main.params.map (·.handle))
    (hs' : s' = remeasure (Document.recordStatus (applyWrites d writes) g status) g) :
    LooksSame g policy (s.withValuesOf g main) (s'.withValuesOf g main) := by
  have hmem : ∀ w ∈ writes, w.handle ∈ (Document.params d g).map Prod.fst := by
    intro w hw
    rw [hlooks.handles, ← hcover, ← hwrites]
    exact List.mem_map_of_mem hw
  have hwritten : LooksSame g policy (d.withValuesOf g main)
      ((applyWrites d writes).withValuesOf g main) :=
    looksSame_withValuesOf_applyWrites (hcover.trans hlooks.handles.symm) hmem
  have hpolicy' : Document.policy (applyWrites d writes) g = .ok policy := by
    rw [policy_applyWrites]
    exact hlooks.policy_eq hpolicy
  have hrecorded : LooksSame g policy (applyWrites d writes) s' := by
    have hstatus : LooksSame g policy (applyWrites d writes)
        (Document.recordStatus (applyWrites d writes) g status) := looksSame_recordStatus _ status
    rw [hs']
    exact hstatus.trans (looksSame_remeasure (hstatus.policy_eq hpolicy'))
  exact ((hlooks.withValuesOf main).trans hwritten).trans (hrecorded.withValuesOf main)

/-- A solve that succeeds has an unknown for each parameter of the group, and writes back one value
for each of them. -/
theorem handles_of_solve {out : Outcome (Sketch α) α}
    (hd : ((Document.params s g).map Prod.fst).Nodup)
    (hout : (EquationSystem.empty s.settings).solve s g options watch = .ok out)
    (hresult : out.result = .ok report) (hok : report.result.isOkay = true) :
    out.system.params.map (·.handle) = (Document.params s g).map Prod.fst ∧
      out.writes = out.system.writes ∧
      out.writes.map (·.handle) = out.system.params.map (·.handle) := by
  obtain ⟨_, _, _, _, _, hload, _, haccepted, _, hcompleted, _, hwrites⟩ :=
    EquationSystem.solve_eq_ok hd hout hresult hok
  refine ⟨?_, hwrites, ?_⟩
  · exact hcompleted.frame.handles_eq.trans
      ((EquationSystem.sameUnknowns_accepted haccepted).handles.trans
        (EquationSystem.loads_of_load hload).handles_eq)
  · rw [hwrites, EquationSystem.writes, List.map_map]
    rfl

/-- A sketch that a solve has left has the values that the solve has found. -/
theorem paramValue?_of_system {out : Outcome (Sketch α) α} {d : Sketch α}
    (hd : (s.params.map (·.handle)).Nodup)
    (hout : (EquationSystem.empty s.settings).solve s g options watch = .ok out)
    (hresult : out.result = .ok report) (hok : report.result.isOkay = true)
    (hparams : d.params = s.params)
    (hs' : s' = remeasure (Document.recordStatus (applyWrites d out.writes) g report.status) g) :
    ∀ p ∈ out.system.params, Document.paramValue? s' p.handle = some p.value := by
  have hdg := nodup_params (g := g) hd
  obtain ⟨hcover, hwrites, hhandles⟩ := handles_of_solve hdg hout hresult hok
  intro p hp
  have hw : (⟨p.handle, p.value, p.free⟩ : Write α) ∈ out.writes := by
    rw [hwrites]
    exact List.mem_map_of_mem hp
  have hmem : p.handle ∈ (Document.params s g).map Prod.fst := by
    rw [← hcover]
    exact List.mem_map_of_mem hp
  obtain ⟨e, he, hep⟩ := List.mem_map.1 hmem
  obtain ⟨p₁, hp₁, rfl⟩ := List.mem_map.1 he
  refine paramValue?_of_writes hs' (by rwa [hhandles, hcover]) hw ?_
  rw [hparams]
  exact List.mem_map.2 ⟨p₁, (List.mem_filter.1 hp₁).1, hep⟩

/-- Of the unknowns of the system that a solve has accepted, those put off have the values that the
sketch had before, and all others those that it has in the end. -/
theorem paramValue?_of_solve {out : Outcome (Sketch α) α} {t : EquationSystem α}
    {s₀ d : Sketch α} (hd : (s.params.map (·.handle)).Nodup)
    (hout : (EquationSystem.empty s.settings).solve s g options watch = .ok out)
    (hresult : out.result = .ok report) (hok : report.result.isOkay = true)
    (hload : (EquationSystem.empty s.settings).load s g none = .ok (policy, t, s₀))
    (haccepted : t.accepted policy options = .ok (some main)) (hparams : d.params = s.params)
    (hs' : s' = remeasure (Document.recordStatus (applyWrites d out.writes) g report.status) g) :
    ∀ p ∈ main.params,
      (Deferred p.state p.stage → Document.paramValue? s p.handle = some p.value) ∧
      (¬ Deferred p.state p.stage → Document.paramValue? s' p.handle = some p.value) := by
  intro p hp
  obtain ⟨policy', t', s₀', f, main', hload', _, haccepted', ha, hcompleted, _, _⟩ :=
    EquationSystem.solve_eq_ok (nodup_params hd) hout hresult hok
  obtain ⟨rfl, rfl, rfl⟩ : policy' = policy ∧ t' = t ∧ s₀' = s₀ := by
    simpa using hload'.symm.trans hload
  obtain rfl := Option.some.inj (Except.ok.inj (haccepted'.symm.trans haccepted))
  refine ⟨fun hstate => ?before, fun hstate => ?after⟩
  case before =>
    obtain ⟨p₀, hp₀, hhandle, hvalue⟩ := ha.exists_untouched hp hstate
    obtain ⟨p₁, hp₁, rfl⟩ := List.mem_map.1 hp₀
    rw [(EquationSystem.loads_of_load hload).params] at hp₁
    obtain ⟨e, he, rfl⟩ := List.mem_map.1 hp₁
    rw [← hhandle, ← hvalue]
    exact paramValue?_of_mem_params hd he
  case after =>
    obtain ⟨p', hp', hk⟩ := hcompleted.frame.kept_mem hp
    rw [← hk.handle, ← hk.value hstate]
    exact paramValue?_of_system hd hout hresult hok hparams hs' p' hp'

/-- The constraints that a solve names as conflicting are those that can be removed where the search
has looked: in the sketch that the solve has left, but with the eliminated and substituted unknowns
at the values that they had before. If these are the values they have got back, the constraints are
those that can be removed from the sketch that the solve has left. -/
theorem mem_bad_iff_removable_withValuesOf
    (h : s.solveGroup g options watch = .ok (.ok report, s'))
    (hfind : options.findBad = true) (hstrict : options.strict = true)
    (hredundant : report.result = .redundantOkay) (htime : report.timedOut = false) :
    ∃ policy t s₀ main, (EquationSystem.empty s.settings).load s g none = .ok (policy, t, s₀) ∧
      t.accepted policy options = .ok (some main) ∧
      (∀ c ∈ s.constraints, c.group = g → ∀ (findFree : Bool) (watch' : Stopwatch),
        c.handle ∈ report.bad ↔
          (s'.withValuesOf g main).Removable g c.handle findFree watch') ∧
      ((s.params.map (·.handle)).Nodup →
        (∀ p ∈ main.params,
          (Deferred p.state p.stage → Document.paramValue? s p.handle = some p.value) ∧
          (¬ Deferred p.state p.stage → Document.paramValue? s' p.handle = some p.value)) ∧
        ((∀ p ∈ main.params, Document.paramValue? s' p.handle = some p.value) →
          ∀ c ∈ s.constraints, c.group = g → ∀ (findFree : Bool) (watch' : Stopwatch),
            c.handle ∈ report.bad ↔ s'.Removable g c.handle findFree watch')) := by
  have hok : report.result.isOkay = true := by
    rw [hredundant]
    rfl
  obtain ⟨out, hout, hresult, hs'⟩ := solveGroup_eq_ok h hok
  obtain ⟨policy, t, s₀, main, main', found, d, hload, haccepted, hstill, hsearch, hbad, htimed,
    hwrites, hdocument⟩ := EquationSystem.solve_redundant hout hresult hredundant hfind
  rw [hdocument] at hs'
  rw [hstrict] at hsearch
  rw [htimed] at htime
  have hl := EquationSystem.loads_of_load hload
  have hpolicy := hl.policy
  have hsame := EquationSystem.sameUnknowns_accepted haccepted
  have hcover : main.params.map (·.handle) = (Document.params s g).map Prod.fst :=
    hsame.handles.trans hl.handles_eq
  have hmeasured : s₀ = s.measureReferences g policy none := by
    rw [hl.document, writeEquations_eq hpolicy]
  have hlooks₀ : LooksSame g policy s s₀ := by
    rw [hmeasured]
    exact looksSame_measureReferences s none
  obtain ⟨hlooks, hparams, hremovable⟩ := findConflicts_removable hpolicy
    (hstill.settings.trans (hsame.settings.trans hl.settings)) (hstill.handles_eq.trans hcover)
    hlooks₀ (by rw [hmeasured]; rfl) hsearch
  have hlooks' := looksSame_withValuesOf_of_solve hpolicy hlooks hcover hwrites hs'
  rw [← withValuesOf_congr hstill.value?_eq] at hlooks'
  have hiff := hremovable htime _ hlooks'
  rw [← hbad] at hiff
  refine ⟨policy, t, s₀, main, hload, haccepted, hiff, fun hd => ⟨?values,
    fun hvalue c hc hcg findFree watch' => ?same⟩⟩
  case values =>
    exact paramValue?_of_solve hd hout hresult hok hload haccepted hparams hs'
  case same =>
    have hpolicy' : Document.policy s' g = .ok policy := hlooks'.policy_eq hpolicy
    have hd' : (s'.params.map (·.handle)).Nodup := by
      rw [hs', params_remeasure]
      change ((applyWrites d out.writes).params.map _).Nodup
      rwa [handles_applyWrites, hparams]
    rw [hiff c hc hcg findFree watch', removable_withValuesOf_iff hpolicy' hd' hvalue]

end

/-- Three points, the first one fixed twice and the last one once, that ask the middle one to be as
high as the last one and to be five away from the first one. -/
def tangent : Sketch (Exact ℚ) :=
  let s := Sketch.empty { Settings.rational with rankOf := Exact.rank }
  let (g, s) := s.addGroup "tangent"
  let (a, s) := s.addPoint g (.number 0) (.number 0)
  let (b, s) := s.addPoint g (.number 3) (.number 4)
  let (c, s) := s.addPoint g (.number 7) (.number 5)
  let (_, s) := s.addConstraint g (.lock a (.number 0) (.number 0))
  let (_, s) := s.addConstraint g (.lock a (.number 0) (.number 0))
  let (_, s) := s.addConstraint g (.lock c (.number 7) (.number 5))
  let (_, s) := s.addConstraint g (.horizontal b c)
  (s.addConstraint g (.pointDistance a b (.number 5))).2

/-- The middle point is moved to where it is straight above the first one, and its two constraints
pull the same way. The search has looked while they did not, and names both locks of the first
point, none of which can be removed in the end. -/
theorem solve_tangent : ∃ report s', tangent.solveGroup ⟨1⟩ { strict := true } .still =
      .ok (.ok report, s') ∧ report.result = .redundantOkay ∧ report.timedOut = false ∧
    report.bad = [⟨1⟩, ⟨2⟩] ∧ ¬ s'.Removable ⟨1⟩ ⟨1⟩ false .still ∧
    ∃ main : EquationSystem (Exact ℚ),
      (∀ p ∈ main.params,
        (Deferred p.state p.stage → Document.paramValue? tangent p.handle = some p.value) ∧
        (¬ Deferred p.state p.stage → Document.paramValue? s' p.handle = some p.value)) ∧
      (s'.withValuesOf ⟨1⟩ main).Removable ⟨1⟩ ⟨1⟩ false .still := by
  have hrun : (tangent.solveGroup ⟨1⟩ { strict := true } .still).toOption.map (fun out =>
      (out.1.toOption.map fun report => (report.result, report.timedOut, report.bad),
        ((out.2.removeConstraint ⟨1⟩).checkGroup ⟨1⟩ false .still).toOption.map fun out =>
          out.1.toOption.map (·.result))) =
      some (some (.redundantOkay, false, [⟨1⟩, ⟨2⟩]), some (some .redundantOkay)) := by
    decide +kernel
  obtain ⟨⟨result, s'⟩, hout, heq⟩ := Option.map_eq_some_iff.1 hrun
  obtain ⟨hreport, hcheck⟩ := Prod.ext_iff.1 heq
  obtain ⟨report, hresult, heq⟩ := Option.map_eq_some_iff.1 hreport
  obtain ⟨hredundant, htime, hbad⟩ := by simpa only [Prod.mk.injEq] using heq
  rw [toOption_eq_some] at hout hresult
  simp only at hresult
  subst hresult
  have hnot : ¬ s'.Removable ⟨1⟩ ⟨1⟩ false .still := by
    rintro ⟨report', s'', hchecked, hokay⟩
    rw [hchecked] at hcheck
    cases hokay.symm.trans (Option.some.inj (Option.some.inj hcheck))
  obtain ⟨_, _, _, main, _, _, hiff, hvalues⟩ :=
    mem_bad_iff_removable_withValuesOf hout rfl rfl hredundant htime
  have hfirst := hiff ⟨⟨1⟩, ⟨1⟩, .lock ⟨1⟩ (.number 0) (.number 0), false⟩ (by decide +kernel) rfl
    false .still
  rw [hbad] at hfirst
  exact ⟨report, s', hout, hredundant, htime, hbad, hnot, main, (hvalues (by decide +kernel)).1,
    hfirst.1 (by decide)⟩

end Sketch

end SketchSolver
