import SketchSolver.EquationSystem.Substitution
import SketchSolver.Proofs.EquationSystem.Record
import SketchSolver.Proofs.EquationSystem.Singletons

/-!
# Recovered values

After the main system is solved, eliminated unknowns are recovered in the order of the record, and
substituted ones take the values of their roots. Neither touches the values of the other
(`recover_spec`, `frame_copySubstituted`), and both leave those of the main system alone.

Recovery goes through the record until a value cannot be meant, and stops there
(`recovers_of_recoverFrom`). What it has recovered by then is a prefix of the record, and nothing
else has changed (`Recovers`). Each unknown of the prefix has the value that its equation gives it
at the values that the others have in the end: when its turn comes, these have their values already,
since no equation of a record refers to an unknown behind its own.
-/

namespace SketchSolver.EquationSystem

variable {s s' : EquationSystem α} {i n : Nat}

/-! ## Substituted unknowns -/

/-- An unknown in a state. -/
def InState (state : ParamState) (st : ParamState) (_ : Nat) : Prop :=
  st = state

/-- A position after copying holds what it held, but for the value of a substituted unknown. -/
theorem copyFromRoot_cases (s : EquationSystem α) (i : Nat) :
    s.copyFromRoot i = s ∨ ∃ p r, s.params[i]? = some p ∧ p.state = .substituted ∧
      p.root.bind s.param? = some r ∧
      s.copyFromRoot i = s.updateParam i fun p => { p with value := r.value } := by
  unfold copyFromRoot
  cases hp : s.params[i]? with
  | none => exact Or.inl rfl
  | some p =>
    by_cases hstate : p.state = .substituted
    · cases hr : p.root.bind s.param? with
      | none => exact Or.inl (by simp [hstate, hr])
      | some r => exact Or.inr ⟨p, r, rfl, hstate, hr, by simp [hstate, hr]⟩
    · exact Or.inl (by simp [hstate])

/-- Copying a value from a root moves a substituted unknown. -/
theorem frame_copyFromRoot (s : EquationSystem α) (i : Nat) :
    Frame (InState .substituted) s (s.copyFromRoot i) := by
  rcases s.copyFromRoot_cases i with hsame | ⟨p, r, hp, hstate, _, hcopy⟩
  · rw [hsame]
    exact .refl _ s
  · rw [hcopy]
    refine .updateParam fun p' hp' => ⟨rfl, rfl, rfl, rfl, fun hm => ?_⟩
    rw [hp] at hp'
    cases hp'
    exact absurd hstate hm

/-- Copying values to several positions moves substituted unknowns. -/
theorem frame_foldl_copyFromRoot : ∀ (positions : List Nat) (s : EquationSystem α),
    Frame (InState .substituted) s (positions.foldl copyFromRoot s)
  | [], s => .refl _ s
  | i :: rest, s => (frame_copyFromRoot s i).trans (frame_foldl_copyFromRoot rest _)

/-- Copying moves substituted unknowns. -/
theorem frame_copySubstituted (s : EquationSystem α) :
    Frame (InState .substituted) s s.copySubstituted :=
  frame_foldl_copyFromRoot _ s

/-- Copying gives each substituted unknown the value of its root. -/
theorem HandlesDistinct.value_copySubstituted (hd : s.HandlesDistinct) :
    ∀ p ∈ s.copySubstituted.params, p.state = .substituted →
      ∀ r ∈ s.copySubstituted.params, p.root = some r.handle → r.state ≠ .substituted →
        p.value = r.value := by
  have hfold : ∀ n, ∀ i < n, ∀ p, ((List.range n).foldl copyFromRoot s).params[i]? = some p →
      p.state = .substituted → ∀ r ∈ ((List.range n).foldl copyFromRoot s).params,
        p.root = some r.handle → r.state ≠ .substituted → p.value = r.value := by
    intro n
    induction n with
    | zero => exact fun i hi => absurd hi (Nat.not_lt_zero i)
    | succ n hcopied =>
      have hframe := frame_foldl_copyFromRoot (List.range n) s
      rw [List.range_succ, List.foldl_append, List.foldl_cons, List.foldl_nil]
      generalize (List.range n).foldl copyFromRoot s = t at hframe hcopied
      have hstep := frame_copyFromRoot t n
      intro i hi p hp hstate r hr hroot hrstate
      obtain ⟨pₜ, hpₜ, hk⟩ := hstep.kept_of hp
      obtain ⟨rₜ, hrₜ, hrk⟩ := hstep.kept_of_mem hr
      have hrvalue : r.value = rₜ.value := hrk.value fun hm => hrstate (hrk.state.trans hm)
      rw [hk.state] at hstate
      rw [hk.root, hrk.handle] at hroot
      by_cases hin : i = n
      · -- Its root does not move, so the value copied is the one the root has in the end.
        subst hin
        have hbind : pₜ.root.bind t.param? = some rₜ := by
          rw [hroot]
          exact (hframe.handlesDistinct hd).param?_eq hrₜ
        have hcopy : t.copyFromRoot i = t.updateParam i fun p => { p with value := rₜ.value } := by
          simp [copyFromRoot, hpₜ, hstate, hbind]
        rw [hcopy] at hp
        simp only [updateParam, List.getElem?_modify_eq, hpₜ, Option.map_eq_map, Option.map_some,
          Option.some.injEq] at hp
        rw [← hp, hrvalue]
      · have hold : t.params[i]? = some p := by
          rcases t.copyFromRoot_cases n with hsame | ⟨_, _, _, _, _, hcopy⟩
          · rwa [hsame] at hp
          · rw [hcopy] at hp
            simpa [updateParam, List.getElem?_modify, Ne.symm hin] using hp
        rw [hpₜ] at hold
        cases hold
        rw [hrvalue]
        exact hcopied i (by omega) p hpₜ hstate rₜ hrₜ hroot
          (hrk.state ▸ hrstate)
  intro p hp
  obtain ⟨i, hi⟩ := List.getElem?_of_mem hp
  refine hfold s.params.length i ?_ p hi
  rw [← s.frame_copySubstituted.length_eq]
  exact (List.getElem?_eq_some_iff.1 hi).1

/-! ## Eliminated unknowns -/

section
variable [Scalar α] {entries : List (ParamHandle × Nat)} {h : ParamHandle} {k : Nat}

/-- A record stays replayable where only values change. -/
theorem Replayable.frame {moved : ParamState → Nat → Prop} (hr : s.Replayable)
    (h : Frame moved s s') : s'.Replayable := by
  have hmem : ∀ x, (∃ p ∈ s'.params, p.handle = x ∧ p.state = .eliminated) ↔
      ∃ p ∈ s.params, p.handle = x ∧ p.state = .eliminated := by
    intro x
    constructor
    · rintro ⟨p', hp', hh, hstate⟩
      obtain ⟨p, hp, hk⟩ := h.kept_of_mem hp'
      exact ⟨p, hp, hk.handle ▸ hh, hk.state ▸ hstate⟩
    · rintro ⟨p, hp, hh, hstate⟩
      obtain ⟨p', hp', hk⟩ := h.kept_mem hp
      exact ⟨p', hp', hk.handle.trans hh, hk.state.trans hstate⟩
  refine ⟨?_, ?_, ?_, ?_, ?_, ?_, ?_⟩
  · rw [h.elimination]
    exact hr.handles_nodup
  · rw [h.elimination]
    exact hr.equations_nodup
  · intro x
    rw [h.elimination, hr.mem_iff, hmem]
  · rw [h.elimination, h.equations]
    exact hr.defining
  · intro p' hp' hstate
    obtain ⟨p, hp, hh, hstate'⟩ := (hmem p'.handle).1 ⟨p', hp', rfl, hstate⟩
    rw [← hh, isDragged, h.dragged]
    exact hr.notDragged p hp hstate'
  · rw [h.equations]
    intro q hq hlive p' hp' hstate
    obtain ⟨p, hp, hh, hstate'⟩ := (hmem p'.handle).1 ⟨p', hp', rfl, hstate⟩
    rw [← hh]
    exact hr.live q hq hlive p hp hstate'
  · rw [h.elimination, h.equations]
    exact hr.layered

/-! ## Recovered unknowns -/

/-- The equation of an entry gives the unknown of the entry the value `x`, where other unknowns have
the given values and itself the one that it has in `s`. -/
def Defines (s : EquationSystem α) (value : ParamHandle → α) (e : ParamHandle × Nat)
    (q : Equation α) (x : α) : Prop :=
  s.equations[e.2]? = some q ∧
    Isolates (Function.update value e.1 (s.lookup.value e.1)) q.expr e.1 x

/-- The unknowns of the entries have been recovered, each from its equation at the values that all
others have in the end, and nothing else has changed. -/
structure Recovers (entries : List (ParamHandle × Nat)) (s s' : EquationSystem α) : Prop where
  rest : s' = { s with params := s'.params }
  handles : s'.params.map (·.handle) = s.params.map (·.handle)
  recovered : ∀ e ∈ entries, ∃ i p q x, s.position? e.1 = some i ∧ s.params[i]? = some p ∧
    s.Defines s'.lookup.value e q x ∧ s.settings.isUnreasonable x = false ∧
      s'.params[i]? = some { p with value := x, known := true }
  others : ∀ i, (∀ e ∈ entries, s.position? e.1 ≠ some i) → s'.params[i]? = s.params[i]?

/-- Recovery has come to the end of the entries, or to one with a value that cannot be meant, whose
equation is the answer. -/
def Stops (s s' : EquationSystem α) : Except EquationHandle Unit → List (ParamHandle × Nat) → Prop
  | .ok (), after => after = []
  | .error h, after => ∃ e rest q x, after = e :: rest ∧ q.handle = h ∧
      s.Defines s'.lookup.value e q x ∧ s.settings.isUnreasonable x = true

/-- Nothing is recovered where there are no entries. -/
theorem Recovers.nil (s : EquationSystem α) : Recovers [] s s :=
  ⟨rfl, rfl, nofun, fun _ _ => rfl⟩

/-- What is not in the entries has the value it had. -/
theorem Recovers.value_eq (hr : Recovers entries s s') (hout : h ∉ entries.map Prod.fst) :
    s'.lookup.value h = s.lookup.value h := by
  have hforeign : s'.foreign = s.foreign := by
    rw [hr.rest]
  have hparam : s'.param? h = s.param? h := by
    rw [param?, param?, position?_congr hr.handles]
    cases hi : s.position? h with
    | none => rfl
    | some i =>
      refine hr.others i fun e he hpos => hout ?_
      rw [eq_of_position? hi hpos]
      exact List.mem_map_of_mem he
  simp only [lookup, hparam, hforeign]

/-- What is at a position has been recovered, or is what it was. -/
theorem Recovers.params_cases (hr : Recovers entries s s') {p p' : Param α}
    (hp : s.params[i]? = some p) (hp' : s'.params[i]? = some p') :
    p' = p ∨ ∃ e ∈ entries, ∃ x, s.position? e.1 = some i ∧ s.settings.isUnreasonable x = false ∧
      p' = { p with value := x, known := true } := by
  by_cases hin : ∃ e ∈ entries, s.position? e.1 = some i
  · obtain ⟨e, he, hi⟩ := hin
    obtain ⟨j, r, _, x, hj, hr, _, hreasonable, hvalue⟩ := hr.recovered e he
    obtain rfl := Option.some.inj (hi.symm.trans hj)
    obtain rfl := Option.some.inj (hp.symm.trans hr)
    exact Or.inr ⟨e, he, x, hi, hreasonable, Option.some.inj (hp'.symm.trans hvalue)⟩
  · rw [hr.others i fun e he hi => hin ⟨e, he, hi⟩, hp] at hp'
    exact Or.inl (Option.some.inj hp').symm

/-- Recovery keeps the number of unknowns. -/
theorem Recovers.length_eq (hr : Recovers entries s s') : s.params.length = s'.params.length := by
  have hlen := congrArg List.length hr.handles
  rw [List.length_map, List.length_map] at hlen
  exact hlen.symm

/-- Recovering unknowns moves these. -/
theorem Recovers.frame {moved : ParamState → Nat → Prop} (hr : Recovers entries s s')
    (hmoved : ∀ e ∈ entries, ∀ i p, s.position? e.1 = some i → s.params[i]? = some p →
      moved p.state p.stage) : Frame moved s s' where
  settings := by rw [hr.rest]
  equations := by rw [hr.rest]
  dragged := by rw [hr.rest]
  foreign := by rw [hr.rest]
  elimination := by rw [hr.rest]
  params := by
    refine forall₂_of_getElem? hr.length_eq fun i p p' hp hp' => ?_
    rcases hr.params_cases hp hp' with rfl | ⟨e, he, x, hi, -, rfl⟩
    · exact .refl moved _
    · exact ⟨rfl, rfl, rfl, rfl, fun hm => absurd (hmoved e he i p hi hp) hm⟩

/-- What is recovered can be meant. -/
theorem Recovers.staysReasonable (hr : Recovers entries s s') : StaysReasonable s s' := by
  refine forall₂_of_getElem? hr.length_eq fun i p p' hp hp' => ?_
  rcases hr.params_cases hp hp' with rfl | ⟨_, _, x, _, hreasonable, rfl⟩
  · exact Or.inl rfl
  · exact Or.inr hreasonable

/-- The system with the unknown at a position recovered. -/
def assign (s : EquationSystem α) (i : Nat) (x : α) : EquationSystem α :=
  s.updateParam i fun p => { p with value := x, known := true }

/-- Recovery goes from assignment to assignment, whatever the entries are, and an answer is an
equation of the system. -/
theorem recoverFrom_invariant {P : EquationSystem α → Prop}
    (hassign : ∀ t i x, P t → P (t.assign i x)) :
    ∀ {entries : List (ParamHandle × Nat)} {s : EquationSystem α}
      {answer : Except EquationHandle Unit}, P s → recoverFrom entries s = .ok (answer, s') →
        P s' ∧ ∀ h, answer = .error h → h ∈ s'.equations.map (·.handle)
  | [], s, _, hs, hrun => by
    cases hrun
    exact ⟨hs, nofun⟩
  | (x, k) :: rest, s, _, hs, hrun => by
    rw [recoverFrom] at hrun
    split at hrun
    · cases hrun
    · next q hq =>
      obtain ⟨y, _, hrun⟩ := bind_eq_ok.1 hrun
      split at hrun
      · cases hrun
        refine ⟨hs, fun h heq => ?_⟩
        cases heq
        exact List.mem_map_of_mem (List.mem_of_getElem? hq)
      · split at hrun
        · next i _ => exact recoverFrom_invariant hassign (hassign s i y hs) hrun
        · exact recoverFrom_invariant hassign hs hrun

section
variable {p : Param α} {q : Equation α} {x : α}

omit [Scalar α] in
/-- Assigning a value keeps the handles. -/
theorem handles_assign : (s.assign i x).params.map (·.handle) = s.params.map (·.handle) :=
  handles_updateParam fun _ => rfl

omit [Scalar α] in
/-- Assigning a value leaves what handles are resolved to. -/
theorem position?_assign : (s.assign i x).position? = s.position? :=
  position?_congr handles_assign

/-- Assigning a value gives it to the handle that is resolved to the position, and to no other. -/
theorem lookup_assign (hi : s.position? h = some i) (hp : s.params[i]? = some p) :
    (s.assign i x).lookup.value = Function.update s.lookup.value h x :=
  lookup_updateParam hi hp fun _ => rfl

omit [Scalar α] in
/-- Assigning a value changes no other unknown. -/
theorem params_assign_of_ne {j : Nat} (hij : i ≠ j) :
    (s.assign i x).params[j]? = s.params[j]? := by
  simp [assign, updateParam, hij]

/-- What an equation gives its unknown is not a matter of the value of another unknown before. -/
theorem Defines.of_assign {value : ParamHandle → α} {e : ParamHandle × Nat} {y : α}
    (hi : s.position? h = some i) (hp : s.params[i]? = some p) (hne : e.1 ≠ h)
    (hdef : (s.assign i x).Defines value e q y) : s.Defines value e q y := by
  obtain ⟨hq, hy⟩ := hdef
  rw [lookup_assign hi hp, Function.update_of_ne hne] at hy
  exact ⟨hq, hy⟩

/-- The first entry has been recovered before the others, and its equation refers to none of
them. -/
theorem Recovers.cons (hi : s.position? h = some i) (hp : s.params[i]? = some p)
    (hq : s.equations[k]? = some q) (hcan : q.expr.fold.canIsolate h = true)
    (hx : Isolates s.lookup.value q.expr h x) (hreasonable : s.settings.isUnreasonable x = false)
    (hnew : h ∉ entries.map Prod.fst) (hfirst : ∀ e ∈ entries, q.expr.dependsOn e.1 = false)
    (hr : Recovers entries (s.assign i x) s') : Recovers ((h, k) :: entries) s s' := by
  have hne : ∀ e ∈ entries, e.1 ≠ h := fun e he heq => hnew (heq ▸ List.mem_map_of_mem he)
  have hother : ∀ e ∈ entries, ∀ j, s.position? e.1 = some j → i ≠ j := by
    rintro e he j hj rfl
    exact hne e he (eq_of_position? hj hi)
  refine ⟨hr.rest, hr.handles.trans handles_assign, ?recovered, ?others⟩
  case recovered =>
    intro e he
    rcases List.mem_cons.1 he with rfl | he
    · refine ⟨i, p, q, x, hi, hp, ⟨hq, hx.congr hcan fun z hz => ?_⟩, hreasonable, ?_⟩
      · by_cases hzh : z = h
        · rw [hzh, Function.update_self]
        · have hout : z ∉ entries.map Prod.fst := by
            intro hin
            obtain ⟨e, he, rfl⟩ := List.mem_map.1 hin
            rw [hfirst e he] at hz
            cases hz
          rw [Function.update_of_ne hzh, hr.value_eq hout, lookup_assign hi hp,
            Function.update_of_ne hzh]
      · rw [hr.others i fun e he hpos => ?_]
        · simp [assign, updateParam, hp]
        · rw [position?_assign] at hpos
          exact hother e he i hpos rfl
    · obtain ⟨j, p', q', y, hj, hp', hdef, hy, hvalue⟩ := hr.recovered e he
      rw [position?_assign] at hj
      rw [params_assign_of_ne (hother e he j hj)] at hp'
      exact ⟨j, p', q', y, hj, hp', hdef.of_assign hi hp (hne e he), hy, hvalue⟩
  case others =>
    intro j hj
    rw [hr.others j fun e he => ?_]
    · refine params_assign_of_ne fun hij => ?_
      subst hij
      exact hj _ (List.mem_cons_self ..) hi
    · rw [position?_assign]
      exact hj e (List.mem_cons_of_mem _ he)

/-- Recovery that stops behind a recovered unknown stops there from the beginning. -/
theorem Stops.of_assign {answer : Except EquationHandle Unit} (hi : s.position? h = some i)
    (hp : s.params[i]? = some p) (hnew : h ∉ entries.map Prod.fst)
    (hs : Stops (s.assign i x) s' answer entries) : Stops s s' answer entries := by
  cases answer with
  | ok => exact hs
  | error _ =>
    obtain ⟨e, rest, q, y, rfl, hqh, hdef, hy⟩ := hs
    have hne : e.1 ≠ h := fun heq => hnew (heq ▸ List.mem_map_of_mem (List.mem_cons_self ..))
    exact ⟨e, rest, q, y, rfl, hqh, hdef.of_assign hi hp hne, hy⟩

end

/-- Recovery comes to an end with a prefix of the entries, if no equation refers to an unknown that
is recovered behind its own. -/
theorem recovers_of_recoverFrom : ∀ {entries : List (ParamHandle × Nat)} {s : EquationSystem α}
    {answer : Except EquationHandle Unit}, (entries.map Prod.fst).Nodup →
    (∀ e ∈ entries, ∀ q, s.equations[e.2]? = some q → q.expr.fold.canIsolate e.1 = true) →
    (∀ e ∈ entries, ∃ i, s.position? e.1 = some i) →
    (entries.Pairwise fun e e' =>
      ∀ q, s.equations[e.2]? = some q → q.expr.dependsOn e'.1 = false) →
    recoverFrom entries s = .ok (answer, s') →
      ∃ before after, entries = before ++ after ∧ Recovers before s s' ∧ Stops s s' answer after
  | [], s, _, _, _, _, _, h => by
    cases h
    exact ⟨[], [], rfl, .nil _, rfl⟩
  | (x, k) :: rest, s, _, hnodup, hcan, hpos, horder, h => by
    obtain ⟨i, hi⟩ := hpos _ (List.mem_cons_self ..)
    obtain ⟨p, hp, -⟩ := exists_of_position? hi
    rw [List.map_cons, List.nodup_cons] at hnodup
    obtain ⟨hfirst, horder⟩ := List.pairwise_cons.1 horder
    rw [recoverFrom] at h
    cases hq : s.equations[k]? with
    | none => simp [hq] at h
    | some q =>
    simp only [hq] at h
    obtain ⟨y, hy, h⟩ := bind_eq_ok.1 h
    have hqcan := hcan _ (List.mem_cons_self ..) q hq
    have hdefines := valueFrom_eq_ok hqcan hy
    cases hunreasonable : s.settings.isUnreasonable y with
    | true =>
      rw [if_pos hunreasonable] at h
      cases h
      refine ⟨[], _, rfl, .nil _, _, rest, q, y, rfl, rfl, ⟨hq, ?_⟩, hunreasonable⟩
      rwa [Function.update_eq_self]
    | false =>
      rw [if_neg (by simp [hunreasonable]), hi] at h
      have hrest := recovers_of_recoverFrom (s := s.assign i y) hnodup.2
        (fun e he => hcan e (List.mem_cons_of_mem _ he))
        (fun e he => by
          rw [position?_assign]
          exact hpos e (List.mem_cons_of_mem _ he)) horder h
      obtain ⟨before, after, rfl, hrecovers, hstops⟩ := hrest
      rw [List.map_append, List.mem_append, not_or] at hnodup
      exact ⟨(x, k) :: before, after, rfl,
        hrecovers.cons hi hp hq hqcan hdefines hunreasonable hnodup.1.1
          fun e he => hfirst e (List.mem_append_left _ he) q hq,
        hstops.of_assign hi hp hnodup.1.2⟩

/-- Recovery moves the eliminated unknowns, and each of them solves its equation in the end. -/
theorem recover_spec (hd : s.HandlesDistinct) (hr : s.Replayable)
    (h : s.recover = .ok (.ok (), s')) :
    Frame (InState .eliminated) s s' ∧ StaysReasonable s s' ∧
      ∀ e ∈ s.elimination.flatten, ∀ q, s.equations[e.2]? = some q →
        SolvedFor s.settings s'.lookup.value (s.lookup.value e.1) q.expr e.1 := by
  have hcan : ∀ e ∈ s.elimination.flatten, ∀ q, s.equations[e.2]? = some q →
      q.expr.fold.canIsolate e.1 = true := by
    intro e he q hq
    obtain ⟨q', hq', _, hcan⟩ := hr.defining e he
    obtain rfl := Option.some.inj (hq.symm.trans hq')
    exact hcan
  have heliminated : ∀ e ∈ s.elimination.flatten, ∃ i p, s.position? e.1 = some i ∧
      s.params[i]? = some p ∧ p.state = .eliminated := by
    intro e he
    obtain ⟨p, hp, hph, hstate⟩ := (hr.mem_iff e.1).1 (List.mem_map_of_mem he)
    obtain ⟨i, hi⟩ := List.getElem?_of_mem hp
    exact ⟨i, p, hd.position?_eq_some_iff.2 ⟨p, hi, hph⟩, hi, hstate⟩
  obtain ⟨before, after, hentries, hrecovers, hstops⟩ := recovers_of_recoverFrom
    hr.handles_nodup hcan (fun e he => (heliminated e he).imp fun _ ⟨_, hi, _⟩ => hi) hr.pairwise h
  obtain rfl : after = [] := hstops
  rw [List.append_nil] at hentries
  subst hentries
  refine ⟨hrecovers.frame fun e he i p hi hp => ?_, hrecovers.staysReasonable, fun e he q hq => ?_⟩
  · obtain ⟨i', p', hi', hp', hstate⟩ := heliminated e he
    obtain rfl := Option.some.inj (hi.symm.trans hi')
    obtain rfl := Option.some.inj (hp.symm.trans hp')
    exact hstate
  · obtain ⟨i, p, q', x, hi, _, ⟨hq', rhs, hrhs, hx⟩, hreasonable, hp'⟩ := hrecovers.recovered e he
    obtain rfl := Option.some.inj (hq.symm.trans hq')
    have hvalue : s'.lookup.value e.1 = x :=
      value_of_position? (by rw [position?_congr hrecovers.handles, hi]) hp'
    rw [← hvalue] at hx hreasonable
    exact .inClosedForm rhs (hcan e he q hq) hrhs hx hreasonable

end

end SketchSolver.EquationSystem
