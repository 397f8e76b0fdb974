import SketchSolver.Proofs.EquationSystem.FreeUnknowns
import SketchSolver.Proofs.Solve.Freedom

/-!
# Free unknowns of a group

A check marks an unknown as free if and only if some vector that the Jacobian of the whole group
maps to zero has an entry in its column (`check_free_iff`). A solve marks by this criterion too, as
far as it marks at all (`solve_free_iff`): the Jacobian of what is left is a reduced one, so at the
columns that are left its kernel has the entries that the one of the whole Jacobian has, and its
rows are independent if all rows are.

The unknowns that a solve has substituted or eliminated are left unmarked, and when they are
recovered they get values but no marks (`marks_recoverAndWrite`).
-/

namespace SketchSolver.EquationSystem

open Matrix

/-! ## Marks that stay -/

section
variable [Scalar α] {s s' : EquationSystem α}

omit [Scalar α] in
/-- Copying the value of a root copies no mark. -/
theorem marks_copyFromRoot (s : EquationSystem α) (i : Nat) :
    (s.copyFromRoot i).params.map (·.free) = s.params.map (·.free) := by
  rcases s.copyFromRoot_cases i with hsame | ⟨_, _, _, _, _, hcopy⟩
  · rw [hsame]
  · rw [hcopy]
    exact map_params_updateParam fun _ => rfl

omit [Scalar α] in
/-- Copying values from roots copies no marks. -/
theorem marks_copySubstituted (s : EquationSystem α) :
    s.copySubstituted.params.map (·.free) = s.params.map (·.free) := by
  have hfold : ∀ (positions : List Nat) (s : EquationSystem α),
      (positions.foldl copyFromRoot s).params.map (·.free) = s.params.map (·.free) := by
    intro positions
    induction positions with
    | nil => exact fun _ => rfl
    | cons i rest ih => exact fun s => (ih _).trans (s.marks_copyFromRoot i)
  exact hfold _ s

/-- Recovering gives no marks. -/
theorem marks_recoverFrom {s' : EquationSystem α} {entries : List (ParamHandle × Nat)}
    {recovered : Except EquationHandle Unit} (h : recoverFrom entries s = .ok (recovered, s')) :
    s'.params.map (·.free) = s.params.map (·.free) := by
  have hassign : ∀ (t : EquationSystem α) i x, t.params.map (·.free) = s.params.map (·.free) →
      (t.assign i x).params.map (·.free) = s.params.map (·.free) := by
    intro t i x ht
    rw [← ht]
    exact map_params_updateParam fun _ => rfl
  exact (recoverFrom_invariant hassign rfl h).1

variable [Document δ α] {doc doc' : δ} {g : GroupHandle} {policy : Policy} {options : SolveOptions}
  {watch : Stopwatch} {out : Outcome δ α} {report report₀ : Report} {independent : Bool}

/-- What is written back are the marks as they were before unknowns were recovered. -/
theorem marks_recoverAndWrite (h : s.recoverAndWrite doc g report₀ independent = .ok out)
    (hresult : out.result = .ok report) (hok : report.result.isOkay = true) :
    out.system.params.map (·.free) = s.params.map (·.free) := by
  obtain ⟨s₁, hrecover, hsystem, _⟩ := recoverAndWrite_eq_ok h hresult hok
  rw [hsystem, marks_copySubstituted, marks_recoverFrom hrecover, marks_copySubstituted]

/-! ## Where marks are set -/

/-- A solve that finds no redundant equation sets the marks where it has been accepted, and writes
back to what it has loaded. -/
theorem solve_marks (hload : s.load doc g none = .ok (policy, s', doc'))
    (h : s.solve doc g options watch = .ok out) (hresult : out.result = .ok report)
    (hokay : report.result = .okay) :
    ∃ s₁ s₂ s₃, s'.accepted policy options = .ok (some s₁) ∧ Frame (fun _ _ => False) s₁ s₂ ∧
      s₂.markFree options.findFree = .ok s₃ ∧
      out.system.params.map (·.free) = s₃.params.map (·.free) ∧
      out.document = Document.recordStatus (applyWrites doc' out.writes) g report.status := by
  have hok := SolveResult.isOkay_of_eq_okay hokay
  unfold solve at h
  rw [hload] at h
  obtain ⟨s₁, independent, s₂, haccepted, htest, hfinish⟩ := solveLoaded_eq_ok h hresult hok
  obtain ⟨hstill, _⟩ := testRankUnless_eq_ok (fun _ _ => False) htest
  have hindependent : independent = true := by
    obtain ⟨_, _, _, _, hrecover, _⟩ := finish_cases hfinish hresult
    obtain ⟨rfl, _⟩ := recoverAndWrite_report hrecover hresult hok
    cases independent with
    | true => rfl
    | false => cases hokay
  subst hindependent
  unfold finish at hfinish
  obtain ⟨s₃, hmark, hrecover⟩ := bind_eq_ok.1 hfinish
  obtain ⟨_, _, hdocument⟩ := recoverAndWrite_report hrecover hresult hok
  exact ⟨s₁, s₂, s₃, haccepted, hstill, hmark, marks_recoverAndWrite hrecover hresult hok,
    hdocument⟩

/-- A check that finds no redundant equation sets the marks at the values that have been loaded. -/
theorem check_marks (hload : s.load doc g none = .ok (policy, s', doc')) {findBad findFree : Bool}
    (h : s.check doc g findBad findFree watch = .ok out) (hresult : out.result = .ok report)
    (hokay : report.result = .okay) :
    ∃ s₁ s₂, Frame (fun _ _ => False) s'.clearTags s₁ ∧ s₁.markFree findFree = .ok s₂ ∧
      out.system = s₂ ∧ out.writes = s₂.writes ∧ s'.independent = .ok true := by
  rw [check, hload] at h
  change s'.checkLoaded doc' g policy findBad findFree watch = .ok out at h
  cases checkLoaded_exit h with
  | tooMany _ | redundant _ _ =>
    cases hresult
    cases hokay
  | refused _ _ => cases hresult
  | @independent s₁ s₂ htested hmark =>
    exact ⟨s₁, s₂, htested.frame, hmark, rfl, rfl, htested.independent⟩

end

/-! ## The main system -/

section
variable [Field K] [LinearOrder K] [PartialFunctions K] {f : ParamHandle → ParamHandle}
  {t s₁ s₂ s₃ s' : EquationSystem (Exact K)}

omit [Field K] [LinearOrder K] [PartialFunctions K] in
/-- Substitution leaves every equality satisfied. -/
theorem settlesEqualities_simplified (hd : t.HandlesDistinct) (policy : Policy)
    (options : SolveOptions) : SettlesEqualities (t.clearTags.names policy options) t.clearTags
      (t.simplified policy options) := by
  unfold names simplified
  split
  · refine Or.inr fun k q₀ q hq₀ hq hequality => ?_
    obtain ⟨q', hq', _, hstate⟩ :=
      forall₂_getElem? (forall₂_equations_substitute hd.clearTags) hq₀
    obtain rfl := Option.some.inj (hq'.symm.trans hq)
    rw [hstate, if_pos hequality]
  · exact Or.inl rfl

/-- What is satisfied stays so in the passes after substitution. -/
theorem Passed.settlesEqualities (hp : Passed f t s₁ s₂ s₃ s') (hd : t.HandlesDistinct)
    (ht : t.Fresh) (h : SettlesEqualities f t s₁) : SettlesEqualities f t s₂.eliminate.2 := by
  obtain ⟨⟨stage, hs⟩, ⟨round, hr⟩, _⟩ := hp.substitutes.settled_recorded hd ht hp.alone
  refine h.imp_right fun hsatisfied k q₀ q₃ hq₀ hq₃ hequality => ?_
  obtain ⟨q₂, hq₂, h₃⟩ := forall₂_getElem?_of hr.equations hq₃
  obtain ⟨q₁, hq₁, h₂⟩ := forall₂_getElem?_of hs.equations hq₂
  have hstate₁ := hsatisfied k q₀ q₁ hq₀ hq₁ hequality
  have hstate₂ : q₂.state = .satisfied := by
    rcases h₂ with rfl | ⟨hlive, _⟩
    · exact hstate₁
    · simp [hstate₁] at hlive
  rcases h₃ with rfl | ⟨hlive, _⟩
  · exact hstate₂
  · simp [hstate₂] at hlive

variable {s z : EquationSystem (Exact K)} {m n : Nat} {M : Matrix (Fin m) (Fin n) K}

/-- A vector that the whole Jacobian maps to zero has one entry for an unknown that is substituted
and for its root. -/
theorem Passed.exists_root (hp : Passed f t s₁ s₂ s₃ s') (hd : t.HandlesDistinct) (ht : t.Fresh)
    (hnamed : f = t.newName ∨ f = id) (hc : Completed t s' z)
    (hM : t.IsJacobian z.lookup.value M) (hpivots : z.Pivots z.lookup.value) {x : Fin n}
    {p : Param (Exact K)} (hx : z.params[(x : Nat)]? = some p) (hstate : p.state = .substituted) :
    ∃ (y : Fin n) (r : Param (Exact K)), z.params[(y : Nat)]? = some r ∧
      p.root = some r.handle ∧ ∀ w, M *ᵥ w = 0 → w y = w x := by
  obtain ⟨handle, root, hmerged⟩ := hp.exists_merged hd ht hnamed hc hM hpivots
  have hframe : Frame (fun _ _ => True) s₂.eliminate.2 z :=
    (hp.frame.mono fun _ _ _ => trivial).trans (hc.frame.mono fun _ _ _ => trivial)
  obtain ⟨p₀, hp₀, hk⟩ := hframe.kept_of hx
  obtain ⟨r₀, hr₀, hrh⟩ := hmerged.exists_param (root x)
  obtain ⟨r, hr, hk'⟩ := hframe.kept hr₀
  refine ⟨root x, r, hr, ?_, fun w hw => hmerged.eq_root hw x⟩
  rw [hk.root, hmerged.root?_eq hp₀ (hk.state.symm.trans hstate), hk'.handle, hrh]

variable [Document δ (Exact K)] {doc doc' : δ} {g : GroupHandle} {policy : Policy}
  {options : SolveOptions} {watch : Stopwatch} {out : Outcome δ (Exact K)} {report : Report}

/-- What agrees with what a solve has loaded, at the values that it has found, has the Jacobian that
the group has there. -/
theorem isJacobian_of_solve (hd : ((Document.params doc g).map Prod.fst).Nodup)
    (hload : s.load doc g none = .ok (policy, t, doc'))
    (h : s.solve doc g options watch = .ok out) (hresult : out.result = .ok report)
    (hok : report.result.isOkay = true) (hM : t.IsJacobian out.value M)
    {u : EquationSystem (Exact K)} (hagree : (t.withValuesOf out.system).Agree u) :
    u.IsJacobian u.lookup.value M := by
  obtain ⟨policy₀, t₀, doc₀, _, s', hload₀, hd', haccepted, ha, hcompleted, hvalue, _⟩ :=
    solve_eq_ok hd h hresult hok
  obtain ⟨rfl, rfl, rfl⟩ : policy₀ = policy ∧ t₀ = t ∧ doc₀ = doc' := by
    simpa using hload₀.symm.trans hload
  have hend := hcompleted.prepared ha hd'
  have hhandles : out.system.params.map (·.handle) = t₀.params.map (·.handle) := by
    rw [hend.handles_eq]
    simp [clearTags, Function.comp_def]
  rw [hagree.value, value_withValuesOf hhandles hend.foreign, ← hvalue]
  exact hM.congr (congrArg (List.map (·.expr)) hagree.equations)
    (hagree.handles.trans (handles_withValuesOf t₀ out.system))

variable [IsStrictOrderedRing K] [LawfulRoot K] [TotalRoot K]

/-- Where an iteration has been accepted, an unknown is marked if it is not to be recovered and some
vector that the whole Jacobian maps to zero has an entry in its column. -/
theorem Passed.free_markFree (hp : Passed f t s₁ s₂ s₃ s') (hd : t.HandlesDistinct) (ht : t.Fresh)
    (hnamed : f = t.newName ∨ f = id) (hequalities : SettlesEqualities f t s₁)
    (hc : Completed t s' z) (htolerance : t.settings.freeColumnTolerance = .number 0)
    (hM : t.IsJacobian z.lookup.value M) (hpivots : z.Pivots z.lookup.value) (hfull : M.rank = m)
    {s₄ s₅ : EquationSystem (Exact K)} (hstill : Frame (fun _ _ => False) s' s₄)
    (hmark : s₄.markFree true = .ok s₅) {x : Fin n} {p : Param (Exact K)}
    (hx : s₅.params[(x : Nat)]? = some p) :
    p.free = true ↔ ¬ Deferred p.state p.stage ∧ ∃ w, M *ᵥ w = 0 ∧ w x ≠ 0 := by
  obtain ⟨handle, root, hmerged⟩ := hp.exists_merged hd ht hnamed hc hM hpivots
  obtain ⟨a, b, row, column, defined, hn⟩ := hmerged.exists_numbered
  have hframe : Frame (InState .live) s₂.eliminate.2 s₄ :=
    hp.frame.trans (hstill.mono fun _ _ hm => hm.elim)
  have hselect : s₄.select .live = s₂.eliminate.2.select .live := select_eq_of_frame hframe
  have hL := (hmerged.isPartJacobian hn (hp.value_eq_of_live hd ht hc)).frame hp.frame
  have hwritten : (s₄.linearize .live).1 = true :=
    (linearize_fst_of_frame hframe).trans hp.written
  have hsettings : s₄.settings = t.settings := hframe.settings.trans hmerged.prepared.settings
  have hrank := hmerged.rank_eq hn (hp.settlesEqualities hd ht hequalities) hfull
  obtain ⟨p₀, hp₀, hk⟩ := (hframe.trans (frame_markFree hmark)).kept_of hx
  obtain ⟨p', hp', hph⟩ := hmerged.exists_param x
  obtain rfl := Option.some.inj (hp₀.symm.trans hp')
  have hstate : s₂.eliminate.2.HasState p₀.state (handle x) :=
    ⟨p₀, List.mem_of_getElem? hp₀, hph, rfl⟩
  -- The column is left if the unknown is live.
  have hlive : p₀.state = .live ↔ ∃ j, column j = x := by
    rw [← hmerged.live_iff hn]
    exact ⟨fun hlive => hlive ▸ hstate,
      fun hlive => hstate.unique hmerged.handlesDistinct hlive⟩
  have hcolumn : ∀ j : Fin b, (s₄.select .live).1[(j : Nat)]? = some (x : Nat) ↔ column j = x := by
    intro j
    rw [hselect, hn.column, List.getElem?_map, List.getElem?_ofFn, dif_pos j.2, Option.map_some,
      Option.some.injEq]
    exact Fin.val_inj
  rw [EquationSystem.free_markFree (hframe.handlesDistinct hmerged.handlesDistinct)
    (by rw [hsettings, htolerance]) hwritten (hL.still hstill) hrank hmark hx, hk.state]
  simp only [hcolumn, (hmerged.reduces hn).exists_kernel_iff]
  constructor
  · rintro ⟨j, rfl, hkernel⟩
    refine ⟨?_, hkernel⟩
    rw [hlive.2 ⟨j, rfl⟩]
    simp [Deferred]
  · rintro ⟨hdeferred, w, hw, hne⟩
    cases hcase : p₀.state with
    | live =>
      obtain ⟨j, rfl⟩ := hlive.1 hcase
      exact ⟨j, rfl, w, hw, hne⟩
    | solvedAlone =>
      -- What an equation fixes alone does not move.
      rw [hcase] at hstate
      exact absurd ((hmerged.mulVec_eq_zero_iff.1 hw).2.1 x hstate) hne
    | substituted => exact absurd (Or.inr hcase) hdeferred
    | eliminated => exact absurd (Or.inl hcase) hdeferred

/-! ## Solves and checks -/

/-- A solve that finds no redundant equation marks an unknown if it has not recovered it and some
vector that the Jacobian of the whole group maps to zero has an entry in its column. For an unknown
that has been substituted, this is the entry of its root. -/
theorem solve_free_iff (hd : ((Document.params doc g).map Prod.fst).Nodup)
    (htolerance : s.settings.freeColumnTolerance = .number 0)
    (hload : s.load doc g none = .ok (policy, t, doc'))
    (h : s.solve doc g options watch = .ok out) (hresult : out.result = .ok report)
    (hokay : report.result = .okay) (hfind : options.findFree = true)
    (hM : t.IsJacobian out.value M) (hpivots : out.system.Pivots out.value) (hfull : M.rank = m)
    {x : Fin n} {p : Param (Exact K)} (hx : out.system.params[(x : Nat)]? = some p) :
    (p.free = true ↔ ¬ Deferred p.state p.stage ∧ ∃ w, M *ᵥ w = 0 ∧ w x ≠ 0) ∧
      (p.state = .substituted → ∃ (y : Fin n) (r : Param (Exact K)),
        out.system.params[(y : Nat)]? = some r ∧ p.root = some r.handle ∧
          ∀ w, M *ᵥ w = 0 → w y = w x) := by
  have hok := SolveResult.isOkay_of_eq_okay hokay
  obtain ⟨policy₀, t₀, doc₀, _, s', hload₀, _, haccepted, _, hcompleted, hvalue, _⟩ :=
    solve_eq_ok hd h hresult hok
  obtain ⟨rfl, rfl, rfl⟩ : policy₀ = policy ∧ t₀ = t ∧ doc₀ = doc' := by
    simpa using hload₀.symm.trans hload
  obtain ⟨s₁, s₄, s₅, haccepted₁, hstill, hmark, hmarks, _⟩ := solve_marks hload h hresult hokay
  obtain rfl : s₁ = s' := Option.some.inj (Except.ok.inj (haccepted₁.symm.trans haccepted))
  rw [hfind] at hmark
  have hloads := loads_of_load hload
  have hdt : t₀.HandlesDistinct := hloads.handlesDistinct hd
  obtain ⟨u₂, u₃, hpassed⟩ := passed_of_accepted hdt haccepted
  rw [hvalue] at hM hpivots
  have hnamed := t₀.clearTags.names_cases policy₀ options
  refine ⟨?_, hpassed.exists_root hdt.clearTags (fresh_clearTags t₀) hnamed hcompleted hM.clearTags
    hpivots hx⟩
  -- The unknown has the same state where the marks are set.
  obtain ⟨p₁, hp₁, hk⟩ := hcompleted.frame.kept_of hx
  obtain ⟨p₅, hp₅, hk₅⟩ := (hstill.trans (frame_markFree hmark)).kept hp₁
  have hfree : p.free = p₅.free := by
    have hmark := congrArg (·[(x : Nat)]?) hmarks
    simpa only [List.getElem?_map, hx, hp₅, Option.map_some, Option.some.injEq] using hmark
  rw [hfree, hpassed.free_markFree hdt.clearTags (fresh_clearTags t₀) hnamed
    (settlesEqualities_simplified hdt policy₀ options) hcompleted
    (hloads.settings ▸ htolerance) hM.clearTags hpivots hfull hstill hmark hp₅, hk₅.state,
    hk₅.stage, hk.state, hk.stage]

/-- A check that finds no redundant equation has found that the rows of the Jacobian of the group
are independent. It writes back a mark for an unknown if some vector that the Jacobian maps to zero
has an entry in its column. -/
theorem check_free_iff (hload : s.load doc g none = .ok (policy, t, doc'))
    (hd : t.HandlesDistinct) (hrank : IsExactRank s.settings.rankOf)
    (htolerance : s.settings.freeColumnTolerance = .number 0) {findBad : Bool}
    (h : s.check doc g findBad true watch = .ok out) (hresult : out.result = .ok report)
    (hokay : report.result = .okay) (hM : t.IsJacobian t.lookup.value M) :
    M.rank = m ∧ out.writes.map (·.handle) = t.params.map (·.handle) ∧
      ∀ (x : Fin n) (w : Write (Exact K)), out.writes[(x : Nat)]? = some w →
        (w.free = true ↔ ∃ u, M *ᵥ u = 0 ∧ u x ≠ 0) := by
  have hsettings := (loads_of_load hload).settings
  obtain ⟨s₁, s₂, hframe, hmark, _, hwrites, hindependent⟩ := check_marks hload h hresult hokay
  obtain ⟨hmany, hfull⟩ := (independent_iff_rank hd (by rwa [hsettings]) hM).1 hindependent
  have hmoved : Frame (fun _ _ => False) t.clearTags s₂ := hframe.trans (frame_markFree hmark)
  have hhandles : out.writes.map (·.handle) = t.params.map (·.handle) := by
    rw [hwrites, writes, List.map_map]
    exact hmoved.handles_eq.trans (by simp [clearTags, Function.comp_def])
  refine ⟨hfull, hhandles, fun x w hw => ?_⟩
  obtain ⟨p, hx, rfl⟩ : ∃ p, s₂.params[(x : Nat)]? = some p ∧
      (⟨p.handle, p.value, p.free⟩ : Write (Exact K)) = w := by
    rw [hwrites, writes, List.getElem?_map] at hw
    exact Option.map_eq_some_iff.1 hw
  have hpart := hM.isPartJacobian
  rw [← t.lookup_clearTags] at hpart
  have hselect : s₁.select .live = (List.range n, List.range m) := by
    rw [select_eq_of_frame hframe, select_clearTags, hM.params, hM.equations]
  have hwritten : (s₁.linearize .live).1 = true := by
    rw [linearize_fst, hselect, List.length_range, hframe.settings]
    exact hmany
  have hzero : s₁.settings.freeColumnTolerance = .number 0 := by
    rw [hframe.settings, ← htolerance, ← hsettings]
    rfl
  rw [EquationSystem.free_markFree (hframe.handlesDistinct hd.clearTags) hzero hwritten
    (hpart.still hframe) hfull hmark hx, hselect]
  constructor
  · rintro ⟨j, hj, hkernel⟩
    obtain rfl : j = x := by simpa [Fin.ext_iff] using hj
    exact hkernel
  · exact fun hkernel => ⟨x, by simp, hkernel⟩

end

end SketchSolver.EquationSystem
