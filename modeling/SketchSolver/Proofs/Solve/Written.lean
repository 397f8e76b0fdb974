import SketchSolver.EquationTable
import SketchSolver.Proofs.Arithmetic.Exact
import SketchSolver.Proofs.Solve.Completion

/-!
# What is written back

The values written back by a solve that succeeds are those that the main iteration has accepted, for
every unknown of the main system and every one solved alone (`solve_keeps_accepted`). Recovering the
others does not undo the iteration: no equation that is not eliminated with them refers to one of
them, so the residuals at the values written back are the very ones that were accepted.
-/

namespace SketchSolver

/-- The value of a parameter after a solve: the one written back for it, or the one kept aside. -/
def Outcome.value [Scalar α] (out : Outcome δ α) (h : ParamHandle) : α :=
  match out.writes.find? (·.handle == h) with
  | some w => w.value
  | none => (out.system.foreign.lookup h).getD Scalar.undefined

namespace EquationSystem

/-- The outcome of a run keeps what its iteration has accepted. -/
structure KeepsAccepted [Scalar α] (s : EquationSystem α) (out : Outcome δ α) : Prop where
  /-- The unknowns of the main system and those solved alone are written back as they were
  accepted. -/
  writes : List.Forall₂ (fun (p : Param α) (w : Write α) => w.handle = p.handle ∧
    (p.state = .live ∨ p.state = .solvedAlone → w.value = p.value)) s.params out.writes
  /-- Nothing else has happened to the system than that the other unknowns got values. -/
  frame : Frame Deferred s out.system
  /-- None of the equations that hold already refers to an unknown that got its value later. -/
  unreferenced : ∀ q ∈ s.equations, q.state = .live ∨ q.state = .solvedAlone → ∀ p ∈ s.params,
    p.state = .eliminated ∨ p.state = .substituted → q.expr.dependsOn p.handle = false
  /-- The residuals that were accepted are those at the values written back. -/
  residuals : s.linearization.residuals = (s.equations.filter (·.state == .live)).map fun q =>
    q.expr.fold.eval (.byHandle out.value)
  judged : s.settings.judge s.linearization.residuals = .converged
  /-- A substituted unknown is written back with the value of its root. -/
  rooted : ∀ p ∈ s.params, p.state = .substituted → ∃ r ∈ s.params, p.root = some r.handle ∧
    r.state ≠ .substituted ∧ out.value p.handle = out.value r.handle

section
variable [Scalar α]

/-- The values after a solve that writes all unknowns back are those of its system. -/
theorem value_eq_lookup {out : Outcome δ α} (hd : out.system.HandlesDistinct)
    (hwrites : out.writes = out.system.writes) : out.value = out.system.lookup.value := by
  funext x
  unfold Outcome.value
  rw [hwrites, writes, List.find?_map]
  cases hfind : out.system.params.find? (·.handle == x) with
  | none =>
    have hnone : out.system.position? x = none :=
      position?_eq_none_iff.2 fun p hp => by simpa using List.find?_eq_none.1 hfind p hp
    simp [hfind, lookup, param?, hnone]
  | some p =>
    have hh : p.handle = x := by simpa using List.find?_some hfind
    rw [← hh, hd.value_eq (List.mem_of_find?_eq_some hfind)]
    simp [hh, hfind]

variable [Document δ α] {s : EquationSystem α} {doc : δ} {g : GroupHandle}
  {options : SolveOptions} {watch : Stopwatch} {out : Outcome δ α} {report : Report}

/-- A solve that succeeds has been accepted and completed. -/
theorem solve_eq_ok (hd : ((Document.params doc g).map Prod.fst).Nodup)
    (h : s.solve doc g options watch = .ok out) (hresult : out.result = .ok report)
    (hok : report.result.isOkay = true) :
    ∃ policy t doc' f s₁, s.load doc g none = .ok (policy, t, doc') ∧ s₁.HandlesDistinct ∧
      t.accepted policy options = .ok (some s₁) ∧ Accepted f t.clearTags s₁ ∧
      Completed t.clearTags s₁ out.system ∧ out.value = out.system.lookup.value ∧
      out.writes = out.system.writes := by
  unfold solve at h
  cases hload : s.load doc g none with
  | error e =>
    rw [hload] at h
    cases h
    cases hresult
  | ok loaded =>
    obtain ⟨policy, t, doc'⟩ := loaded
    rw [hload] at h
    have hloads := loads_of_load hload
    have hdt : t.HandlesDistinct := hloads.handlesDistinct hd
    obtain ⟨s₁, independent, s₂, haccepted, hrank, hfinish⟩ := solveLoaded_eq_ok h hresult hok
    obtain ⟨f, ha⟩ := accepted_eq_ok hdt haccepted
    obtain ⟨hstill, _⟩ := testRankUnless_eq_ok (fun _ _ => False) hrank
    obtain ⟨s₃, s₄, hmarked, hrecover, hsystem, hwrites⟩ := finish_eq_ok hfinish hresult hok
    have hcompleted : Completed t.clearTags s₁ out.system := by
      rw [hsystem]
      exact ha.completed hdt.clearTags (hstill.trans hmarked) hrecover
    have hd₁ : s₁.HandlesDistinct := hdt.clearTags.congr ha.prepared.handles_eq
    rw [← hsystem] at hwrites
    exact ⟨policy, t, doc', f, s₁, rfl, hd₁, haccepted, ha, hcompleted,
      value_eq_lookup (hcompleted.frame.handlesDistinct hd₁) hwrites, hwrites⟩

/-- Recovering eliminated and substituted unknowns does not undo what Newton's iteration has
accepted. -/
theorem solve_keeps_accepted (hd : ((Document.params doc g).map Prod.fst).Nodup)
    (h : s.solve doc g options watch = .ok out) (hresult : out.result = .ok report)
    (hok : report.result.isOkay = true) :
    ∃ policy t doc' s₁, s.load doc g none = .ok (policy, t, doc') ∧
      t.accepted policy options = .ok (some s₁) ∧ s₁.KeepsAccepted out := by
  obtain ⟨policy, t, doc', f, s₁, hload, hd₁, haccepted, ha, hcompleted, hvalue, hwrites⟩ :=
    solve_eq_ok hd h hresult hok
  have hframe := hcompleted.frame
  refine ⟨policy, t, doc', s₁, hload, haccepted, ?writes, hframe, ?unreferenced, ?residuals,
    ha.judged, ?rooted⟩
  case writes =>
    rw [hwrites, writes, List.forall₂_map_right_iff]
    refine hframe.params.imp fun p p' hk => ⟨hk.handle, fun hstate => hk.value fun hm => ?_⟩
    rcases hstate with hstate | hstate <;> rw [hstate] at hm <;> rcases hm with hm | hm <;> cases hm
  case unreferenced => exact fun q hq hqstate p hp => ha.prepared.not_dependsOn hd₁ hq hqstate hp
  case residuals => rw [hvalue, hcompleted.residuals ha hd₁]
  case rooted =>
    intro p hp hstate
    obtain ⟨r, hr, hname, hrstate⟩ := ha.prepared.named p hp
    obtain ⟨p₀, _, hrel⟩ := forall₂_mem_of ha.prepared.params hp
    have hroot : p.root = some r.handle := by
      rcases hrel.settled with ⟨_, hne⟩ | ⟨_, hroot⟩
      · exact absurd hstate hne
      · rw [hroot, hname, hrel.handle]
    exact ⟨r, hr, hroot, hrstate, by rw [hvalue, hname, hcompleted.value_name ha hd₁]⟩

end

/-- A group in which the first parameter equals the second, the third is fixed, the second follows
from the last two, and these add up to five. -/
def linkage : EquationTable (Exact ℚ) where
  params := [1, 2, 3, 4, 5].map fun n => { handle := ⟨n⟩, value := 0 }
  constraints :=
    [{ handle := ⟨1⟩, coincident := false, equations := [.param ⟨1⟩ - .param ⟨2⟩] },
      { handle := ⟨2⟩, coincident := false, equations := [.param ⟨3⟩ - .const (.number 3)] },
      { handle := ⟨3⟩, coincident := false,
        equations := [.param ⟨2⟩ - (.param ⟨4⟩ + .param ⟨5⟩ * .param ⟨3⟩)] },
      { handle := ⟨4⟩, coincident := false,
        equations := [.param ⟨4⟩ + .param ⟨5⟩ - .const (.number 5)] }]

/-- The linkage is solved, and its first parameter takes its value from a root that has been
recovered itself. -/
theorem solve_linkage : ((Document.params linkage EquationTable.group).map Prod.fst).Nodup ∧
    ∃ out report, solve (.empty Settings.rational) linkage EquationTable.group {} .still = .ok out ∧
      out.result = .ok report ∧ report.result.isOkay = true ∧
      out.writes.map (·.value) = [10, 10, 3, 5 / 2, 5 / 2].map .number ∧
      out.system.params.map (·.state) =
        [.substituted, .eliminated, .solvedAlone, .live, .live] ∧
      ∃ s, KeepsAccepted s out := by
  have hd : ((Document.params linkage EquationTable.group).map Prod.fst).Nodup := by decide +kernel
  have hrun : (solve (.empty Settings.rational) linkage EquationTable.group {} .still).toOption.map
      (fun out => (out.result.toOption.map (·.result), out.writes.map (·.value),
        out.system.params.map (·.state))) =
      some (some .okay, [10, 10, 3, 5 / 2, 5 / 2].map .number,
        [.substituted, .eliminated, .solvedAlone, .live, .live]) := by decide +kernel
  obtain ⟨out, hout, heq⟩ := Option.map_eq_some_iff.1 hrun
  obtain ⟨hresult, hvalues, hstates⟩ := by simpa only [Prod.mk.injEq] using heq
  obtain ⟨report, hreport, hokay⟩ := Option.map_eq_some_iff.1 hresult
  rw [toOption_eq_some] at hout hreport
  have hok : report.result.isOkay = true := by rw [hokay]; rfl
  obtain ⟨_, _, _, s, _, _, hkeeps⟩ := solve_keeps_accepted hd hout hreport hok
  exact ⟨hd, out, report, hout, hreport, hok, hvalues, hstates, s, hkeeps⟩

end EquationSystem

end SketchSolver
