import SketchSolver.Proofs.Arithmetic.Exact
import SketchSolver.Proofs.EquationSystem.Elimination

/-!
# What the record of an elimination is good for

The record tells in which order eliminated unknowns are recovered and from which equations. The
invariant of a run (`Recorded`) says of every entry which equations were open at its round, and that
is enough: an equation that refers to an eliminated unknown, and was not retired when the unknown
was claimed, is the one that defines it (`Recorded.eq_of_dependsOn`). So no equation defines two
unknowns (`Claimed.entry_eq`), no live equation refers to an eliminated unknown, and the equation
of an entry refers to no unknown that is recovered behind it.

`Replayable` collects what recovery relies on. Every run of elimination ends in a record of that
kind (`Recorded.replayable`).
-/

namespace SketchSolver.EquationSystem

variable {s start : EquationSystem α} {round ρ ρ' i i' k k' : Nat} {h h' : ParamHandle}
  {rounds : List EliminationRound}

section
variable [Scalar α]

/-- The unknowns that have been eliminated can be recovered in the order of the record. -/
structure Replayable (s : EquationSystem α) : Prop where
  /-- No unknown is in two rounds, or twice in one. -/
  handles_nodup : (s.elimination.flatten.map Prod.fst).Nodup
  /-- No equation defines two unknowns. -/
  equations_nodup : (s.elimination.flatten.map Prod.snd).Nodup
  /-- The unknowns of the record are the eliminated ones. -/
  mem_iff : ∀ h, h ∈ s.elimination.flatten.map Prod.fst ↔
    ∃ p ∈ s.params, p.handle = h ∧ p.state = .eliminated
  /-- The equation of an unknown has been eliminated with it, and can be solved for it. -/
  defining : ∀ e ∈ s.elimination.flatten, ∃ q, s.equations[e.2]? = some q ∧
    q.state = .eliminated ∧ q.expr.fold.canIsolate e.1 = true
  /-- No unknown that is being dragged has been eliminated. -/
  notDragged : ∀ p ∈ s.params, p.state = .eliminated → s.isDragged p.handle = false
  /-- No live equation refers to an eliminated unknown. -/
  live : ∀ q ∈ s.equations, q.state = .live → ∀ p ∈ s.params, p.state = .eliminated →
    q.expr.dependsOn p.handle = false
  /-- Beside its own unknown, the equation of an entry refers to none of the same round, nor of a
  round that was found earlier and so stands behind it. -/
  layered : ∀ (j j' : Nat) (r r' : EliminationRound), s.elimination[j]? = some r →
    s.elimination[j']? = some r' → j ≤ j' → ∀ e ∈ r, ∀ e' ∈ r', e ≠ e' →
      ∀ q, s.equations[e.2]? = some q → q.expr.dependsOn e'.1 = false

/-- The record has no unknown twice, and no equation in it refers to another unknown of its own
round or of one that stands behind it. -/
structure Layered (s : EquationSystem α) : Prop where
  handles_nodup : (s.elimination.flatten.map Prod.fst).Nodup
  layered : ∀ (j j' : Nat) (r r' : EliminationRound), s.elimination[j]? = some r →
    s.elimination[j']? = some r' → j ≤ j' → ∀ e ∈ r, ∀ e' ∈ r', e ≠ e' →
      ∀ q, s.equations[e.2]? = some q → q.expr.dependsOn e'.1 = false

omit [Scalar α] in
/-- No equation of a record in layers refers to an unknown that is recovered behind its own. -/
theorem Layered.pairwise (hr : s.Layered) :
    s.elimination.flatten.Pairwise fun e e' =>
      ∀ q, s.equations[e.2]? = some q → q.expr.dependsOn e'.1 = false := by
  refine List.pairwise_flatten.2 ⟨fun r hmem => ?_, ?_⟩
  · obtain ⟨j, hj⟩ := List.getElem?_of_mem hmem
    have hnodup : r.Nodup :=
      (List.nodup_flatten.1 (List.Nodup.of_map _ hr.handles_nodup)).1 r hmem
    exact hnodup.imp_of_mem fun he he' hne =>
      hr.layered j j r r hj hj (Nat.le_refl j) _ he _ he' hne
  · rw [List.pairwise_iff_getElem]
    intro j j' hj hj' hlt e he e' he'
    have hne : e ≠ e' := by
      rintro rfl
      have hdisj := (List.nodup_flatten.1 (List.Nodup.of_map _ hr.handles_nodup)).2
      exact List.pairwise_iff_getElem.1 hdisj j j' hj hj' hlt he he'
    exact hr.layered j j' _ _ (List.getElem?_eq_getElem hj) (List.getElem?_eq_getElem hj')
      (Nat.le_of_lt hlt) e he e' he' hne

/-- An equation of a record that can be replayed does not refer to the unknowns after its own. -/
theorem Replayable.pairwise (hr : s.Replayable) :
    s.elimination.flatten.Pairwise fun e e' =>
      ∀ q, s.equations[e.2]? = some q → q.expr.dependsOn e'.1 = false :=
  Layered.pairwise ⟨hr.handles_nodup, hr.layered⟩

/-- The equation that an unknown was claimed with is not retired at the round, and refers to it. -/
theorem Claimed.mem (hc : Claimed start.references ρ s i h k) :
    k ∈ s.openEquations start.references ρ i := by
  rw [hc.alone]
  exact List.mem_singleton.2 rfl

/-- What was claimed was live at the start. -/
theorem Claimed.isLiveAt (hc : Claimed start.references ρ s i h k) : start.isLiveAt i = true := by
  obtain ⟨_, _, _, hlive, _⟩ := mem_unknownsOf_references.1 (mem_openEquations.1 hc.mem).1
  exact hlive

/-- An equation that was claimed with two unknowns was claimed with one at one time: at a later
round it would be retired, and in one round the other unknown would be left without an equation. -/
theorem Claimed.position_eq (hc : Claimed start.references ρ s i h k)
    (hc' : Claimed start.references ρ' s i' h' k) : i = i' := by
  obtain ⟨q, hq, _, hstage, _⟩ := hc.equation
  obtain ⟨q', hq', _, hstage', _⟩ := hc'.equation
  rw [hq] at hq'
  cases hq'
  obtain rfl : ρ = ρ' := hstage.symm.trans hstage'
  by_contra hne
  have hother := hc.backed
  simp only [canRemove, List.all_eq_true, List.mem_filter, bne_iff_ne] at hother
  have hmem := (mem_openEquations.1 hc'.mem).1
  have hopen := hother i' ⟨hmem, Ne.symm hne⟩
  rw [hc'.alone] at hopen
  simp at hopen

/-- Entries of one equation are one. -/
theorem Claimed.entry_eq {e e' : ParamHandle × Nat} (hc : Claimed start.references ρ s i e.1 e.2)
    (hc' : Claimed start.references ρ' s i' e'.1 e'.2) (hk : e.2 = e'.2) : e = e' := by
  rw [← hk] at hc'
  obtain rfl : i = i' := hc.position_eq hc'
  obtain ⟨p, hp, hph, _⟩ := hc.param
  obtain ⟨p', hp', hph', _⟩ := hc'.param
  rw [hp] at hp'
  cases hp'
  exact Prod.ext (hph.symm.trans hph') hk

/-- The equation of a claimed unknown was live at the start. -/
theorem Claimed.exists_live (hc : Claimed start.references ρ s i h k) :
    ∃ q, start.equations[k]? = some q ∧ q.state = .live := by
  obtain ⟨q, hq, hlive, _⟩ := mem_unknownsOf_references.1 (mem_openEquations.1 hc.mem).1
  exact ⟨q, hq, hlive⟩

namespace Recorded

/-- Every entry of the record was claimed. -/
theorem claimed_of_mem (hr : Recorded start round ([] :: rounds) s) {e : ParamHandle × Nat}
    (he : e ∈ rounds.flatten) : ∃ i ρ, Claimed start.references ρ s i e.1 e.2 := by
  obtain ⟨r, hmem, he⟩ := List.mem_flatten.1 he
  obtain ⟨j, hj⟩ := List.getElem?_of_mem hmem
  obtain ⟨i, hc⟩ := hr.claimed (j + 1) r hj e he
  exact ⟨i, _, hc⟩

/-- Every eliminated unknown is in the record, if there was none before. -/
theorem mem_of_eliminated (hr : Recorded start round ([] :: rounds) s)
    (hparams : ∀ p ∈ start.params, p.state ≠ .eliminated) {p : Param α}
    (hp : p ∈ s.params) (hstate : p.state = .eliminated) :
    p.handle ∈ rounds.flatten.map Prod.fst := by
  obtain ⟨i, hi⟩ := List.getElem?_of_mem hp
  obtain ⟨r, hmem, hin⟩ := (hr.complete i p hi hstate).resolve_left fun hold =>
    hparams p (List.mem_of_getElem? hold) hstate
  rcases List.mem_cons.1 hmem with rfl | hmem
  · cases hin
  · obtain ⟨e, he, heq⟩ := List.mem_map.1 hin
    exact List.mem_map.2 ⟨e, List.mem_flatten.2 ⟨r, hmem, he⟩, heq⟩

/-- An equation that refers to a claimed unknown and was not retired at its round defines it. -/
theorem eq_of_dependsOn (hr : Recorded start round rounds s)
    (hc : Claimed start.references ρ s i h k) {q₀ q : Equation α}
    (hq₀ : start.equations[k']? = some q₀) (hlive : q₀.state = .live)
    (hq : s.equations[k']? = some q) (hdep : q.expr.dependsOn h = true)
    (hopen : s.isRetired ρ k' = false) : k' = k := by
  obtain ⟨q', hq', hrel⟩ := forall₂_getElem? hr.equations hq₀
  rw [hq] at hq'
  cases hq'
  have hmem : i ∈ start.references.unknownsOf.getD k' [] :=
    mem_unknownsOf_references.2 ⟨q₀, hq₀, hlive, hc.isLiveAt, h, by rwa [← hrel.expr],
      hr.position?_of_claimed hc⟩
  have hin : k' ∈ s.openEquations start.references ρ i := mem_openEquations.2 ⟨hmem, hopen⟩
  rw [hc.alone] at hin
  exact List.mem_singleton.1 hin

/-- Entries of one handle have one round and one equation. -/
theorem claimed_unique (hr : Recorded start round rounds s)
    (hc : Claimed start.references ρ s i h k) (hc' : Claimed start.references ρ' s i' h k') :
    ρ = ρ' ∧ k = k' := by
  obtain rfl : i = i' := by
    have hpos := hr.position?_of_claimed hc
    rw [hr.position?_of_claimed hc'] at hpos
    exact (Option.some.inj hpos).symm
  obtain ⟨p, hp, _, _, hstage⟩ := hc.param
  obtain ⟨p', hp', _, _, hstage'⟩ := hc'.param
  rw [hp] at hp'
  cases hp'
  obtain rfl : ρ = ρ' := hstage.symm.trans hstage'
  refine ⟨rfl, ?_⟩
  have hk := hc.alone
  rw [hc'.alone] at hk
  exact (List.singleton_inj.1 hk).symm

/-- The unknowns of different rounds are different. -/
theorem handles_nodup (hr : Recorded start round rounds s) :
    (rounds.flatten.map Prod.fst).Nodup := by
  rw [List.map_flatten, List.nodup_flatten]
  refine ⟨fun handles hmem => ?_, List.pairwise_map.2 (List.pairwise_iff_getElem.2 ?_)⟩
  · obtain ⟨r, hr', rfl⟩ := List.mem_map.1 hmem
    exact (hr.ascending r hr').nodup
  · intro j j' hj hj' hlt h hin hin'
    obtain ⟨e, he, rfl⟩ := List.mem_map.1 hin
    obtain ⟨e', he', heq⟩ := List.mem_map.1 hin'
    obtain ⟨i, hc⟩ := hr.claimed j _ (List.getElem?_eq_getElem hj) e he
    obtain ⟨i', hc'⟩ := hr.claimed j' _ (List.getElem?_eq_getElem hj') e' he'
    rw [heq] at hc'
    have hround := (hr.claimed_unique hc hc').1
    have hlen := hr.length_le
    omega

/-- Two entries of the record with one equation are one entry. -/
theorem equations_nodup (hr : Recorded start round rounds s) :
    (rounds.flatten.map Prod.snd).Nodup := by
  refine List.Nodup.map_on (fun e he e' he' heq => ?_) (List.Nodup.of_map _ hr.handles_nodup)
  obtain ⟨r, hmem, he⟩ := List.mem_flatten.1 he
  obtain ⟨r', hmem', he'⟩ := List.mem_flatten.1 he'
  obtain ⟨j, hj⟩ := List.getElem?_of_mem hmem
  obtain ⟨j', hj'⟩ := List.getElem?_of_mem hmem'
  obtain ⟨i, hc⟩ := hr.claimed j r hj e he
  obtain ⟨i', hc'⟩ := hr.claimed j' r' hj' e' he'
  exact hc.entry_eq hc' heq

/-- A run that has ended leaves a record in layers. -/
theorem layered (hr : Recorded start round ([] :: s.elimination) s) : s.Layered where
  handles_nodup := hr.handles_nodup
  layered j j' r r' hj hj' hle e he e' he' hne q hq := by
    obtain ⟨i, hc⟩ := hr.claimed (j + 1) r hj e he
    obtain ⟨i', hc'⟩ := hr.claimed (j' + 1) r' hj' e' he'
    obtain ⟨q₀, hq₀, hlive₀⟩ := hc.exists_live
    obtain ⟨q', hq', hstate, hstage, _⟩ := hc.equation
    rw [hq] at hq'
    cases hq'
    by_contra hdep
    rw [Bool.not_eq_false] at hdep
    have hopen : s.isRetired (round - (j' + 1)) e.2 = false := by
      simp only [isRetired, hq, hstage, Bool.and_eq_false_iff, decide_eq_false_iff_not]
      right
      omega
    exact hne (hc.entry_eq hc' (hr.eq_of_dependsOn hc' hq₀ hlive₀ hq hdep hopen))

/-- If nothing was eliminated before the run, the record is replayable. -/
theorem replayable (hr : Recorded start round ([] :: s.elimination) s)
    (hparams : ∀ p ∈ start.params, p.state ≠ .eliminated) : s.Replayable where
  handles_nodup := hr.handles_nodup
  equations_nodup := hr.equations_nodup
  mem_iff h := by
    constructor
    · intro hin
      obtain ⟨e, he, rfl⟩ := List.mem_map.1 hin
      obtain ⟨i, ρ, hc⟩ := hr.claimed_of_mem he
      obtain ⟨p, hp, hph, hstate, _⟩ := hc.param
      exact ⟨p, List.mem_of_getElem? hp, hph, hstate⟩
    · rintro ⟨p, hp, rfl, hstate⟩
      exact hr.mem_of_eliminated hparams hp hstate
  defining e he := by
    obtain ⟨i, ρ, hc⟩ := hr.claimed_of_mem he
    obtain ⟨q, hq, hstate, _, hiso⟩ := hc.equation
    exact ⟨q, hq, hstate, hiso⟩
  notDragged p hp hstate := by
    obtain ⟨e, he, heq⟩ := List.mem_map.1 (hr.mem_of_eliminated hparams hp hstate)
    obtain ⟨i, ρ, hc⟩ := hr.claimed_of_mem he
    rw [← heq]
    exact hc.notDragged
  live q hq hlive p hp hstate := by
    obtain ⟨e, he, heq⟩ := List.mem_map.1 (hr.mem_of_eliminated hparams hp hstate)
    obtain ⟨i, ρ, hc⟩ := hr.claimed_of_mem he
    obtain ⟨k, hk⟩ := List.getElem?_of_mem hq
    obtain ⟨q₀, hq₀, hrel⟩ := forall₂_getElem?_of hr.equations hk
    obtain ⟨q', hq', hstate', _⟩ := hc.equation
    by_contra hdep
    rw [Bool.not_eq_false, ← heq] at hdep
    have hopen : s.isRetired ρ k = false := by simp [isRetired, hk, hlive]
    have hlive₀ : q₀.state = .live := by
      rcases hrel with rfl | ⟨hl, _, rfl⟩
      · exact hlive
      · exact hl
    rw [hr.eq_of_dependsOn hc hq₀ hlive₀ hk hdep hopen, hq'] at hk
    cases hk
    rw [hlive] at hstate'
    cases hstate'
  layered := hr.layered.layered

end Recorded

/-! ## Elimination -/

/-- A run of elimination puts the rounds that it has found before those that the record held, and
tells the number of unknowns in them. -/
theorem exists_recorded_eliminate (s : EquationSystem α) :
    ∃ round added, Recorded s round ([] :: added) s.eliminate.2 ∧
      s.eliminate.2.elimination = added ++ s.elimination ∧
      s.eliminate.1 = added.flatten.length := by
  obtain ⟨round, added, hr, hadded, hcount⟩ := Recorded.eliminateRounds (s.params.length + 1)
    firstRound s [] (.initial s) s.eliminate.1 s.eliminate.2 rfl
  rw [List.append_nil] at hr
  exact ⟨round, added, hr, hadded, hcount⟩

/-- A run of elimination from a system in which all handles are different and nothing is eliminated:
handles stay different, the record can be replayed, and the number of eliminated unknowns is
told. -/
theorem recorded_eliminate (hd : s.HandlesDistinct)
    (hparams : ∀ p ∈ s.params, p.state ≠ .eliminated) (helim : s.elimination = []) :
    (∃ round, Recorded s round ([] :: s.eliminate.2.elimination) s.eliminate.2) ∧
      s.eliminate.2.HandlesDistinct ∧ s.eliminate.2.Replayable ∧
      s.eliminate.1 = s.eliminate.2.params.countP (·.state == .eliminated) := by
  obtain ⟨round, added, hr, hadded, hcount⟩ := s.exists_recorded_eliminate
  rw [helim, List.append_nil] at hadded
  rw [← hadded] at hr hcount
  refine ⟨⟨round, hr⟩, hr.handlesDistinct hd, hr.replayable hparams, ?_⟩
  have hnone : s.params.countP (·.state == .eliminated) = 0 :=
    List.countP_eq_zero.2 fun p hp => by simpa using hparams p hp
  rw [hr.count, hnone, hcount, Nat.zero_add]
  rfl

/-- Elimination ends by itself, whatever larger number of rounds is allowed; it tells how many
unknowns it has eliminated; it changes live unknowns and equations to eliminated ones and nothing
else; and it leaves a record in whose order every unknown is recovered before it is read. -/
theorem eliminate_correct (hd : s.HandlesDistinct)
    (hparams : ∀ p ∈ s.params, p.state ≠ .eliminated) (helim : s.elimination = []) :
    (∀ fuel, s.params.length < fuel →
        eliminateRounds s.references fuel firstRound s = s.eliminate) ∧
      s.eliminate.1 = s.eliminate.2.params.countP (·.state == .eliminated) ∧
      List.Forall₂ Param.Eliminates s.params s.eliminate.2.params ∧
      List.Forall₂ Equation.Eliminates s.equations s.eliminate.2.equations ∧
      s.eliminate.2.Replayable ∧
      s.eliminate.2.elimination.flatten.Pairwise fun e e' =>
        ∀ q, s.eliminate.2.equations[e.2]? = some q → q.expr.dependsOn e'.1 = false := by
  obtain ⟨⟨round, hr⟩, _, hreplayable, hcount⟩ := recorded_eliminate hd hparams helim
  refine ⟨fun fuel hfuel => ?_, hcount, hr.params, hr.equations, hreplayable,
    hreplayable.pairwise⟩
  exact eliminateRounds_congr s.references fuel (s.params.length + 1) firstRound s
    (Nat.lt_add_right _ hfuel) (by omega)

end

/-- Five unknowns, of which the first is one more than the second, the second is the third
with itself, and the third is what the last two add up to. -/
def chain : EquationSystem (Exact ℚ) :=
  { empty Settings.rational with
    params := [1, 2, 3, 4, 5].map fun n => { handle := ⟨n⟩, value := 0 }
    equations :=
      [{ handle := ⟨.constraint ⟨1⟩, 0⟩, expr := .param ⟨1⟩ - (.param ⟨2⟩ + .const 1) },
        { handle := ⟨.constraint ⟨2⟩, 0⟩, expr := .param ⟨2⟩ - (.param ⟨3⟩ + .param ⟨3⟩) },
        { handle := ⟨.constraint ⟨3⟩, 0⟩, expr := .param ⟨3⟩ - (.param ⟨4⟩ + .param ⟨5⟩) }] }

/-- On the chain two rounds eliminate one unknown each, and the second one is recovered first. -/
theorem eliminate_chain : chain.HandlesDistinct ∧ (∀ p ∈ chain.params, p.state ≠ .eliminated) ∧
    chain.elimination = [] ∧ chain.eliminate.2.elimination = [[(⟨2⟩, 1)], [(⟨1⟩, 0)]] ∧
    chain.eliminate.1 = 2 ∧ chain.eliminate.2.Replayable := by
  have hd : chain.HandlesDistinct := by decide +kernel
  have hlive : ∀ p ∈ chain.params, p.state ≠ .eliminated := by decide +kernel
  have helim : chain.elimination = [] := rfl
  obtain ⟨_, _, _, _, hreplayable, _⟩ := eliminate_correct hd hlive helim
  exact ⟨hd, hlive, helim, by decide +kernel, by decide +kernel, hreplayable⟩

end SketchSolver.EquationSystem
