import SketchSolver.Proofs.EquationSystem.Recovery
import SketchSolver.Proofs.EquationSystem.Substitution

/-!
# What the main iteration finds

Substitution, the equations solved alone and elimination come before the main iteration, and each of
them leaves its invariant to those after it. `Prepared` holds the three together: every parameter
has a name, and no equation refers to an unknown under another one; every equation solved alone
holds, and refers to one unknown that is solved alone; and the record of elimination is replayable.

None of this is a matter of the values of live, eliminated or substituted unknowns, so it is kept by
all that comes after (`Prepared.frame`): no equation of the main system, or solved alone, refers to
an unknown that is recovered later (`Prepared.not_dependsOn`).
-/

namespace SketchSolver

/-- An unknown is under its own name, or substituted by the one that `f` gives it. -/
structure Param.Prepared (f : ParamHandle → ParamHandle) (p₀ p : Param α) : Prop where
  handle : p.handle = p₀.handle
  settled : f p₀.handle = p₀.handle ∧ p.state ≠ .substituted ∨
    p.state = .substituted ∧ p.root = some (f p₀.handle)

/-- An equation is written in the names that `f` gives to the parameters, and is satisfied only if
it is an equality of two unknowns that get one name. -/
structure Equation.Prepared (f : ParamHandle → ParamHandle) (isUnknown : ParamHandle → Bool)
    (q₀ q : Equation α) : Prop where
  expr : q₀.expr.RenamedBy f q.expr
  satisfied : q.state = .satisfied → ∃ a b, q₀.expr = .binary .sub (.param a) (.param b) ∧
    isUnknown a = true ∧ isUnknown b = true ∧ f a = f b

/-- What has become of an unknown after the three passes. -/
theorem Param.Renamed.prepared {f : ParamHandle → ParamHandle} {p₀ p₁ p₂ p₃ : Param α}
    (h₁ : Param.Renamed f p₀ p₁) (h₂ : p₁.Settles p₂) (h₃ : p₂.Eliminates p₃) :
    Param.Prepared f p₀ p₃ ∧ (p₁.state = .live → p₃.state ≠ .substituted) ∧
      (p₃.state = .eliminated ∨ p₃.state = .substituted → p₃.value = p₀.value) := by
  obtain ⟨hhandle, hroot, hsettles⟩ := h₂
  have hhandle₃ : p₃.handle = p₀.handle := h₃.handle.trans (hhandle.trans h₁.handle)
  have hroot₃ : p₃.root = p₁.root := by
    rcases h₃ with rfl | ⟨_, _, rfl⟩ <;> exact hroot
  have hlive : p₁.state = .live → p₃.state ≠ .substituted := by
    intro hl
    rcases h₃ with rfl | ⟨_, _, rfl⟩
    · rcases hsettles with ⟨hsame, _⟩ | ⟨_, halone⟩
      · simp [hsame, hl]
      · simp [halone]
    · simp
  have hsubst : p₁.state = .substituted → p₃.state = .substituted := by
    intro hs
    have h₂s : p₂.state = .substituted := by
      rcases hsettles with ⟨hsame, _⟩ | ⟨hl, _⟩
      · rw [hsame, hs]
      · simp [hs] at hl
    rcases h₃ with rfl | ⟨hl, _⟩
    · exact h₂s
    · simp [h₂s] at hl
  have hvalue : p₃.state = .eliminated ∨ p₃.state = .substituted → p₃.value = p₁.value := by
    intro he
    rcases hsettles with ⟨_, hv⟩ | ⟨_, halone⟩
    · rcases h₃ with rfl | ⟨_, _, rfl⟩ <;> exact hv
    · rcases h₃ with rfl | ⟨hl, _⟩
      · simp [halone] at he
      · simp [halone] at hl
  refine ⟨⟨hhandle₃, ?_⟩, hlive, fun he => (hvalue he).trans h₁.value⟩
  rcases h₁.settled with ⟨hname, hl⟩ | ⟨hs, hr⟩
  · exact Or.inl ⟨hname, hlive hl⟩
  · exact Or.inr ⟨hsubst hs, hroot₃.trans hr⟩

/-- What has become of an equation after the three passes. -/
theorem Equation.Renamed.prepared {f : ParamHandle → ParamHandle}
    {isUnknown : ParamHandle → Bool} {q₀ q₁ q₂ q₃ : Equation α}
    (h₁ : Equation.Renamed f isUnknown q₀ q₁) (hlive : q₀.state = .live) (h₂ : q₁.Settles q₂)
    (h₃ : q₂.Eliminates q₃) : Equation.Prepared f isUnknown q₀ q₃ := by
  have hexpr : q₃.expr = q₁.expr := by
    rw [h₃.expr]
    rcases h₂ with rfl | ⟨_, _, rfl⟩ <;> rfl
  refine ⟨?_, fun hsat => ?_⟩
  · rw [hexpr]
    exact h₁.expr
  · have hsat₁ : q₁.state = .satisfied := by
      rcases h₃ with rfl | ⟨_, _, rfl⟩
      · rcases h₂ with rfl | ⟨_, _, rfl⟩
        · exact hsat
        · cases hsat
      · cases hsat
    rcases h₁.state with hsame | ⟨_, hequal⟩
    · rw [hsat₁, hlive] at hsame
      cases hsame
    · exact hequal

namespace EquationSystem

variable [Scalar α] {f : ParamHandle → ParamHandle} {t s s' : EquationSystem α}

/-- The system `s` is what substitution, the equations solved alone and elimination have made of
`t`. -/
structure Prepared (f : ParamHandle → ParamHandle) (t s : EquationSystem α) : Prop where
  settings : s.settings = t.settings
  foreign : s.foreign = t.foreign
  params : List.Forall₂ (Param.Prepared f) t.params s.params
  equations : List.Forall₂ (Equation.Prepared f t.isUnknown) t.equations s.equations
  /-- Every name is that of an unknown that is not substituted, or of no unknown. -/
  named : ∀ p ∈ s.params, ∃ r ∈ s.params, r.handle = f p.handle ∧ r.state ≠ .substituted
  other : ∀ h, s.isUnknown h = false → f h = h
  alone : ∀ q ∈ s.equations, q.state = .solvedAlone → ∃ p ∈ s.params, p.state = .solvedAlone ∧
    q.expr.referenced s.isUnknown = .exactly p.handle ∧
    SolvedFor s.settings s.lookup.value (t.lookup.value p.handle) q.expr p.handle
  replayable : s.Replayable
  covered : ∀ k q, s.equations[k]? = some q → q.state = .eliminated →
    k ∈ s.elimination.flatten.map Prod.snd

namespace Prepared

/-- The passes keep the handles of the unknowns. -/
theorem handles_eq (h : Prepared f t s) :
    s.params.map (·.handle) = t.params.map (·.handle) :=
  map_handle_eq (fun _ _ hk => hk.handle) h.params

/-- The passes keep the set of unknowns. -/
theorem isUnknown_eq (h : Prepared f t s) : s.isUnknown = t.isUnknown :=
  isUnknown_congr h.handles_eq

/-- No equation refers to a substituted unknown. -/
theorem state_ne_substituted (h : Prepared f t s) (hd : s.HandlesDistinct) {q : Equation α}
    {p : Param α} (hq : q ∈ s.equations) (hp : p ∈ s.params)
    (hdep : q.expr.dependsOn p.handle = true) : p.state ≠ .substituted := by
  obtain ⟨_, _, hrel⟩ := forall₂_mem_of h.equations hq
  exact hd.of_dependsOn_renamed h.named h.other hrel.expr hp hdep

/-- No live equation and no equation solved alone refers to an unknown that is recovered after the
main system has been solved. -/
theorem not_dependsOn (h : Prepared f t s) (hd : s.HandlesDistinct) {q : Equation α} {p : Param α}
    (hq : q ∈ s.equations) (hqstate : q.state = .live ∨ q.state = .solvedAlone)
    (hp : p ∈ s.params) (hpstate : p.state = .eliminated ∨ p.state = .substituted) :
    q.expr.dependsOn p.handle = false := by
  by_contra hdep
  rw [Bool.not_eq_false] at hdep
  have helim : p.state = .eliminated :=
    hpstate.resolve_right (h.state_ne_substituted hd hq hp hdep)
  rcases hqstate with hlive | halone
  · rw [h.replayable.live q hq hlive p hp helim] at hdep
    cases hdep
  · obtain ⟨r, hr, hrstate, href, _⟩ := h.alone q hq halone
    have hhandle : p.handle = r.handle :=
      (Expr.referenced_eq_exactly href).2.2 _ hdep (isUnknown_iff.2 ⟨p, hp, rfl⟩)
    rw [hd.param_eq hp hr hhandle, hrstate] at helim
    cases helim

/-- What comes after keeps it, as long as no unknown solved alone is moved. -/
theorem frame {moved : ParamState → Nat → Prop} (h : Prepared f t s) (hd : s.HandlesDistinct)
    (hf : Frame moved s s') (hmoved : ∀ n, ¬ moved .solvedAlone n) : Prepared f t s' where
  settings := hf.settings.trans h.settings
  foreign := hf.foreign.trans h.foreign
  params := by
    refine forall₂_of_getElem? (h.params.length_eq.trans hf.length_eq.symm)
      fun i p₀ p' hp₀ hp' => ?_
    obtain ⟨p, hp, hrel⟩ := forall₂_getElem? h.params hp₀
    obtain ⟨p₁, hp₁, hk⟩ := hf.kept_of hp'
    rw [hp] at hp₁
    cases hp₁
    refine ⟨hk.handle.trans hrel.handle, ?_⟩
    rw [hk.state, hk.root]
    exact hrel.settled
  equations := by
    rw [hf.equations]
    exact h.equations
  named p' hp' := by
    obtain ⟨p, hp, hk⟩ := hf.kept_of_mem hp'
    obtain ⟨r, hr, hrh, hstate⟩ := h.named p hp
    obtain ⟨r', hr', hrk⟩ := hf.kept_mem hr
    rw [hk.handle]
    exact ⟨r', hr', hrk.handle.trans hrh, by rwa [hrk.state]⟩
  other x hx := h.other x (by rwa [← hf.isUnknown_eq])
  alone q hq hstate := by
    rw [hf.equations] at hq
    obtain ⟨p, hp, hpstate, href, hsolved⟩ := h.alone q hq hstate
    obtain ⟨p', hp', hk⟩ := hf.kept_mem hp
    refine ⟨p', hp', hk.state.trans hpstate, ?_, ?_⟩
    · rw [hf.isUnknown_eq, hk.handle, href]
    · rw [hf.settings, hk.handle]
      refine hsolved.congr fun x hx => (hf.value_eq fun p₁ hp₁ hm => ?_).symm
      have hxp : x = p.handle :=
        (Expr.referenced_eq_exactly href).2.2 x hx (isUnknown_of_param? hp₁)
      rw [hxp, hd.param?_eq hp] at hp₁
      cases hp₁
      rw [hpstate] at hm
      exact hmoved _ hm
  replayable := h.replayable.frame hf
  covered := by
    rw [hf.equations, hf.elimination]
    exact h.covered

end Prepared

/-! ## The passes one after another -/

/-- Nothing has been done to the system. -/
structure Fresh (t : EquationSystem α) : Prop where
  params : ∀ p ∈ t.params, p.state = .live ∧ p.root = none
  equations : ∀ q ∈ t.equations, q.state = .live
  elimination : t.elimination = []

omit [Scalar α] in
/-- Clearing undoes all that has been done, but for the values. -/
theorem fresh_clearTags (t : EquationSystem α) : t.clearTags.Fresh where
  params p hp := by
    obtain ⟨p₀, _, rfl⟩ := List.mem_map.1 hp
    exact ⟨rfl, rfl⟩
  equations q hq := by
    obtain ⟨q₀, _, rfl⟩ := List.mem_map.1 hq
    rfl
  elimination := rfl

omit [Scalar α] in
/-- After substitution every unknown is live or substituted, and every equation live or
satisfied. -/
theorem Substitutes.states {s₁ : EquationSystem α} (hsub : Substitutes f t s₁) (ht : t.Fresh) :
    (∀ p ∈ s₁.params, p.state = .live ∨ p.state = .substituted) ∧
      ∀ q ∈ s₁.equations, q.state = .live ∨ q.state = .satisfied := by
  constructor
  · intro p hp
    obtain ⟨_, _, hrel⟩ := forall₂_mem_of hsub.params hp
    rcases hrel.settled with ⟨_, hlive⟩ | ⟨hsubst, _⟩
    · exact Or.inl hlive
    · exact Or.inr hsubst
  · intro q hq
    obtain ⟨q₀, hq₀, hrel⟩ := forall₂_mem_of hsub.equations hq
    rcases hrel.state with hsame | ⟨hsat, _⟩
    · exact Or.inl (hsame.trans (ht.equations q₀ hq₀))
    · exact Or.inr hsat

/-- The invariants of the two passes after substitution hold where they end. -/
theorem Substitutes.settled_recorded {s₁ s₂ : EquationSystem α} (hsub : Substitutes f t s₁)
    (hd : t.HandlesDistinct) (ht : t.Fresh) (halone : s₁.solveSingletons = .ok (true, s₂)) :
    (∃ stage, Settled s₁ stage s₂) ∧
      (∃ round, Recorded s₂ round ([] :: s₂.eliminate.2.elimination) s₂.eliminate.2) ∧
      s₂.eliminate.2.HandlesDistinct ∧ s₂.eliminate.2.Replayable := by
  have hd₁ := hsub.handlesDistinct hd
  obtain ⟨hparams₁, hequations₁⟩ := hsub.states ht
  have hinit : ∀ stage, Settled s₁ stage s₁ := fun _ =>
    .initial (fun p hp => by rcases hparams₁ p hp with h | h <;> simp [h])
      (fun q hq => by rcases hequations₁ q hq with h | h <;> simp [h])
  obtain ⟨stage, hs⟩ := (hinit _).solveAloneFrom hd₁ halone
  have helim₂ : s₂.elimination = [] :=
    (hs.elimination.trans hsub.elimination).trans ht.elimination
  have hparams₂ : ∀ p ∈ s₂.params, p.state ≠ .eliminated := by
    intro p hp
    obtain ⟨p₁, hp₁, _, _, hset⟩ := forall₂_mem_of hs.params hp
    rcases hset with ⟨hsame, _⟩ | ⟨_, halone⟩
    · rw [hsame]
      rcases hparams₁ p₁ hp₁ with h | h <;> simp [h]
    · simp [halone]
  obtain ⟨hrecorded, hd₃, hreplayable, _⟩ :=
    recorded_eliminate (hs.handlesDistinct hd₁) hparams₂ helim₂
  exact ⟨⟨stage, hs⟩, hrecorded, hd₃, hreplayable⟩

/-- The three passes prepare a system to which nothing has been done. Eliminated and substituted
unknowns have the values they had, and all others those or reasonable ones. -/
theorem prepared_eliminate {s₁ s₂ : EquationSystem α} (hd : t.HandlesDistinct) (ht : t.Fresh)
    (hsub : Substitutes f t s₁) (halone : s₁.solveSingletons = .ok (true, s₂)) :
    Prepared f t s₂.eliminate.2 ∧ StaysReasonable t s₂.eliminate.2 ∧
      List.Forall₂ (fun p₀ p : Param α => p.state = .eliminated ∨ p.state = .substituted →
        p.value = p₀.value) t.params s₂.eliminate.2.params := by
  obtain ⟨⟨stage, hs⟩, ⟨round, hr⟩, hd₃, hreplayable⟩ := hsub.settled_recorded hd ht halone
  obtain ⟨_, hequations₁⟩ := hsub.states ht
  have hd₂ := hs.handlesDistinct (hsub.handlesDistinct hd)
  generalize s₂.eliminate.2 = s₃ at hr hd₃ hreplayable ⊢
  -- What the three passes do to an unknown and to an equation, together.
  have hparams : ∀ {i : Nat} {p₀ p₃ : Param α}, t.params[i]? = some p₀ → s₃.params[i]? = some p₃ →
      ∃ p₁ p₂, s₁.params[i]? = some p₁ ∧ s₂.params[i]? = some p₂ ∧ Param.Renamed f p₀ p₁ ∧
        p₁.Settles p₂ ∧ p₂.Eliminates p₃ := by
    intro i p₀ p₃ hp₀ hp₃
    obtain ⟨p₁, hp₁, h₁⟩ := forall₂_getElem? hsub.params hp₀
    obtain ⟨p₂, hp₂, h₂⟩ := forall₂_getElem? hs.params hp₁
    obtain ⟨p₃', hp₃', h₃⟩ := forall₂_getElem? hr.params hp₂
    rw [hp₃] at hp₃'
    cases hp₃'
    exact ⟨p₁, p₂, hp₁, hp₂, h₁, h₂, h₃⟩
  have hlen : t.params.length = s₃.params.length :=
    hsub.params.length_eq.trans (hs.params.length_eq.trans hr.params.length_eq)
  have hisUnknown : s₃.isUnknown = s₂.isUnknown := isUnknown_congr hr.handles_eq
  have hlookup₁ : s₁.lookup.value = t.lookup.value :=
    lookup_value_congr (fun _ _ h => ⟨h.handle, h.value⟩) hsub.params hsub.foreign
  have hlookup₃ : s₃.lookup.value = s₂.lookup.value :=
    lookup_value_congr (fun _ _ h => ⟨h.handle, h.value⟩) hr.params hr.foreign
  refine ⟨⟨?settings, ?foreign, ?params, ?equations, ?named, ?other, ?alone, hreplayable,
    ?covered⟩, ?reasonable, ?values⟩
  case settings => exact (hr.settings.trans hs.settings).trans hsub.settings
  case foreign => exact (hr.foreign.trans hs.foreign).trans hsub.foreign
  case params =>
    refine forall₂_of_getElem? hlen fun i p₀ p₃ hp₀ hp₃ => ?_
    obtain ⟨_, _, _, _, h₁, h₂, h₃⟩ := hparams hp₀ hp₃
    exact (h₁.prepared h₂ h₃).1
  case equations =>
    have hlen' : t.equations.length = s₃.equations.length :=
      hsub.equations.length_eq.trans (hs.equations.length_eq.trans hr.equations.length_eq)
    refine forall₂_of_getElem? hlen' fun k q₀ q₃ hq₀ hq₃ => ?_
    obtain ⟨q₁, hq₁, h₁⟩ := forall₂_getElem? hsub.equations hq₀
    obtain ⟨q₂, hq₂, h₂⟩ := forall₂_getElem? hs.equations hq₁
    obtain ⟨q₃', hq₃', h₃⟩ := forall₂_getElem? hr.equations hq₂
    rw [hq₃] at hq₃'
    cases hq₃'
    exact h₁.prepared (ht.equations q₀ (List.mem_of_getElem? hq₀)) h₂ h₃
  case named =>
    intro p₃ hp₃
    obtain ⟨i, hi⟩ := List.getElem?_of_mem hp₃
    obtain ⟨p₂, hp₂, h₃⟩ := forall₂_getElem?_of hr.params hi
    obtain ⟨p₁, hp₁, h₂⟩ := forall₂_getElem?_of hs.params hp₂
    obtain ⟨r, hmem, hname, hlive⟩ := hsub.live p₁ (List.mem_of_getElem? hp₁)
    obtain ⟨j, hj⟩ := List.getElem?_of_mem hmem
    obtain ⟨r₀, hr₀, _⟩ := forall₂_getElem?_of hsub.params hj
    obtain ⟨r₂, hr₂, k₂⟩ := forall₂_getElem? hs.params hj
    obtain ⟨r₃, hr₃, k₃⟩ := forall₂_getElem? hr.params hr₂
    obtain ⟨r₁, _, hr₁, _, k₁, k₂, k₃⟩ := hparams hr₀ hr₃
    rw [hj] at hr₁
    cases hr₁
    refine ⟨r₃, List.mem_of_getElem? hr₃, ?_, (k₁.prepared k₂ k₃).2.1 hlive⟩
    rw [k₃.handle, k₂.1, hname, h₃.handle, h₂.1]
  case other =>
    intro h hunknown
    refine hsub.other h ?_
    rw [← hunknown, hisUnknown, isUnknown_congr hs.handles_eq, hsub.isUnknown_eq]
  case alone =>
    intro q hq hstate
    obtain ⟨q₂, hq₂, h₃⟩ := forall₂_mem_of hr.equations hq
    obtain rfl := h₃.eq_of_ne_eliminated (by simp [hstate])
    obtain ⟨p, hp, hpstate, _, href, hsolved⟩ := hs.solved q hq₂ hstate
    obtain ⟨p₃, hp₃, k₃⟩ := forall₂_mem hr.params hp
    obtain rfl := k₃.eq_of_ne_live (by simp [hpstate])
    refine ⟨p₃, hp₃, hpstate, by rw [hisUnknown, href], ?_⟩
    rw [hr.settings, hlookup₃, ← hlookup₁]
    exact hsolved
  case covered =>
    intro k q hk hstate
    rcases hr.covered k q hk hstate with hold | ⟨r, hmem, hin⟩
    · obtain ⟨q₁, hq₁, h₂⟩ := forall₂_getElem?_of hs.equations hold
      rcases h₂ with rfl | ⟨_, _, rfl⟩
      · rcases hequations₁ q (List.mem_of_getElem? hq₁) with h | h <;> simp [hstate] at h
      · cases hstate
    · rcases List.mem_cons.1 hmem with rfl | hmem
      · cases hin
      · obtain ⟨e, he, rfl⟩ := List.mem_map.1 hin
        exact List.mem_map.2 ⟨e, List.mem_flatten.2 ⟨r, hmem, he⟩, rfl⟩
  case reasonable =>
    have hrenamed : StaysReasonable t s₁ := hsub.params.imp fun _ _ h => Or.inl h.value
    have helim : StaysReasonable s₂ s₃ := hr.params.imp fun _ _ h => Or.inl h.value
    have hset₂ : s₂.settings = t.settings := hs.settings.trans hsub.settings
    exact (hrenamed.trans hsub.settings hs.reasonable).trans hset₂ helim
  case values =>
    refine forall₂_of_getElem? hlen fun i p₀ p₃ hp₀ hp₃ => ?_
    obtain ⟨_, _, _, _, h₁, h₂, h₃⟩ := hparams hp₀ hp₃
    exact (h₁.prepared h₂ h₃).2.2

end EquationSystem

end SketchSolver
