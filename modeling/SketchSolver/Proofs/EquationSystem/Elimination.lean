import SketchSolver.EquationSystem.Elimination
import SketchSolver.Proofs.EquationSystem.Frame
import SketchSolver.Proofs.HandleTable

/-!
# The record of an elimination

An unknown is eliminated in a round if one equation that refers to it is open at that round, and no
other unknown of that equation is left with nothing (`Claimed`). Which equations are open at a round
is not changed by what is claimed at it or later (`openEquations_claim`), so what held of an unknown
when it was claimed holds of it at the end of the run. `Recorded` is this invariant, kept by every
step (`Recorded.eliminateAt`) and so by every run (`Recorded.eliminateRounds`).

The number of rounds needs no bound of its own: every round but the last eliminates an unknown, so
any two bounds above the number of unknowns give the same run (`eliminateRounds_congr`).
-/

namespace SketchSolver

/-- One more element counts where one is changed into an element that counts. -/
theorem countP_modify {p : β → Bool} {f : β → β} :
    ∀ {l : List β} {i : Nat} {x : β}, l[i]? = some x → p x = false → p (f x) = true →
      (l.modify i f).countP p = l.countP p + 1
  | y :: l, 0, x, hx, hp, hf => by
    cases hx
    rw [List.modify_zero_cons, List.countP_cons_of_pos hf, List.countP_cons_of_neg (by simp [hp])]
  | y :: l, i + 1, x, hx, hp, hf => by
    have hrest : l[i]? = some x := hx
    rw [List.modify_succ_cons, List.countP_cons, List.countP_cons, countP_modify hrest hp hf]
    omega

/-! ## References -/

/-- An equation refers to an unknown if the unknown is one of the equation. -/
theorem ReferenceGraph.mem_equationsOf {g : ReferenceGraph} {i k : Nat} :
    k ∈ g.equationsOf i ↔ i ∈ g.unknownsOf.getD k [] := by
  unfold ReferenceGraph.equationsOf
  rw [List.mem_filterMap, List.getD_eq_getElem?_getD]
  constructor
  · rintro ⟨⟨unknowns, j⟩, hmem, hj⟩
    simp only [Option.ite_none_right_eq_some, Option.some.injEq] at hj
    obtain ⟨hcontains, rfl⟩ := hj
    rw [List.mem_zipIdx_iff_getElem?] at hmem
    rw [hmem]
    simpa using hcontains
  · intro hi
    cases hk : g.unknownsOf[k]? with
    | none => simp [hk] at hi
    | some unknowns =>
      rw [hk] at hi
      exact ⟨(unknowns, k), List.mem_zipIdx_iff_getElem?.2 hk, by simpa using hi⟩

/-- An unknown is one it was, or was live and has been eliminated. -/
def Param.Eliminates (p p' : Param α) : Prop :=
  p' = p ∨ p.state = .live ∧ ∃ n, p' = { p with state := .eliminated, stage := n }

/-- An equation is the one it was, or was live and has been eliminated. -/
def Equation.Eliminates (q q' : Equation α) : Prop :=
  q' = q ∨ q.state = .live ∧ ∃ n, q' = { q with state := .eliminated, stage := n }

/-- Elimination keeps the handle of an unknown. -/
theorem Param.Eliminates.handle {p p' : Param α} (h : p.Eliminates p') : p'.handle = p.handle := by
  rcases h with rfl | ⟨_, n, rfl⟩ <;> rfl

/-- Elimination keeps the value of an unknown. -/
theorem Param.Eliminates.value {p p' : Param α} (h : p.Eliminates p') : p'.value = p.value := by
  rcases h with rfl | ⟨_, n, rfl⟩ <;> rfl

/-- Elimination changes live unknowns only. -/
theorem Param.Eliminates.eq_of_ne_live {p p' : Param α} (h : p.Eliminates p')
    (hstate : p.state ≠ .live) : p' = p :=
  h.resolve_right fun hlive => hstate hlive.1

/-- What elimination has not eliminated is as it was. -/
theorem Param.Eliminates.eq_of_ne_eliminated {p p' : Param α} (h : p.Eliminates p')
    (hstate : p'.state ≠ .eliminated) : p' = p := by
  rcases h with h | ⟨_, n, rfl⟩
  · exact h
  · exact absurd rfl hstate

/-- Elimination changes live equations only. -/
theorem Equation.Eliminates.eq_of_ne_live {q q' : Equation α} (h : q.Eliminates q')
    (hstate : q.state ≠ .live) : q' = q :=
  h.resolve_right fun hlive => hstate hlive.1

/-- An equation that elimination has not eliminated is as it was. -/
theorem Equation.Eliminates.eq_of_ne_eliminated {q q' : Equation α} (h : q.Eliminates q')
    (hstate : q'.state ≠ .eliminated) : q' = q := by
  rcases h with h | ⟨_, n, rfl⟩
  · exact h
  · exact absurd rfl hstate

/-- Elimination keeps the expression of an equation. -/
theorem Equation.Eliminates.expr {q q' : Equation α} (h : q.Eliminates q') : q'.expr = q.expr := by
  rcases h with rfl | ⟨_, n, rfl⟩ <;> rfl

namespace EquationSystem

variable {s t : EquationSystem α} {g : ReferenceGraph} {round ρ i k : Nat} {h : ParamHandle}

/-- A live equation refers to the live unknowns that it depends on. -/
theorem mem_unknownsOf_references : i ∈ s.references.unknownsOf.getD k [] ↔
    ∃ q, s.equations[k]? = some q ∧ q.state = .live ∧ s.isLiveAt i = true ∧
      ∃ h, q.expr.dependsOn h = true ∧ s.position? h = some i := by
  simp only [references, List.getD_eq_getElem?_getD, List.getElem?_map]
  cases hk : s.equations[k]? with
  | none => simp
  | some q =>
    by_cases hlive : q.state = .live
    · simp only [Option.map_some, hlive, beq_self_eq_true, if_true, Option.getD_some,
        List.mem_filter, List.mem_filterMap, Expr.mem_params, Option.some.injEq, exists_eq_left']
      constructor
      · rintro ⟨⟨x, hx, hpos⟩, hl⟩
        exact ⟨trivial, hl, x, hx, hpos⟩
      · rintro ⟨_, hl, x, hx, hpos⟩
        exact ⟨⟨x, hx, hpos⟩, hl⟩
    · simp [hlive]

/-! ## One step -/

/-- The system with the unknown at a position and the equation at another one settled in a round of
elimination. -/
def claim (s : EquationSystem α) (round i k : Nat) : EquationSystem α :=
  (s.updateEquation k fun q => { q with state := .eliminated, stage := round }).updateParam i
    fun p => { p with state := .eliminated, stage := round }

/-- A claim changes the unknown at its own position, to one that is eliminated in the round. -/
theorem param_claim (j : Nat) : (s.claim round i k).params[j]? =
    if i = j then s.params[j]?.map fun p => { p with state := .eliminated, stage := round }
    else s.params[j]? := by
  simp only [claim, updateParam, updateEquation, List.getElem?_modify]
  split <;> simp

/-- A claim changes the equation at its own position, to one that is eliminated in the round. -/
theorem equation_claim (j : Nat) : (s.claim round i k).equations[j]? =
    if k = j then s.equations[j]?.map fun q => { q with state := .eliminated, stage := round }
    else s.equations[j]? := by
  simp only [claim, updateParam, updateEquation, List.getElem?_modify]
  split <;> simp

section
variable [Scalar α]

/-- What is asked of an unknown and an equation before they are eliminated. -/
theorem definingEquation?_eq_some (hdef : s.definingEquation? g round i = some (h, k)) :
    (∃ p, s.params[i]? = some p ∧ p.handle = h ∧ p.state = .live) ∧ s.isDragged h = false ∧
      s.openEquations g round i = [k] ∧ s.canRemove g round i k = true ∧
      ∃ q, s.equations[k]? = some q ∧ q.expr.fold.canIsolate h = true := by
  unfold definingEquation? at hdef
  cases hp : s.params[i]? with
  | none => simp [hp] at hdef
  | some p =>
    simp only [hp] at hdef
    split at hdef
    · cases hdef
    · next hlive =>
      simp only [Bool.or_eq_true, bne_iff_ne, not_or, not_not, Bool.not_eq_true] at hlive
      split at hdef
      · next j hopen =>
        cases hq : s.equations[j]? with
        | none => simp [hq] at hdef
        | some q =>
          simp only [hq, Option.ite_none_right_eq_some, Bool.and_eq_true, Option.some.injEq,
            Prod.mk.injEq] at hdef
          obtain ⟨⟨hremove, hiso⟩, rfl, rfl⟩ := hdef
          exact ⟨⟨p, rfl, rfl, hlive.1⟩, hlive.2, hopen, hremove, q, hq, hiso⟩
      · cases hdef

/-- A step of elimination claims an unknown and its equation, or changes nothing. -/
theorem eliminateAt_cases (g : ReferenceGraph) (round : Nat) (found : EliminationRound)
    (s : EquationSystem α) (i : Nat) :
    eliminateAt g round (found, s) i = (found, s) ∨
      ∃ h k, s.definingEquation? g round i = some (h, k) ∧
        eliminateAt g round (found, s) i =
          (HandleTable.insert h k found, s.claim round i k) := by
  simp only [eliminateAt]
  cases hdef : s.definingEquation? g round i with
  | none => exact Or.inl rfl
  | some e => exact Or.inr ⟨e.1, e.2, rfl, rfl⟩

end

/-! ## Open equations -/

/-- An equation that is open at a round is not retired at it, and refers to the unknown. -/
theorem mem_openEquations : k ∈ s.openEquations g round i ↔
    i ∈ g.unknownsOf.getD k [] ∧ s.isRetired round k = false := by
  simp [openEquations, ReferenceGraph.mem_equationsOf]

/-- An equation that is not retired at a round was not retired at an earlier one. -/
theorem isRetired_mono (hle : ρ ≤ round) (hk : s.isRetired round k = false) :
    s.isRetired ρ k = false := by
  unfold isRetired at hk ⊢
  cases hq : s.equations[k]? with
  | none => simp [hq] at hk
  | some q =>
    simp only [hq, Bool.and_eq_false_iff, decide_eq_false_iff_not] at hk ⊢
    exact hk.imp id fun hlt => by omega

/-- Claiming an equation that is not retired retires none at its round or an earlier one. -/
theorem isRetired_claim (hle : ρ ≤ round) (hk : s.isRetired round k = false) (j : Nat) :
    (s.claim round i k).isRetired ρ j = s.isRetired ρ j := by
  by_cases hkj : k = j
  · subst hkj
    rw [isRetired_mono hle hk]
    unfold isRetired
    rw [equation_claim, if_pos rfl]
    cases hq : s.equations[k]? with
    | none => simp [isRetired, hq] at hk
    | some q => simpa using hle
  · unfold isRetired
    rw [equation_claim, if_neg hkj]

/-- A claim leaves open what was open at its round or an earlier one. -/
theorem openEquations_claim (hle : ρ ≤ round) (hk : s.isRetired round k = false) (j : Nat) :
    (s.claim round i k).openEquations g ρ j = s.openEquations g ρ j := by
  unfold openEquations
  exact List.filter_congr fun x _ => by rw [isRetired_claim hle hk]

/-- A claim leaves what can be removed at its round or an earlier one. -/
theorem canRemove_claim (hle : ρ ≤ round) (hk : s.isRetired round k = false) (j l : Nat) :
    (s.claim round i k).canRemove g ρ j l = s.canRemove g ρ j l := by
  unfold canRemove
  simp only [openEquations_claim hle hk]

/-! ## The number of rounds -/

/-- How many unknowns are not live any more. -/
def countSettled (s : EquationSystem α) : Nat :=
  s.params.countP (·.state != .live)

/-- No more unknowns are settled than there are. -/
theorem countSettled_le (s : EquationSystem α) : s.countSettled ≤ s.params.length :=
  List.countP_le_length

section
variable [Scalar α]

/-- Claiming an unknown settles one more. -/
theorem countSettled_claim (hdef : s.definingEquation? g round i = some (h, k)) :
    (s.claim round i k).countSettled = s.countSettled + 1 := by
  obtain ⟨⟨p, hp, _, hlive⟩, _⟩ := definingEquation?_eq_some hdef
  exact countP_modify hp (by simp [hlive]) rfl

/-- A round settles an unknown, unless it finds nothing. -/
theorem countSettled_eliminationRound (g : ReferenceGraph) (round : Nat) (s : EquationSystem α) :
    (eliminationRound g round s).2.params.length = s.params.length ∧
      ((eliminationRound g round s).1 ≠ [] →
        s.countSettled < (eliminationRound g round s).2.countSettled) := by
  -- Nothing that is settled becomes live again, so one step that claims is enough.
  have hfold : ∀ (positions : List Nat) (found : EliminationRound) (t : EquationSystem α),
      s.countSettled ≤ t.countSettled → (found ≠ [] → s.countSettled < t.countSettled) →
      (positions.foldl (eliminateAt g round) (found, t)).2.params.length = t.params.length ∧
        ((positions.foldl (eliminateAt g round) (found, t)).1 ≠ [] →
          s.countSettled < (positions.foldl (eliminateAt g round) (found, t)).2.countSettled) := by
    intro positions
    induction positions with
    | nil => exact fun found t _ hfound => ⟨rfl, hfound⟩
    | cons i rest ih =>
      intro found t hle hfound
      rw [List.foldl_cons]
      rcases eliminateAt_cases g round found t i with hsame | ⟨h, k, hdef, hstep⟩
      · rw [hsame]
        exact ih found t hle hfound
      · have hone := countSettled_claim hdef
        rw [hstep]
        obtain ⟨hlen, hrest⟩ := ih (HandleTable.insert h k found) (t.claim round i k) (by omega)
          (fun _ => by omega)
        exact ⟨hlen.trans (List.length_modify ..), hrest⟩
  exact hfold _ [] s (Nat.le_refl _) (fun hne => absurd rfl hne)

/-- Any two bounds on the rounds agree that are above the number of live unknowns: every round but
the last settles one. -/
theorem eliminateRounds_congr (g : ReferenceGraph) :
    ∀ (fuel fuel' round : Nat) (s : EquationSystem α),
      s.params.length < fuel + s.countSettled → s.params.length < fuel' + s.countSettled →
      eliminateRounds g fuel round s = eliminateRounds g fuel' round s
  | 0, _, _, s, hf, _ => by
    have hle := s.countSettled_le
    omega
  | _ + 1, 0, _, s, _, hf' => by
    have hle := s.countSettled_le
    omega
  | fuel + 1, fuel' + 1, round, s, hf, hf' => by
    obtain ⟨hlen, hsettled⟩ := countSettled_eliminationRound g round s
    rw [eliminateRounds, eliminateRounds]
    generalize eliminationRound g round s = out at hlen hsettled ⊢
    obtain ⟨found, s₁⟩ := out
    simp only at hlen hsettled ⊢
    by_cases hempty : found.isEmpty = true
    · rw [if_pos hempty, if_pos hempty]
    · rw [if_neg hempty, if_neg hempty]
      have hmore := hsettled (by simpa using hempty)
      rw [eliminateRounds_congr g fuel fuel' (round + 1)
        { s₁ with elimination := found :: s₁.elimination }
        (by show s₁.params.length < _ + s₁.countSettled; omega)
        (by show s₁.params.length < _ + s₁.countSettled; omega)]

end

/-! ## The invariant -/

section
variable [Scalar α]

/-- The unknown `h` at position `i` was eliminated in a round with the equation at `k`: that was its
only open equation at the round, every other unknown of the equation had another one, and the
equation can be solved for the unknown. -/
structure Claimed (g : ReferenceGraph) (round : Nat) (s : EquationSystem α) (i : Nat)
    (h : ParamHandle) (k : Nat) : Prop where
  param : ∃ p, s.params[i]? = some p ∧ p.handle = h ∧ p.state = .eliminated ∧ p.stage = round
  notDragged : s.isDragged h = false
  equation : ∃ q, s.equations[k]? = some q ∧ q.state = .eliminated ∧ q.stage = round ∧
    q.expr.fold.canIsolate h = true
  alone : s.openEquations g round i = [k]
  backed : s.canRemove g round i k = true

/-- An unknown is claimed when its step is made. -/
theorem claimed_claim (hdef : s.definingEquation? g round i = some (h, k)) :
    Claimed g round (s.claim round i k) i h k := by
  obtain ⟨⟨p, hp, hph, _⟩, hdrag, hopen, hback, q, hq, hiso⟩ := definingEquation?_eq_some hdef
  have hk : s.isRetired round k = false :=
    (mem_openEquations (i := i).1 (by rw [hopen]; exact List.mem_singleton.2 rfl)).2
  refine ⟨?_, hdrag, ?_, ?_, ?_⟩
  · refine ⟨{ p with state := .eliminated, stage := round }, ?_, hph, rfl, rfl⟩
    rw [param_claim, if_pos rfl, hp, Option.map_some]
  · refine ⟨{ q with state := .eliminated, stage := round }, ?_, rfl, rfl, hiso⟩
    rw [equation_claim, if_pos rfl, hq, Option.map_some]
  · rw [openEquations_claim (Nat.le_refl _) hk, hopen]
  · rw [canRemove_claim (Nat.le_refl _) hk, hback]

/-- What was claimed at a round stays claimed when an unknown is claimed at that round or later. -/
theorem Claimed.claim {j l : Nat} {x : ParamHandle} (hc : Claimed g ρ s j x l) (hle : ρ ≤ round)
    (hdef : s.definingEquation? g round i = some (h, k)) :
    Claimed g ρ (s.claim round i k) j x l := by
  obtain ⟨⟨p, hp, _, hlive⟩, _, hopen, _, _⟩ := definingEquation?_eq_some hdef
  have hk : s.isRetired round k = false :=
    (mem_openEquations (i := i).1 (by rw [hopen]; exact List.mem_singleton.2 rfl)).2
  obtain ⟨p', hp', hp'h, hstate, hstage⟩ := hc.param
  obtain ⟨q, hq, hqstate, hqstage, hiso⟩ := hc.equation
  refine ⟨?_, hc.notDragged, ?_, ?_, ?_⟩
  · have hne : i ≠ j := by
      rintro rfl
      rw [hp] at hp'
      cases hp'
      rw [hlive] at hstate
      cases hstate
    exact ⟨p', by rw [param_claim, if_neg hne]; exact hp', hp'h, hstate, hstage⟩
  · by_cases hkl : k = l
    · -- The equation is not retired, so it can only have been claimed at this very round.
      subst hkl
      have hround : ρ = round := by
        simp only [isRetired, hq, hqstate, hqstage, Bool.and_eq_false_iff,
          decide_eq_false_iff_not] at hk
        have hlt := hk.resolve_left (by decide)
        omega
      subst hround
      refine ⟨{ q with state := .eliminated, stage := ρ }, ?_, rfl, rfl, hiso⟩
      rw [equation_claim, if_pos rfl, hq, Option.map_some]
    · exact ⟨q, by rw [equation_claim, if_neg hkl]; exact hq, hqstate, hqstage, hiso⟩
  · rw [openEquations_claim hle hk, hc.alone]
  · rw [canRemove_claim hle hk, hc.backed]

/-- Claiming the unknown of a step keeps the tables within what elimination does. -/
theorem eliminates_claim {start : EquationSystem α}
    (hparams : List.Forall₂ Param.Eliminates start.params s.params)
    (hequations : List.Forall₂ Equation.Eliminates start.equations s.equations)
    (hdef : s.definingEquation? start.references round i = some (h, k)) :
    List.Forall₂ Param.Eliminates start.params (s.claim round i k).params ∧
      List.Forall₂ Equation.Eliminates start.equations (s.claim round i k).equations := by
  obtain ⟨⟨p, hp, _, hlive⟩, _, hopen, _, _⟩ := definingEquation?_eq_some hdef
  have hmem : k ∈ s.openEquations start.references round i := by
    rw [hopen]
    exact List.mem_singleton.2 rfl
  obtain ⟨q, hq, hqlive, _⟩ := mem_unknownsOf_references.1 (mem_openEquations.1 hmem).1
  constructor
  · refine forall₂_modify hparams fun p₀ p' _ hp' hrel => ?_
    rw [show p' = p from Option.some.inj (hp'.symm.trans hp)] at hrel ⊢
    rcases hrel with rfl | ⟨hl, n, rfl⟩
    · exact Or.inr ⟨hlive, round, rfl⟩
    · exact Or.inr ⟨hl, round, rfl⟩
  · refine forall₂_modify hequations fun q₀ q' hq₀ _ hrel => ?_
    rw [show q₀ = q from Option.some.inj (hq₀.symm.trans hq)] at hrel ⊢
    rcases hrel with rfl | ⟨hl, n, rfl⟩
    · exact Or.inr ⟨hqlive, round, rfl⟩
    · exact Or.inr ⟨hl, round, rfl⟩

/-- However long elimination goes on, every unknown and every equation is as it was, or was live and
has been eliminated. -/
theorem eliminates_eliminateRounds {start : EquationSystem α} :
    ∀ (fuel round : Nat) (s : EquationSystem α),
      List.Forall₂ Param.Eliminates start.params s.params →
      List.Forall₂ Equation.Eliminates start.equations s.equations →
        List.Forall₂ Param.Eliminates start.params
            (eliminateRounds start.references fuel round s).2.params ∧
          List.Forall₂ Equation.Eliminates start.equations
            (eliminateRounds start.references fuel round s).2.equations
  | 0, _, s, hparams, hequations => ⟨hparams, hequations⟩
  | fuel + 1, round, s, hparams, hequations => by
    have hfold : ∀ (positions : List Nat) (found : EliminationRound) (t : EquationSystem α),
        List.Forall₂ Param.Eliminates start.params t.params →
        List.Forall₂ Equation.Eliminates start.equations t.equations →
          List.Forall₂ Param.Eliminates start.params
              (positions.foldl (eliminateAt start.references round) (found, t)).2.params ∧
            List.Forall₂ Equation.Eliminates start.equations
              (positions.foldl (eliminateAt start.references round) (found, t)).2.equations := by
      intro positions
      induction positions with
      | nil => exact fun _ t hps hqs => ⟨hps, hqs⟩
      | cons i rest ih =>
        intro found t hps hqs
        rw [List.foldl_cons]
        rcases eliminateAt_cases start.references round found t i with hsame | ⟨h, k, hdef, hstep⟩
        · rw [hsame]
          exact ih found t hps hqs
        · rw [hstep]
          obtain ⟨hps', hqs'⟩ := eliminates_claim hps hqs hdef
          exact ih _ _ hps' hqs'
    obtain ⟨hps, hqs⟩ := hfold (List.range s.params.length) [] s hparams hequations
    rw [eliminateRounds]
    change List.Forall₂ Param.Eliminates start.params
      (eliminationRound start.references round s).2.params at hps
    change List.Forall₂ Equation.Eliminates start.equations
      (eliminationRound start.references round s).2.equations at hqs
    generalize eliminationRound start.references round s = out at hps hqs ⊢
    obtain ⟨found, t⟩ := out
    simp only at hps hqs ⊢
    split
    · exact ⟨hps, hqs⟩
    · exact eliminates_eliminateRounds fuel (round + 1)
        { t with elimination := found :: t.elimination } hps hqs

/-- Elimination changes unknowns and equations by eliminating them, one by one. -/
theorem eliminates_eliminate (s : EquationSystem α) :
    List.Forall₂ Param.Eliminates s.params s.eliminate.2.params ∧
      List.Forall₂ Equation.Eliminates s.equations s.eliminate.2.equations :=
  eliminates_eliminateRounds _ _ s (List.forall₂_same.2 fun _ _ => Or.inl rfl)
    (List.forall₂_same.2 fun _ _ => Or.inl rfl)

/-- The system `s` has come from `start` by elimination. The unknowns eliminated on the way stand in
the list of rounds, the one at hand (`round`) first: every entry was claimed in its round, and every
unknown and every equation eliminated on the way has an entry. -/
structure Recorded (start : EquationSystem α) (round : Nat) (rounds : List EliminationRound)
    (s : EquationSystem α) : Prop where
  settings : s.settings = start.settings
  dragged : s.dragged = start.dragged
  foreign : s.foreign = start.foreign
  params : List.Forall₂ Param.Eliminates start.params s.params
  equations : List.Forall₂ Equation.Eliminates start.equations s.equations
  length_le : rounds.length ≤ round + 1
  claimed : ∀ j r, rounds[j]? = some r → ∀ e ∈ r,
    ∃ i, Claimed start.references (round - j) s i e.1 e.2
  ascending : ∀ r ∈ rounds, HandleTable.Ascending r
  complete : ∀ (i : Nat) (p : Param α), s.params[i]? = some p → p.state = .eliminated →
    start.params[i]? = some p ∨ ∃ r ∈ rounds, p.handle ∈ r.map Prod.fst
  covered : ∀ k q, s.equations[k]? = some q → q.state = .eliminated →
    start.equations[k]? = some q ∨ ∃ r ∈ rounds, k ∈ r.map Prod.snd
  count : s.params.countP (·.state == .eliminated) =
    start.params.countP (·.state == .eliminated) + rounds.flatten.length

namespace Recorded

variable {start : EquationSystem α} {rounds : List EliminationRound} {found : EliminationRound}

/-- Elimination keeps the handles. -/
theorem handles_eq (hr : Recorded start round rounds s) :
    s.params.map (·.handle) = start.params.map (·.handle) :=
  map_handle_eq (fun _ _ hk => hk.handle) hr.params

/-- Handles that are distinct stay so under elimination. -/
theorem handlesDistinct (hr : Recorded start round rounds s) (hd : start.HandlesDistinct) :
    s.HandlesDistinct :=
  hd.congr hr.handles_eq

/-- An unknown with an open equation stands at the position that its handle is resolved to. -/
theorem position?_of_open (hr : Recorded start round rounds s)
    (hopen : s.openEquations start.references ρ i = [k]) {p : Param α}
    (hp : s.params[i]? = some p) : start.position? p.handle = some i := by
  have hk : k ∈ s.openEquations start.references ρ i := by
    rw [hopen]
    exact List.mem_singleton_self k
  obtain ⟨_, _, _, _, x, _, hpos⟩ := mem_unknownsOf_references.1 (mem_openEquations.1 hk).1
  obtain ⟨p₀, hp₀, rfl⟩ := exists_of_position? hpos
  obtain ⟨p', hp', hrel⟩ := forall₂_getElem? hr.params hp₀
  obtain rfl := Option.some.inj (hp'.symm.trans hp)
  rw [hrel.handle, hpos]

/-- The position of an unknown that was claimed is the one that its handle is resolved to. -/
theorem position?_of_claimed (hr : Recorded start round rounds s)
    (hc : Claimed start.references ρ s i h k) : start.position? h = some i := by
  obtain ⟨p, hp, rfl, _⟩ := hc.param
  exact hr.position?_of_open hc.alone hp

/-- The unknown of a step is not in the record yet. -/
theorem not_mem_of_definingEquation? (hr : Recorded start round rounds s)
    (hdef : s.definingEquation? start.references ρ i = some (h, k)) {r : EliminationRound}
    (hmem : r ∈ rounds) : h ∉ r.map Prod.fst := by
  intro hin
  obtain ⟨⟨p, hp, rfl, hlive⟩, _, hopen, _⟩ := definingEquation?_eq_some hdef
  obtain ⟨e, he, heq⟩ := List.mem_map.1 hin
  obtain ⟨j, hj⟩ := List.getElem?_of_mem hmem
  obtain ⟨i', hc⟩ := hr.claimed j r hj e he
  obtain ⟨p', hp', _, hstate, _⟩ := hc.param
  have hpos := hr.position?_of_claimed hc
  rw [heq, hr.position?_of_open hopen hp] at hpos
  obtain rfl := Option.some.inj hpos
  obtain rfl := Option.some.inj (hp'.symm.trans hp)
  rw [hlive] at hstate
  cases hstate

/-- One step of elimination keeps the invariant. -/
theorem eliminateAt (hr : Recorded start round (found :: rounds) s) (i : Nat) :
    Recorded start round
        ((EquationSystem.eliminateAt start.references round (found, s) i).1 :: rounds)
        (EquationSystem.eliminateAt start.references round (found, s) i).2 := by
  rcases eliminateAt_cases start.references round found s i with hsame | ⟨h, k, hdef, hstep⟩
  · rw [hsame]
    exact hr
  rw [hstep]
  obtain ⟨⟨p, hp, hph, hlive⟩, hdrag, -⟩ := definingEquation?_eq_some hdef
  have hnew : h ∉ found.map Prod.fst :=
    hr.not_mem_of_definingEquation? hdef (List.mem_cons_self ..)
  have hperm := HandleTable.insert_perm (x := k) hnew
  obtain ⟨hps, hqs⟩ := eliminates_claim hr.params hr.equations hdef
  have hlen : rounds.length + 1 ≤ round + 1 := hr.length_le
  refine ⟨hr.settings, hr.dragged, hr.foreign, hps, hqs, hlen, ?claimed, ?ascending, ?complete,
    ?covered, ?count⟩
  case claimed =>
    intro j r hj e he
    cases j with
    | zero =>
      cases hj
      rcases List.mem_cons.1 (hperm.mem_iff.1 he) with rfl | he
      · exact ⟨i, claimed_claim hdef⟩
      · obtain ⟨j, hc⟩ := hr.claimed 0 found rfl e he
        exact ⟨j, hc.claim (Nat.sub_le _ _) hdef⟩
    | succ j =>
      obtain ⟨l, hc⟩ := hr.claimed (j + 1) r hj e he
      exact ⟨l, hc.claim (Nat.sub_le _ _) hdef⟩
  case ascending =>
    intro r hmem
    rcases List.mem_cons.1 hmem with rfl | hmem
    · exact (hr.ascending found (List.mem_cons_self ..)).insert
    · exact hr.ascending r (List.mem_cons_of_mem _ hmem)
  case complete =>
    intro j p' hj hstate
    rw [param_claim] at hj
    split at hj
    · next hij =>
      subst hij
      rw [hp, Option.map_some] at hj
      cases hj
      refine Or.inr ⟨_, List.mem_cons_self .., ?_⟩
      rw [(hperm.map Prod.fst).mem_iff, List.map_cons]
      exact List.mem_cons.2 (Or.inl hph)
    · rcases hr.complete j p' hj hstate with hold | ⟨r, hmem, hin⟩
      · exact Or.inl hold
      · rcases List.mem_cons.1 hmem with rfl | hmem
        · refine Or.inr ⟨_, List.mem_cons_self .., ?_⟩
          rw [(hperm.map Prod.fst).mem_iff, List.map_cons]
          exact List.mem_cons_of_mem _ hin
        · exact Or.inr ⟨r, List.mem_cons_of_mem _ hmem, hin⟩
  case covered =>
    intro l q hq hstate
    rw [equation_claim] at hq
    split at hq
    · next hkl =>
      subst hkl
      refine Or.inr ⟨_, List.mem_cons_self .., ?_⟩
      rw [(hperm.map Prod.snd).mem_iff, List.map_cons]
      exact List.mem_cons_self ..
    · rcases hr.covered l q hq hstate with hold | ⟨r, hmem, hin⟩
      · exact Or.inl hold
      · rcases List.mem_cons.1 hmem with rfl | hmem
        · refine Or.inr ⟨_, List.mem_cons_self .., ?_⟩
          rw [(hperm.map Prod.snd).mem_iff, List.map_cons]
          exact List.mem_cons_of_mem _ hin
        · exact Or.inr ⟨r, List.mem_cons_of_mem _ hmem, hin⟩
  case count =>
    have hmore : (s.claim round i k).params.countP (·.state == .eliminated) =
        s.params.countP (·.state == .eliminated) + 1 :=
      countP_modify hp (by simp [hlive]) rfl
    rw [hmore, hr.count]
    simp only [List.flatten_cons, List.length_append, hperm.length_eq, List.length_cons]
    omega

/-- A step of elimination does not change the record of earlier rounds. -/
theorem elimination_eliminateAt (g : ReferenceGraph) (round : Nat) (found : EliminationRound)
    (s : EquationSystem α) (i : Nat) :
    (EquationSystem.eliminateAt g round (found, s) i).2.elimination = s.elimination := by
  rcases eliminateAt_cases g round found s i with hsame | ⟨h, k, _, hstep⟩
  · rw [hsame]
  · rw [hstep]
    rfl

/-- A round of elimination keeps the invariant. -/
theorem eliminationRound (hr : Recorded start round ([] :: rounds) s) :
    Recorded start round ((EquationSystem.eliminationRound start.references round s).1 :: rounds)
        (EquationSystem.eliminationRound start.references round s).2 ∧
      (EquationSystem.eliminationRound start.references round s).2.elimination =
        s.elimination := by
  unfold EquationSystem.eliminationRound
  generalize List.range s.params.length = positions
  generalize hfound : ([] : EliminationRound) = found at hr ⊢
  clear hfound
  induction positions generalizing found s with
  | nil => exact ⟨hr, rfl⟩
  | cons i rest ih =>
    obtain ⟨hrest, helim⟩ := ih _ (hr.eliminateAt i)
    exact ⟨hrest, helim.trans (elimination_eliminateAt start.references round found s i)⟩

/-- The rounds that have been found are what counts, and not the record of the system. -/
theorem withElimination (hr : Recorded start round rounds s) (elimination : List EliminationRound) :
    Recorded start round rounds { s with elimination } where
  settings := hr.settings
  dragged := hr.dragged
  foreign := hr.foreign
  params := hr.params
  equations := hr.equations
  length_le := hr.length_le
  claimed := by
    intro j r hj e he
    obtain ⟨i, hc⟩ := hr.claimed j r hj e he
    exact ⟨i, hc.param, hc.notDragged, hc.equation, hc.alone, hc.backed⟩
  ascending := hr.ascending
  complete := hr.complete
  covered := hr.covered
  count := hr.count

/-- When a round has ended, the next one starts with nothing. -/
theorem next (hr : Recorded start round rounds s) :
    Recorded start (round + 1) ([] :: rounds) s where
  settings := hr.settings
  dragged := hr.dragged
  foreign := hr.foreign
  params := hr.params
  equations := hr.equations
  length_le := Nat.succ_le_succ hr.length_le
  claimed := by
    intro j r hj e he
    cases j with
    | zero =>
      cases hj
      cases he
    | succ j =>
      obtain ⟨i, hc⟩ := hr.claimed j r hj e he
      rw [Nat.add_sub_add_right]
      exact ⟨i, hc⟩
  ascending := by
    intro r hmem
    rcases List.mem_cons.1 hmem with rfl | hmem
    · exact .nil
    · exact hr.ascending r hmem
  complete i p hp hstate := by
    rcases hr.complete i p hp hstate with hold | ⟨r, hmem, hin⟩
    · exact Or.inl hold
    · exact Or.inr ⟨r, List.mem_cons_of_mem _ hmem, hin⟩
  covered k q hq hstate := by
    rcases hr.covered k q hq hstate with hold | ⟨r, hmem, hin⟩
    · exact Or.inl hold
    · exact Or.inr ⟨r, List.mem_cons_of_mem _ hmem, hin⟩
  count := hr.count

/-- Nothing is recorded before the first round. -/
theorem initial (s : EquationSystem α) : Recorded s firstRound [[]] s where
  settings := rfl
  dragged := rfl
  foreign := rfl
  params := List.forall₂_same.2 fun _ _ => Or.inl rfl
  equations := List.forall₂_same.2 fun _ _ => Or.inl rfl
  length_le := by decide
  claimed := by
    intro j r hj e he
    cases j with
    | zero =>
      cases hj
      cases he
    | succ j => cases hj
  ascending r hmem := by
    rw [List.mem_singleton.1 hmem]
    exact .nil
  complete _ _ hp _ := Or.inl hp
  covered _ _ hq _ := Or.inl hq
  count := rfl

/-! ## Whole runs -/

/-- Rounds of elimination keep the invariant, put what they find into the record, and tell how many
entries that are. -/
theorem eliminateRounds :
    ∀ (fuel round : Nat) (s : EquationSystem α) (rounds : List EliminationRound),
      Recorded start round ([] :: rounds) s → ∀ (n : Nat) (s' : EquationSystem α),
        EquationSystem.eliminateRounds start.references fuel round s = (n, s') →
        ∃ round' added, Recorded start round' ([] :: (added ++ rounds)) s' ∧
          s'.elimination = added ++ s.elimination ∧ n = added.flatten.length
  | 0, round, s, rounds, hr, n, s', hrun => by
    cases hrun
    exact ⟨round, [], hr, rfl, rfl⟩
  | fuel + 1, round, s, rounds, hr, n, s', hrun => by
    obtain ⟨hr₁, helim⟩ := hr.eliminationRound
    rw [EquationSystem.eliminateRounds] at hrun
    generalize EquationSystem.eliminationRound start.references round s = out at hr₁ helim hrun
    obtain ⟨found, s₁⟩ := out
    simp only at hr₁ helim hrun
    split at hrun
    · next hempty =>
      cases hrun
      rw [List.isEmpty_iff.1 hempty] at hr₁
      exact ⟨round, [], hr₁, helim, rfl⟩
    · obtain ⟨round', added, hrec, hadded, hcount⟩ :=
        eliminateRounds fuel (round + 1) { s₁ with elimination := found :: s₁.elimination }
          (found :: rounds) (hr₁.next.withElimination _) _ _ rfl
      cases hrun
      refine ⟨round', added ++ [found], ?_, ?_, ?_⟩
      · rw [List.append_assoc]
        exact hrec
      · rw [hadded, List.append_assoc, ← helim]
        rfl
      · rw [hcount, List.flatten_append, List.flatten_singleton, List.length_append, Nat.add_comm]

end Recorded

end

end EquationSystem

end SketchSolver
