import SketchSolver.Proofs.EquationSystem.Newton

/-!
# Independent equations

Whether the equations of a system are independent is asked of its Jacobian at the present values,
with all unknowns and equations live (`independent`). The question has an answer for every system
(`independent_eq`): a linearization points to unknowns only, so it can be evaluated.

The answer is a matter of the settings, the equations, the handles of the unknowns and the values of
parameters by handle (`independent_congr`), and not of what else a system has gone through.
-/

namespace SketchSolver.EquationSystem

section
variable [Scalar α] {s s' : EquationSystem α} {sel : Selection}

/-- The equations are independent at the present values. There must not be too many to tell. -/
def independent (s : EquationSystem α) : Except (Fault α) Bool := do
  let (written, s) := s.clearTags.linearize .live
  if !written then return false
  let s ← s.evalJacobian
  return s.jacobianRank == s.linearization.rows.length

/-! ## Evaluation -/

/-- The partial derivatives of a row have every unknown at its position. -/
theorem slotsIn_partialsOfRow {columns : List Nat} {row : Nat} {e : Expr α} {t : Triplet (Expr α)}
    (ht : t ∈ s.partialsOfRow columns row (s.slotForm e)) :
    t.value.SlotsIn fun h i => s.position? h = some i := by
  unfold partialsOfRow at ht
  obtain ⟨h, _, heq⟩ := List.mem_filterMap.1 ht
  split at heq
  · cases heq
  · simp only at heq
    split at heq
    · cases heq
    · cases heq
      exact (s.slotsIn_slotForm e).partialWrt.fold

/-- The partial derivatives of a linearization have every unknown at its position. -/
theorem slotsIn_linearize {t : Triplet (Expr α)}
    (ht : t ∈ (s.linearize sel).2.linearization.partials) :
    t.value.SlotsIn fun h i => s.position? h = some i := by
  unfold linearize at ht
  obtain ⟨columns, rows⟩ := s.select sel
  simp only at ht
  split at ht
  · cases ht
  · obtain ⟨⟨f, row⟩, hmem, ht⟩ := List.mem_flatMap.1 ht
    rw [List.mem_zipIdx_iff_getElem?] at hmem
    obtain ⟨k, _, hk⟩ := List.mem_filterMap.1 (List.mem_of_getElem? hmem)
    obtain ⟨q, _, rfl⟩ := Option.map_eq_some_iff.1 hk
    exact slotsIn_partialsOfRow ht

/-- The Jacobian of a linearization at values given by handle. -/
def jacobianAt (lin : Linearization α) (value : ParamHandle → α) : SparseMatrix α :=
  .ofTriplets lin.rows.length lin.columns.length <|
    (lin.partials.zip (lin.partials.map fun t => t.value.eval (.byHandle value))).filterMap
      fun (t, v) => if v == 0 then none else some { row := t.row, column := t.column, value := v }

/-- A linearization can be evaluated, and its Jacobian is that at the present values. -/
theorem evalJacobian_eq (hs : ∀ t ∈ s.linearization.partials,
    t.value.SlotsIn fun h i => s.position? h = some i) :
    s.evalJacobian = .ok { s with linearization := { s.linearization with
      jacobian := jacobianAt s.linearization s.lookup.value } } := by
  have hvalues : s.values (s.linearization.partials.map (·.value)) =
      .ok ((s.linearization.partials.map (·.value)).map (·.eval (.byHandle s.lookup.value))) := by
    refine values_eq_ok fun e he => ?_
    obtain ⟨t, ht, rfl⟩ := List.mem_map.1 he
    exact hs t ht
  simp only [evalJacobian]
  rw [hvalues, List.map_map]
  rfl

/-- The rank of the Jacobian of a linearization at values given by handle. -/
def rankAt (settings : Settings α) (lin : Linearization α) (value : ParamHandle → α) : Nat :=
  if lin.rows.isEmpty || lin.columns.isEmpty then 0
  else settings.rankOf (jacobianAt lin value).toDense

/-- What a test of the rank finds is a matter of the rank at the present values. -/
theorem testRank_eq_rankAt {b : Bool} (hs : ∀ t ∈ s.linearization.partials,
      t.value.SlotsIn fun h i => s.position? h = some i) (h : s.testRank = .ok (b, s')) :
    b = (rankAt s.settings s.linearization s.lookup.value == s.linearization.rows.length) ∧
      s'.dof = (s.linearization.columns.length : Int) -
        rankAt s.settings s.linearization s.lookup.value := by
  unfold testRank at h
  rw [evalJacobian_eq hs] at h
  cases h
  exact ⟨rfl, rfl⟩

/-- The Jacobian is that of a linearization of the same form. -/
theorem jacobianAt_congr {lin lin' : Linearization α} (h : lin.SameForm lin')
    (value : ParamHandle → α) : jacobianAt lin' value = jacobianAt lin value := by
  unfold jacobianAt
  rw [h.rows, h.columns, h.partials]

/-- The rank is that of a linearization of the same form. -/
theorem rankAt_congr {settings : Settings α} {lin lin' : Linearization α}
    (h : lin.SameForm lin') (value : ParamHandle → α) :
    rankAt settings lin' value = rankAt settings lin value := by
  unfold rankAt
  rw [h.rows, h.columns, jacobianAt_congr h]

/-- A part is linearized if there are not too many equations. -/
theorem linearize_fst (s : EquationSystem α) (sel : Selection) :
    (s.linearize sel).1 = true ↔ (s.select sel).2.length < s.settings.maxEquations := by
  unfold linearize
  generalize s.select sel = selected
  obtain ⟨columns, rows⟩ := selected
  simp only
  split <;> simp <;> omega

/-- Linearizing changes no value. -/
theorem lookup_linearize (s : EquationSystem α) (sel : Selection) :
    (s.linearize sel).2.lookup.value = s.lookup.value :=
  funext fun _ =>
    (s.linearize_spec (fun _ _ => False) sel).1.value_eq_of_forall fun _ _ _ => id

/-- The Jacobian of a linearization can be evaluated at once. -/
theorem evalJacobian_linearize (s : EquationSystem α) (sel : Selection) :
    (s.linearize sel).2.evalJacobian = .ok { (s.linearize sel).2 with
      linearization := { (s.linearize sel).2.linearization with
        jacobian := jacobianAt (s.linearize sel).2.linearization s.lookup.value } } := by
  rw [evalJacobian_eq, lookup_linearize]
  intro t ht
  rw [(s.linearize_spec (fun _ _ => False) sel).1.position?_eq]
  exact slotsIn_linearize ht

/-- Whether the equations are independent is a comparison of the rank with the number of rows. -/
theorem independent_eq (s : EquationSystem α) : s.independent =
    .ok ((s.clearTags.linearize .live).1 &&
      rankAt s.settings (s.clearTags.linearize .live).2.linearization s.lookup.value ==
        (s.clearTags.linearize .live).2.linearization.rows.length) := by
  have hjac := s.clearTags.evalJacobian_linearize .live
  have hsettings := (s.clearTags.linearize_spec (fun _ _ => False) .live).1.settings
  rw [lookup_clearTags] at hjac
  unfold independent
  generalize s.clearTags.linearize .live = out at hjac hsettings ⊢
  obtain ⟨written, t⟩ := out
  cases written with
  | false => rfl
  | true =>
    simp only at hjac hsettings ⊢
    rw [hjac, Bool.true_and, rankAt, ← show t.settings = s.settings from hsettings]
    rfl

/-! ## All of a system -/

omit [Scalar α] in
/-- Everything is live in a system that has been cleared. -/
theorem select_clearTags (s : EquationSystem α) : s.clearTags.select .live =
    (List.range s.params.length, List.range s.equations.length) := by
  have hparams : ∀ p ∈ s.clearTags.params, Selection.live.hasParam p = true := by
    intro p hp
    obtain ⟨_, _, rfl⟩ := List.mem_map.1 hp
    rfl
  have hequations : ∀ q ∈ s.clearTags.equations, Selection.live.hasEquation q = true := by
    intro q hq
    obtain ⟨_, _, rfl⟩ := List.mem_map.1 hq
    rfl
  rw [select, filterMap_zipIdx_eq_range hparams, filterMap_zipIdx_eq_range hequations]
  simp [clearTags]

/-! ## Agreement -/

/-- Two systems have the same settings, equations and handles, and the same values by handle. -/
structure Agree (s s' : EquationSystem α) : Prop where
  settings : s'.settings = s.settings
  equations : s'.equations = s.equations
  handles : s'.params.map (·.handle) = s.params.map (·.handle)
  value : s'.lookup.value = s.lookup.value

/-- Agreement is symmetric. -/
theorem Agree.symm (h : Agree s s') : Agree s' s where
  settings := h.settings.symm
  equations := h.equations.symm
  handles := h.handles.symm
  value := h.value.symm

/-- Agreement is transitive. -/
theorem Agree.trans {s'' : EquationSystem α} (h : Agree s s') (h' : Agree s' s'') :
    Agree s s'' where
  settings := h'.settings.trans h.settings
  equations := h'.equations.trans h.equations
  handles := h'.handles.trans h.handles
  value := h'.value.trans h.value

/-- Systems agree if their unknowns and what they have kept aside are the same. -/
theorem Agree.of_params (hsettings : s'.settings = s.settings)
    (hequations : s'.equations = s.equations)
    (hparams : s'.params.map (fun p => (p.handle, p.value)) =
      s.params.map fun p => (p.handle, p.value))
    (hforeign : s'.foreign = s.foreign) : Agree s s' where
  settings := hsettings
  equations := hequations
  handles := by
    have hfst := congrArg (List.map Prod.fst) hparams
    rwa [List.map_map, List.map_map] at hfst
  value := by
    have hall : List.Forall₂ (fun p q : Param α => (p.handle, p.value) = (q.handle, q.value))
        s.params s'.params := by
      have heq := List.forall₂_eq_eq_eq.symm ▸ hparams.symm
      rwa [List.forall₂_map_left_iff, List.forall₂_map_right_iff] at heq
    refine lookup_value_congr (fun p q h => ?_) hall hforeign
    obtain ⟨hhandle, hvalue⟩ := Prod.ext_iff.1 h
    exact ⟨hhandle.symm, hvalue.symm⟩

/-- Systems that agree have the same linearization, once they are cleared. -/
theorem linearize_congr (h : Agree s s') :
    (s'.clearTags.linearize .live).1 = (s.clearTags.linearize .live).1 ∧
      (s'.clearTags.linearize .live).2.linearization =
        (s.clearTags.linearize .live).2.linearization := by
  have hcleared : ∀ t : EquationSystem α,
      t.clearTags.params.map (·.handle) = t.params.map (·.handle) := by
    intro t
    simp [clearTags, Function.comp_def]
  have hposition : s'.clearTags.position? = s.clearTags.position? :=
    position?_congr (by rw [hcleared, hcleared, h.handles])
  have hsettings : s'.clearTags.settings = s.clearTags.settings := h.settings
  have hequations : s'.clearTags.equations = s.clearTags.equations := by
    simp only [clearTags, h.equations]
  have hlength : s'.params.length = s.params.length := by
    simpa using congrArg List.length h.handles
  have hselect : s'.clearTags.select .live = s.clearTags.select .live := by
    rw [select_clearTags, select_clearTags, hlength, h.equations]
  have hslot : s'.clearTags.slotForm = s.clearTags.slotForm := by
    funext e
    rw [slotForm, slotForm, hposition]
  have hpartials : s'.clearTags.partialsOfRow = s.clearTags.partialsOfRow := by
    funext columns row f
    simp only [partialsOfRow, hposition]
  simp only [linearize, hselect, hsettings, hequations, hslot, hpartials]
  split <;> exact ⟨rfl, rfl⟩

/-- Systems that agree have the same answer. -/
theorem independent_congr (h : Agree s s') : s'.independent = s.independent := by
  obtain ⟨hwritten, hlinearization⟩ := linearize_congr h
  rw [independent_eq, independent_eq, hwritten, hlinearization, h.settings, h.value]

end

end SketchSolver.EquationSystem
