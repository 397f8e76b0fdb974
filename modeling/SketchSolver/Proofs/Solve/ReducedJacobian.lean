import SketchSolver.Proofs.Arithmetic.Reduction
import SketchSolver.Proofs.EquationSystem.Jacobian
import SketchSolver.Proofs.Solve.Pairing

/-!
# The Jacobian of what is left

The passes before the main iteration reduce the Jacobian of a system along with the system. Where
substitution gives several unknowns one name, their columns are added up, by the chain rule
(`Merged.entry`). An equality of two unknowns that got one name, and an equation solved alone, say
of a vector that is mapped to zero that it is constant on classes, and zero at the unknown solved
for. An eliminated equation has no entry for an unknown that is recovered behind its own, and a live
one has none for any that is recovered. So the rows and columns that are left are the ones of a
reduced matrix (`Merged.reduces`), as long as no equation that an unknown has been settled with has
the derivative zero with respect to it (`Pivots`). Independent rows leave independent rows
(`Merged.rank_eq`).
-/

namespace SketchSolver.EquationSystem

open Matrix

section
variable [Field K] [LinearOrder K] [PartialFunctions K] {f : ParamHandle → ParamHandle}
  {t s : EquationSystem (Exact K)} {v w : ParamHandle → Exact K} {m n : Nat}
  {M : Matrix (Fin m) (Fin n) K} {handle : Fin n → ParamHandle} {root : Fin n → Fin n}

/-- The matrix is the Jacobian of the system at values given by handle: its entries are the
derivatives of all equations with respect to all unknowns, each of them a number. -/
structure IsJacobian (s : EquationSystem (Exact K)) (v : ParamHandle → Exact K)
    (M : Matrix (Fin m) (Fin n) K) : Prop where
  equations : s.equations.length = m
  params : s.params.length = n
  entry : ∀ (k : Fin m) (x : Fin n) (q : Equation (Exact K)) (p : Param (Exact K)),
    s.equations[(k : Nat)]? = some q → s.params[(x : Nat)]? = some p →
      (q.expr.fold.partialWrt p.handle).eval (.byHandle v) = .number (M k x)

/-- No equation that has been solved alone, or eliminated, has the derivative zero with respect to
the unknown that it was solved for, or eliminated with. -/
structure Pivots (s : EquationSystem (Exact K)) (v : ParamHandle → Exact K) : Prop where
  alone : ∀ q ∈ s.equations, q.state = .solvedAlone → ∀ h,
    q.expr.referenced s.isUnknown = .exactly h →
      (q.expr.fold.partialWrt h).eval (.byHandle v) ≠ 0
  eliminated : ∀ e ∈ s.elimination.flatten, ∀ q, s.equations[e.2]? = some q →
    (q.expr.fold.partialWrt e.1).eval (.byHandle v) ≠ 0

/-- A matrix is compared with the Jacobian entry by entry. -/
instance : Decidable (s.IsJacobian v M) :=
  decidable_of_iff (s.equations.length = m ∧ s.params.length = n ∧ ∀ (k : Fin m) (x : Fin n),
      ∀ q ∈ s.equations[(k : Nat)]?, ∀ p ∈ s.params[(x : Nat)]?,
        (q.expr.fold.partialWrt p.handle).eval (.byHandle v) = .number (M k x))
    ⟨fun ⟨hm, hn, hentry⟩ => ⟨hm, hn, fun k x q p hq hp => hentry k x q hq p hp⟩,
      fun h => ⟨h.equations, h.params, fun k x q hq p hp => h.entry k x q p hq hp⟩⟩

/-- An equation is solved for one of the parameters that it refers to, so only these are asked. -/
instance : Decidable (s.Pivots v) :=
  decidable_of_iff ((∀ q ∈ s.equations, q.state = .solvedAlone → ∀ h ∈ q.expr.params,
      q.expr.referenced s.isUnknown = .exactly h →
        (q.expr.fold.partialWrt h).eval (.byHandle v) ≠ 0) ∧
      ∀ e ∈ s.elimination.flatten, ∀ q ∈ s.equations[e.2]?,
        (q.expr.fold.partialWrt e.1).eval (.byHandle v) ≠ 0)
    ⟨fun ⟨halone, helim⟩ => ⟨fun q hq hstate h href => halone q hq hstate h
        (Expr.mem_params.2 (Expr.referenced_eq_exactly href).1) href, helim⟩,
      fun h => ⟨fun q hq hstate x _ => h.alone q hq hstate x, h.eliminated⟩⟩

/-- The matrix is the Jacobian of `t`, from which the passes have made `s`, and the columns of
unknowns that got one name belong to one root. -/
structure Merged (f : ParamHandle → ParamHandle) (t s : EquationSystem (Exact K))
    (v : ParamHandle → Exact K) (M : Matrix (Fin m) (Fin n) K) (handle : Fin n → ParamHandle)
    (root : Fin n → Fin n) : Prop where
  distinct : t.HandlesDistinct
  prepared : Prepared f t s
  paired : Paired s
  named : f = t.newName ∨ f = id
  handles : t.params.map (·.handle) = List.ofFn handle
  root : ∀ x, handle (root x) = f (handle x)
  jacobian : t.IsJacobian v M
  value_name : ∀ x, v (f x) = v x
  pivots : s.Pivots v

/-- Every equality is satisfied, unless no name has been given at all. -/
def SettlesEqualities (f : ParamHandle → ParamHandle) (t s : EquationSystem α) : Prop :=
  f = id ∨ ∀ (k : Nat) (q₀ q : Equation α), t.equations[k]? = some q₀ →
    s.equations[k]? = some q → (t.equality? q₀.expr).isSome = true → q.state = .satisfied

/-- The unknown is in the state. -/
def HasState (s : EquationSystem α) (state : ParamState) (h : ParamHandle) : Prop :=
  ∃ p ∈ s.params, p.handle = h ∧ p.state = state

/-- An unknown is in one state, if handles are distinct. -/
theorem HasState.unique {s : EquationSystem α} (hd : s.HandlesDistinct) {state state' : ParamState}
    {h : ParamHandle} (hs : s.HasState state h) (hs' : s.HasState state' h) : state = state' := by
  obtain ⟨p, hp, hph, rfl⟩ := hs
  obtain ⟨p', hp', hph', rfl⟩ := hs'
  rw [hd.param_eq hp hp' (hph.trans hph'.symm)]

/-- The parameters of the columns that belong to a root. -/
def mergedAt (handle : Fin n → ParamHandle) (root : Fin n → Fin n) (y : Fin n) :
    Finset ParamHandle :=
  (Finset.univ.filter fun x => root x = y).image handle

/-- The handles of a table are those of its unknowns. -/
theorem exists_param_of_handles {s : EquationSystem α}
    (hs : s.params.map (·.handle) = List.ofFn handle) (x : Fin n) :
    ∃ p, s.params[(x : Nat)]? = some p ∧ p.handle = handle x := by
  have hx : (s.params.map (·.handle))[(x : Nat)]? = some (handle x) := by
    rw [hs, List.getElem?_ofFn, dif_pos x.2]
  rw [List.getElem?_map] at hx
  exact Option.map_eq_some_iff.1 hx

/-- The rows and columns of what is left live, and the record of elimination, by their numbers in
the matrix. -/
structure Numbered (s : EquationSystem (Exact K)) (handle : Fin n → ParamHandle) {a b : Nat}
    (row : Fin a → Fin m) (column : Fin b → Fin n) (defined : List (Fin n × Fin m)) : Prop where
  row : (s.select .live).2 = (List.ofFn row).map Fin.val
  column : (s.select .live).1 = (List.ofFn column).map Fin.val
  defined : defined.map (fun e => (handle e.1, (e.2 : Nat))) = s.elimination.flatten

omit [Field K] [LinearOrder K] [PartialFunctions K] in
/-- A row that is left is that of a live equation. -/
theorem Numbered.exists_live {a b : Nat} {row : Fin a → Fin m} {column : Fin b → Fin n}
    {defined : List (Fin n × Fin m)} (hn : Numbered s handle row column defined) (i : Fin a) :
    ∃ q, s.equations[(row i : Nat)]? = some q ∧ q.state = .live := by
  have hmem : (row i : Nat) ∈ (s.select .live).2 := by
    rw [hn.row]
    exact List.mem_map_of_mem (List.mem_ofFn.2 ⟨i, rfl⟩)
  obtain ⟨q, hq, hstate⟩ := mem_select_snd.1 hmem
  exact ⟨q, hq, by simpa [Selection.hasEquation] using hstate⟩

/-- Numbers below a bound are those of a function on positions. -/
theorem exists_ofFn {l : List Nat} {n : Nat} (hl : ∀ i ∈ l, i < n) :
    ∃ g : Fin l.length → Fin n, l = (List.ofFn g).map Fin.val :=
  ⟨fun i => ⟨l.get i, hl _ (List.get_mem l i)⟩, by
    rw [List.map_ofFn]
    exact (List.ofFn_get l).symm⟩

namespace Merged

/-! ## Positions -/

/-- The passes have left the handles distinct. -/
theorem handlesDistinct (h : Merged f t s v M handle root) : s.HandlesDistinct :=
  h.distinct.congr h.prepared.handles_eq

/-- Different columns stand for different unknowns. -/
theorem injective (h : Merged f t s v M handle root) : Function.Injective handle := by
  have hd := h.distinct
  unfold HandlesDistinct at hd
  rwa [h.handles, List.nodup_ofFn] at hd

/-- The unknown that a column stands for. -/
theorem exists_param (h : Merged f t s v M handle root) (x : Fin n) :
    ∃ p, s.params[(x : Nat)]? = some p ∧ p.handle = handle x :=
  exists_param_of_handles (h.prepared.handles_eq.trans h.handles) x

/-- The column of an unknown. -/
theorem exists_column (h : Merged f t s v M handle root) {p : Param (Exact K)}
    (hp : p ∈ s.params) : ∃ x, handle x = p.handle := by
  have hmem : p.handle ∈ List.ofFn handle := by
    rw [← h.handles, ← h.prepared.handles_eq]
    exact List.mem_map_of_mem hp
  exact List.mem_ofFn.1 hmem

/-- The unknowns are those that a column stands for. -/
theorem isUnknown_iff (h : Merged f t s v M handle root) {y : ParamHandle} :
    t.isUnknown y = true ↔ ∃ x, handle x = y := by
  rw [← h.prepared.isUnknown_eq, EquationSystem.isUnknown_iff]
  constructor
  · rintro ⟨p, hp, rfl⟩
    exact h.exists_column hp
  · rintro ⟨x, rfl⟩
    obtain ⟨p, hp, hph⟩ := h.exists_param x
    exact ⟨p, List.mem_of_getElem? hp, hph⟩

/-- The equation that a row stands for. -/
theorem exists_equation (h : Merged f t s v M handle root) (k : Fin m) :
    ∃ q₀ q, t.equations[(k : Nat)]? = some q₀ ∧ s.equations[(k : Nat)]? = some q ∧
      Equation.Prepared f t.isUnknown q₀ q := by
  obtain ⟨q₀, hq₀⟩ : ∃ q₀, t.equations[(k : Nat)]? = some q₀ :=
    ⟨_, List.getElem?_eq_getElem (h.jacobian.equations.symm ▸ k.2)⟩
  obtain ⟨q, hq, hrel⟩ := forall₂_getElem? h.prepared.equations hq₀
  exact ⟨q₀, q, hq₀, hq, hrel⟩

/-- The row of an equation. -/
theorem exists_row (h : Merged f t s v M handle root) {k : Nat} {q : Equation (Exact K)}
    (hq : s.equations[k]? = some q) : ∃ k' : Fin m, (k' : Nat) = k := by
  have hlt := (List.getElem?_eq_some_iff.1 hq).1
  rw [← h.prepared.equations.length_eq, h.jacobian.equations] at hlt
  exact ⟨⟨k, hlt⟩, rfl⟩

/-! ## Roots -/

/-- An unknown that is not substituted is its own root. -/
theorem root_eq_self (h : Merged f t s v M handle root) {x : Fin n} {state : ParamState}
    (hstate : s.HasState state (handle x)) (hne : state ≠ .substituted) : root x = x := by
  obtain ⟨p, hp, hph, rfl⟩ := hstate
  obtain ⟨p₀, _, hrel⟩ := forall₂_mem_of h.prepared.params hp
  refine h.injective ?_
  rw [h.root, ← hph, hrel.handle]
  exact (hrel.settled.resolve_right fun hsubst => hne hsubst.1).1

/-- A root is not substituted. -/
theorem exists_hasState_root (h : Merged f t s v M handle root) (x : Fin n) :
    ∃ state ≠ .substituted, s.HasState state (handle (root x)) := by
  obtain ⟨p, hp, hph⟩ := h.exists_param x
  obtain ⟨r, hr, hrh, hstate⟩ := h.prepared.named p (List.mem_of_getElem? hp)
  exact ⟨r.state, hstate, r, hr, by rw [hrh, hph, h.root], rfl⟩

/-- A root is its own root. -/
theorem root_root (h : Merged f t s v M handle root) (x : Fin n) : root (root x) = root x := by
  obtain ⟨state, hne, hstate⟩ := h.exists_hasState_root x
  exact h.root_eq_self hstate hne

/-- An unknown that is substituted takes its value from its root. -/
theorem root?_eq (h : Merged f t s v M handle root) {x : Fin n} {p : Param (Exact K)}
    (hx : s.params[(x : Nat)]? = some p) (hstate : p.state = .substituted) :
    p.root = some (handle (root x)) := by
  obtain ⟨p', hp', hph⟩ := h.exists_param x
  obtain rfl := Option.some.inj (hx.symm.trans hp')
  obtain ⟨p₀, _, hrel⟩ := forall₂_getElem?_of h.prepared.params hx
  rcases hrel.settled with ⟨_, hne⟩ | ⟨_, hname⟩
  · exact absurd hstate hne
  · rw [hname, h.root, ← hph, hrel.handle]

/-- Unknowns that got one name have one root. -/
theorem root_eq_root (h : Merged f t s v M handle root) {x y : Fin n}
    (hname : f (handle x) = f (handle y)) : root x = root y :=
  h.injective (by rw [h.root, h.root, hname])

/-! ## Entries -/

/-- The columns of a root are those of the parameters that got its name. -/
theorem mem_mergedAt (h : Merged f t s v M handle root) {x : ParamHandle} {y : Fin n} :
    x ∈ mergedAt handle root y ↔ f x = handle y := by
  simp only [mergedAt, Finset.mem_image, Finset.mem_filter, Finset.mem_univ, true_and]
  constructor
  · rintro ⟨x, rfl, rfl⟩
    exact (h.root x).symm
  · intro hx
    cases hunknown : t.isUnknown x with
    | false =>
      have hother := h.prepared.other x (by rwa [h.prepared.isUnknown_eq])
      have hin : t.isUnknown x = true := h.isUnknown_iff.2 ⟨y, hx.symm.trans hother⟩
      rw [hunknown] at hin
      cases hin
    | true =>
      obtain ⟨x, rfl⟩ := h.isUnknown_iff.1 hunknown
      exact ⟨x, h.injective ((h.root x).trans hx), rfl⟩

/-- The derivatives of an equation as the passes have left it are the merged entries of its row. It
does not matter which values the parameters have that the equation does not refer to. -/
theorem entry (h : Merged f t s v M handle root) {k : Fin m} {q : Equation (Exact K)}
    (hq : s.equations[(k : Nat)]? = some q) (hw : ∀ x, q.expr.dependsOn x = true → w x = v x)
    (y : Fin n) : (q.expr.fold.partialWrt (handle y)).eval (.byHandle w) =
      .number (mergeColumns root M k y) := by
  obtain ⟨q₀, q', hq₀, hq', hrel⟩ := h.exists_equation k
  obtain rfl : q = q' := Option.some.inj (hq.symm.trans hq')
  -- The row, as a function of all parameters.
  have hrow : ∀ x, Function.extend handle (M k) 0 (handle x) = M k x :=
    fun x => h.injective.extend_apply (M k) 0 x
  have hvalue : ∀ x, q₀.expr.fold.dependsOn x = true → w (f x) = v x := by
    intro x hx
    rw [hw (f x) ((hrel.expr.dependsOn _).2 ⟨x, Expr.dependsOn_of_fold hx, rfl⟩), h.value_name]
  have hentries : ∀ x ∈ mergedAt handle root y, (q₀.expr.fold.partialWrt x).eval (.byHandle v) =
      .number (Function.extend handle (M k) 0 x) := by
    intro x hx
    obtain ⟨x, _, rfl⟩ := Finset.mem_image.1 hx
    obtain ⟨p, hp, hph⟩ := exists_param_of_handles h.handles x
    rw [← hph, h.jacobian.entry k x q₀ p hq₀ hp, hph, hrow]
  rw [hrel.expr.fold.eval_partialWrt (fun _ _ => h.mem_mergedAt) hvalue hentries, mergedAt,
    Finset.sum_image fun _ _ _ _ heq => h.injective heq]
  exact congrArg Exact.number (Finset.sum_congr rfl fun x _ => hrow x)

/-- An equation has no entry for what it does not refer to. -/
theorem entry_eq_zero (h : Merged f t s v M handle root) {k : Fin m} {q : Equation (Exact K)}
    (hq : s.equations[(k : Nat)]? = some q) {y : Fin n}
    (hdep : q.expr.dependsOn (handle y) = false) : mergeColumns root M k y = 0 := by
  have hentry := h.entry hq (fun _ _ => rfl) y
  have hfold : q.expr.fold.dependsOn (handle y) = false := by
    by_contra hf
    rw [Expr.dependsOn_of_fold (by simpa using hf)] at hdep
    cases hdep
  rw [Expr.partialWrt_eq_zero hfold] at hentry
  exact (Exact.number.inj hentry).symm

/-- An entry is not zero where the derivative is not. -/
theorem entry_ne_zero (h : Merged f t s v M handle root) {k : Fin m} {q : Equation (Exact K)}
    (hq : s.equations[(k : Nat)]? = some q) {y : Fin n}
    (hne : (q.expr.fold.partialWrt (handle y)).eval (.byHandle v) ≠ 0) :
    mergeColumns root M k y ≠ 0 := by
  rw [h.entry hq (fun _ _ => rfl) y] at hne
  exact fun hzero => hne (congrArg Exact.number hzero)

/-! ## Rows -/

variable {u : Fin n → K}

/-- An equality maps a vector to the difference of its two values. -/
theorem mulVec_equality (h : Merged f t s v M handle root) {k : Fin m} {q₀ : Equation (Exact K)}
    (hq₀ : t.equations[(k : Nat)]? = some q₀) {x y : Fin n}
    (hexpr : q₀.expr = .binary .sub (.param (handle x)) (.param (handle y))) :
    (M *ᵥ u) k = u x - u y := by
  have hentry : ∀ z, M k z = (if x = z then 1 else 0) - if y = z then 1 else 0 := by
    intro z
    obtain ⟨p, hp, hph⟩ := exists_param_of_handles h.handles z
    have hpartial := h.jacobian.entry k z q₀ p hq₀ hp
    rw [hexpr, hph] at hpartial
    change (Expr.partialWrt _ (.binary .sub (.param (handle x)) (.param (handle y)))).eval _ = _
      at hpartial
    rw [Expr.eval_partialWrt_sub_param] at hpartial
    simpa only [h.injective.eq_iff] using (Exact.number.inj hpartial).symm
  simp [mulVec, dotProduct, hentry, sub_mul, Finset.sum_sub_distrib]

/-- A vector that all equalities map to zero is constant on classes. -/
theorem eq_root_of_equalities (h : Merged f t s v M handle root)
    (hu : ∀ (k : Fin m) (q₀ : Equation (Exact K)), t.equations[(k : Nat)]? = some q₀ →
      (t.equality? q₀.expr).isSome = true → (M *ᵥ u) k = 0) (x : Fin n) : u (root x) = u x := by
  rcases h.named with hf | rfl
  · -- Substitution identifies what the equalities do, and each of them is a row.
    have hextend : ∀ z, Function.extend handle u 0 (handle z) = u z :=
      fun z => h.injective.extend_apply u 0 z
    have hname : Function.extend handle u 0 (t.newName (handle x)) =
        Function.extend handle u 0 (handle x) := by
      refine eq_newName (fun q₀ hq₀ a b hexpr ha hb => ?_) (handle x)
      have hequality : (t.equality? q₀.expr).isSome = true := by
        obtain ⟨_, hi⟩ := Option.isSome_iff_exists.1 ha
        obtain ⟨_, hj⟩ := Option.isSome_iff_exists.1 hb
        simp [hexpr, equality?, hi, hj]
      obtain ⟨y, rfl⟩ := h.isUnknown_iff.1 ha
      obtain ⟨z, rfl⟩ := h.isUnknown_iff.1 hb
      obtain ⟨i, hi⟩ := List.getElem?_of_mem hq₀
      have hlt := (List.getElem?_eq_some_iff.1 hi).1
      rw [h.jacobian.equations] at hlt
      have hrow := h.mulVec_equality (k := ⟨i, hlt⟩) (u := u) hi hexpr
      rw [hu ⟨i, hlt⟩ q₀ hi hequality] at hrow
      rw [hextend, hextend]
      exact sub_eq_zero.1 hrow.symm
    rwa [← hf, ← h.root, hextend, hextend] at hname
  · rw [h.injective (h.root x)]

/-- A vector that is mapped to zero is constant on classes. -/
theorem eq_root (h : Merged f t s v M handle root) (hu : M *ᵥ u = 0) (x : Fin n) :
    u (root x) = u x :=
  h.eq_root_of_equalities (fun k _ _ _ => congrFun hu k) x

/-- An equation that refers to one unknown maps a vector to a multiple of its value there. -/
theorem mulVec_alone (h : Merged f t s v M handle root) {k : Fin m} {q : Equation (Exact K)}
    (hq : s.equations[(k : Nat)]? = some q) {y : Fin n}
    (href : q.expr.referenced s.isUnknown = .exactly (handle y)) (hu : ∀ x, u (root x) = u x) :
    (M *ᵥ u) k = mergeColumns root M k y * u y := by
  rw [mulVec_eq_mergeColumns hu]
  refine Finset.sum_eq_single_of_mem y (Finset.mem_univ y) fun z _ hne => ?_
  have hdep : q.expr.dependsOn (handle z) = false := by
    by_contra hdep
    have hunknown : s.isUnknown (handle z) = true := by
      rw [h.prepared.isUnknown_eq]
      exact h.isUnknown_iff.2 ⟨z, rfl⟩
    exact hne (h.injective ((Expr.referenced_eq_exactly href).2.2 _ (by simpa using hdep) hunknown))
  change mergeColumns root M k z * u z = 0
  rw [h.entry_eq_zero hq hdep, zero_mul]

/-- An equality that is satisfied maps a vector to zero that is constant on classes. -/
theorem mulVec_satisfied (h : Merged f t s v M handle root) {k : Fin m} {q : Equation (Exact K)}
    (hq : s.equations[(k : Nat)]? = some q) (hstate : q.state = .satisfied)
    (hu : ∀ x, u (root x) = u x) : (M *ᵥ u) k = 0 := by
  obtain ⟨q₀, q', hq₀, hq', hrel⟩ := h.exists_equation k
  obtain rfl : q = q' := Option.some.inj (hq.symm.trans hq')
  obtain ⟨a, b, hexpr, ha, hb, hname⟩ := hrel.satisfied hstate
  obtain ⟨x, rfl⟩ := h.isUnknown_iff.1 ha
  obtain ⟨y, rfl⟩ := h.isUnknown_iff.1 hb
  rw [h.mulVec_equality hq₀ hexpr, ← hu x, h.root_eq_root hname, hu, sub_self]

/-! ## Reduction -/

/-- A vector that the equations solved alone map to zero is zero at what is fixed. -/
theorem eq_zero_of_alone (h : Merged f t s v M handle root) (hroot : ∀ x, u (root x) = u x)
    (hu : ∀ (k : Fin m) (q : Equation (Exact K)), s.equations[(k : Nat)]? = some q →
      q.state = .solvedAlone → (M *ᵥ u) k = 0) (x : Fin n)
    (hx : s.HasState .solvedAlone (handle x)) : u x = 0 := by
  obtain ⟨p, hp, hph, hstate⟩ := hx
  obtain ⟨q, hq, hqstate, href⟩ := h.paired.exists_equation p hp hstate
  obtain ⟨i, hi⟩ := List.getElem?_of_mem hq
  obtain ⟨k, rfl⟩ := h.exists_row hi
  have hpivot := h.entry_ne_zero hi (y := x) (h.pivots.alone q hq hqstate _ (by rw [href, hph]))
  have hrow := h.mulVec_alone hi (by rw [href, hph]) hroot
  rw [hu k q hi hqstate] at hrow
  exact (mul_eq_zero.1 hrow.symm).resolve_left hpivot

/-- Which rows map a vector to zero: those of equalities and of equations solved alone say that it
is constant on classes and zero at what is fixed; all others are live or eliminated. -/
theorem mulVec_eq_zero_iff (h : Merged f t s v M handle root) : M *ᵥ u = 0 ↔
    (∀ x, u (root x) = u x) ∧ (∀ x, s.HasState .solvedAlone (handle x) → u x = 0) ∧
      ∀ (k : Fin m) (q : Equation (Exact K)), s.equations[(k : Nat)]? = some q →
        q.state = .live ∨ q.state = .eliminated → (M *ᵥ u) k = 0 := by
  constructor
  · intro hu
    have hroot := h.eq_root hu
    exact ⟨hroot, h.eq_zero_of_alone hroot fun k _ _ _ => congrFun hu k,
      fun k _ _ _ => congrFun hu k⟩
  · rintro ⟨hroot, hfixed, hrest⟩
    funext k
    obtain ⟨_, q, _, hq, _⟩ := h.exists_equation k
    cases hstate : q.state with
    | live => exact hrest k q hq (Or.inl hstate)
    | eliminated => exact hrest k q hq (Or.inr hstate)
    | satisfied => exact h.mulVec_satisfied hq hstate hroot
    | solvedAlone =>
      obtain ⟨p, hp, hpstate, href, _⟩ := h.prepared.alone q (List.mem_of_getElem? hq) hstate
      obtain ⟨x, hx⟩ := h.exists_column hp
      rw [h.mulVec_alone hq (y := x) (by rw [href, hx]) hroot, hfixed x ⟨p, hp, hx.symm, hpstate⟩,
        mul_zero]
      rfl

variable {a b : Nat} {row : Fin a → Fin m} {column : Fin b → Fin n} {defined : List (Fin n × Fin m)}

/-- A column is left if its unknown is live. -/
theorem live_iff (h : Merged f t s v M handle root) (hn : Numbered s handle row column defined)
    (x : Fin n) : s.HasState .live (handle x) ↔ ∃ j, column j = x := by
  have hmem : (x : Nat) ∈ (s.select .live).1 ↔ ∃ j, column j = x := by
    rw [hn.column, List.mem_map_of_injective Fin.val_injective, List.mem_ofFn]
  rw [← hmem, mem_select_fst]
  obtain ⟨p, hp, hph⟩ := h.exists_param x
  constructor
  · intro hstate
    have hlive : p.state = .live :=
      HasState.unique h.handlesDistinct ⟨p, List.mem_of_getElem? hp, hph, rfl⟩ hstate
    exact ⟨p, hp, by simp [Selection.hasParam, hlive]⟩
  · rintro ⟨p', hp', hstate⟩
    obtain rfl : p = p' := Option.some.inj (hp.symm.trans hp')
    exact ⟨p, List.mem_of_getElem? hp, hph, by simpa [Selection.hasParam] using hstate⟩

/-- An unknown is recovered if an entry of the record defines it. -/
theorem eliminated_iff (h : Merged f t s v M handle root)
    (hn : Numbered s handle row column defined) (x : Fin n) :
    s.HasState .eliminated (handle x) ↔ x ∈ defined.map Prod.fst := by
  rw [HasState, ← h.prepared.replayable.mem_iff, ← hn.defined, List.map_map]
  change handle x ∈ defined.map (handle ∘ Prod.fst) ↔ _
  rw [← List.map_map, List.mem_map_of_injective h.injective]

/-- Every entry of the record has an equation that was eliminated with its unknown. -/
theorem exists_defining (h : Merged f t s v M handle root)
    (hn : Numbered s handle row column defined) {e : Fin n × Fin m} (he : e ∈ defined) :
    (handle e.1, (e.2 : Nat)) ∈ s.elimination.flatten ∧
      ∃ q, s.equations[(e.2 : Nat)]? = some q ∧ q.state = .eliminated := by
  have hmem : (handle e.1, (e.2 : Nat)) ∈ s.elimination.flatten := by
    rw [← hn.defined]
    exact List.mem_map_of_mem he
  obtain ⟨q, hq, hstate, _⟩ := h.prepared.replayable.defining _ hmem
  exact ⟨hmem, q, hq, hstate⟩

/-- The rows that are left, and those of the record, are the ones that are live or eliminated. -/
theorem forall_rows_iff (h : Merged f t s v M handle root)
    (hn : Numbered s handle row column defined) {P : Fin m → Prop} :
    (∀ (k : Fin m) (q : Equation (Exact K)), s.equations[(k : Nat)]? = some q →
        q.state = .live ∨ q.state = .eliminated → P k) ↔
      (∀ i, P (row i)) ∧ ∀ e ∈ defined, P e.2 := by
  constructor
  · intro hall
    refine ⟨fun i => ?_, fun e he => ?_⟩
    · obtain ⟨q, hq, hlive⟩ := hn.exists_live i
      exact hall _ q hq (Or.inl hlive)
    · obtain ⟨_, q, hq, hstate⟩ := h.exists_defining hn he
      exact hall _ q hq (Or.inr hstate)
  · rintro ⟨hrows, hsolving⟩ k q hq (hstate | hstate)
    · have hmem : (k : Nat) ∈ (s.select .live).2 :=
        mem_select_snd.2 ⟨q, hq, by simp [Selection.hasEquation, hstate]⟩
      rw [hn.row, List.mem_map_of_injective Fin.val_injective] at hmem
      obtain ⟨i, rfl⟩ := List.mem_ofFn.1 hmem
      exact hrows i
    · have hmem := h.prepared.covered _ q hq hstate
      rw [← hn.defined, List.map_map] at hmem
      obtain ⟨e, he, heq⟩ := List.mem_map.1 hmem
      rw [← Fin.val_injective heq]
      exact hsolving e he

/-- The Jacobian is reduced to the rows and columns of what is left live. -/
theorem reduces (h : Merged f t s v M handle root) (hn : Numbered s handle row column defined) :
    Reduces M root (fun x => s.HasState .solvedAlone (handle x)) defined Prod.fst Prod.snd row
      column := by
  have hd := h.handlesDistinct
  have hlive : ∀ j, s.HasState .live (handle (column j)) := fun j => (h.live_iff hn _).2 ⟨j, rfl⟩
  have hsolved : ∀ e ∈ defined, s.HasState .eliminated (handle e.1) :=
    fun e he => (h.eliminated_iff hn e.1).2 (List.mem_map_of_mem he)
  refine ⟨h.root_root, ?injective, ?root_column, ?root_fixed, ?root_solved, ?covered,
    ?column_not_fixed, ?column_not_solved, ?solved_not_fixed, ?nodup, ?mulVec, ?pivot, ?triangular,
    ?row_solved⟩
  case injective =>
    have hnodup := (s.nodup_select .live).1
    rw [hn.column] at hnodup
    exact List.nodup_ofFn.1 hnodup.of_map
  case root_column => exact fun j => h.root_eq_self (hlive j) (by decide)
  case root_fixed => exact fun x hx => h.root_eq_self hx (by decide)
  case root_solved => exact fun e he => h.root_eq_self (hsolved e he) (by decide)
  case covered =>
    intro x hx
    obtain ⟨state, hne, hstate⟩ := h.exists_hasState_root x
    rw [hx] at hstate
    cases state with
    | live => exact Or.inl ((h.live_iff hn x).1 hstate)
    | substituted => exact absurd rfl hne
    | solvedAlone => exact Or.inr (Or.inl hstate)
    | eliminated => exact Or.inr (Or.inr ((h.eliminated_iff hn x).1 hstate))
  case column_not_fixed =>
    intro j hfixed
    cases HasState.unique hd (hlive j) hfixed
  case column_not_solved =>
    intro j hmem
    cases HasState.unique hd (hlive j) ((h.eliminated_iff hn _).2 hmem)
  case solved_not_fixed =>
    intro e he hfixed
    cases HasState.unique hd (hsolved e he) hfixed
  case nodup =>
    have hnodup := h.prepared.replayable.handles_nodup
    rw [← hn.defined, List.map_map] at hnodup
    change (defined.map (handle ∘ Prod.fst)).Nodup at hnodup
    rw [← List.map_map] at hnodup
    exact hnodup.of_map
  case mulVec =>
    intro u
    rw [h.mulVec_eq_zero_iff, h.forall_rows_iff hn]
  case pivot =>
    intro e he
    obtain ⟨hmem, q, hq, _⟩ := h.exists_defining hn he
    exact h.entry_ne_zero hq (h.pivots.eliminated _ hmem q hq)
  case triangular =>
    have hpairwise := h.prepared.replayable.pairwise
    rw [← hn.defined, List.pairwise_map] at hpairwise
    refine hpairwise.imp_of_mem fun {e e'} he _ hdep => ?_
    obtain ⟨_, q, hq, _⟩ := h.exists_defining hn he
    exact h.entry_eq_zero hq (hdep q hq)
  case row_solved =>
    intro i e he
    obtain ⟨q, hq, hstate⟩ := hn.exists_live i
    obtain ⟨p, hp, hph, hpstate⟩ := hsolved e he
    refine h.entry_eq_zero hq ?_
    rw [← hph]
    exact h.prepared.replayable.live q (List.mem_of_getElem? hq) hstate p hp hpstate

/-- There are numbers for all that is left, and for the record of elimination. -/
theorem exists_numbered (h : Merged f t s v M handle root) :
    ∃ (a b : Nat) (row : Fin a → Fin m) (column : Fin b → Fin n) (defined : List (Fin n × Fin m)),
      Numbered s handle row column defined := by
  have hparams : s.params.length = n := by
    rw [← h.prepared.params.length_eq, h.jacobian.params]
  have hequations : s.equations.length = m := by
    rw [← h.prepared.equations.length_eq, h.jacobian.equations]
  obtain ⟨row, hrow⟩ := exists_ofFn (l := (s.select .live).2) (n := m) fun k hk => by
    obtain ⟨_, hq, _⟩ := mem_select_snd.1 hk
    exact hequations ▸ (List.getElem?_eq_some_iff.1 hq).1
  obtain ⟨column, hcolumn⟩ := exists_ofFn (l := (s.select .live).1) (n := n) fun i hi => by
    obtain ⟨_, hp, _⟩ := mem_select_fst.1 hi
    exact hparams ▸ (List.getElem?_eq_some_iff.1 hp).1
  obtain ⟨defined, hdefined⟩ : s.elimination.flatten ∈
      Set.range (List.map fun e : Fin n × Fin m => (handle e.1, (e.2 : Nat))) := by
    rw [Set.range_list_map]
    intro e he
    obtain ⟨p, hp, hph, _⟩ := (h.prepared.replayable.mem_iff e.1).1 (List.mem_map_of_mem he)
    obtain ⟨x, hx⟩ := h.exists_column hp
    obtain ⟨q, hq, _⟩ := h.prepared.replayable.defining e he
    obtain ⟨k, hk⟩ := h.exists_row hq
    exact ⟨(x, k), Prod.ext (hx.trans hph) hk⟩
  exact ⟨_, _, row, column, defined, hrow, hcolumn, hdefined⟩

/-- The Jacobian of what is left is the reduced one. It does not matter which values the parameters
have that the equations left do not refer to. -/
theorem isPartJacobian (h : Merged f t s v M handle root)
    (hn : Numbered s handle row column defined)
    (hw : ∀ q ∈ s.equations, q.state = .live → ∀ x, q.expr.dependsOn x = true → w x = v x) :
    s.IsPartJacobian .live w ((mergeColumns root M).submatrix row column) where
  rows := by rw [hn.row, List.length_map, List.length_ofFn]
  columns := by rw [hn.column, List.length_map, List.length_ofFn]
  entry i j k c q p hk hq hc hp := by
    obtain rfl : (row i : Nat) = k := by
      rw [hn.row, List.getElem?_map, List.getElem?_ofFn, dif_pos i.2] at hk
      exact Option.some.inj hk
    obtain rfl : (column j : Nat) = c := by
      rw [hn.column, List.getElem?_map, List.getElem?_ofFn, dif_pos j.2] at hc
      exact Option.some.inj hc
    obtain ⟨q', hq', hlive⟩ := hn.exists_live i
    obtain rfl : q = q' := Option.some.inj (hq.symm.trans hq')
    obtain ⟨p', hp', hph⟩ := h.exists_param (column j)
    obtain rfl : p = p' := Option.some.inj (hp.symm.trans hp')
    rw [hph]
    exact h.entry hq (hw q (List.mem_of_getElem? hq) hlive) (column j)

/-- What the rank of the Jacobian lacks to the number of all unknowns, the rank of the main system
lacks to the number of live ones. -/
theorem rank_add (h : Merged f t s v M handle root) (hrank : IsExactRank s.settings.rankOf)
    (hwritten : (s.linearize .live).1 = true)
    (hw : ∀ q ∈ s.equations, q.state = .live → ∀ x, q.expr.dependsOn x = true → w x = v x) :
    n + rankAt s.settings (s.linearize .live).2.linearization w =
      (s.select .live).1.length + M.rank := by
  obtain ⟨a, b, row, column, defined, hn⟩ := h.exists_numbered
  have hL := h.isPartJacobian hn hw
  have hsum := (h.reduces hn).rank_add
  rw [Fintype.card_fin, Fintype.card_fin] at hsum
  rw [hL.columns, ← hsum]
  exact congrArg (n + ·) (rankAt_linearize h.handlesDistinct hrank hwritten hL)

/-- If the rows of the Jacobian are independent, so are those that are left, as long as every
equality that has given a name is satisfied. -/
theorem rank_eq (h : Merged f t s v M handle root) (hn : Numbered s handle row column defined)
    (hequalities : SettlesEqualities f t s) (hfull : M.rank = m) :
    ((mergeColumns root M).submatrix row column).rank = a := by
  have hrow : Function.Injective row := by
    have hnodup := (s.nodup_select .live).2
    rw [hn.row] at hnodup
    exact List.nodup_ofFn.1 hnodup.of_map
  have hrank := (h.reduces hn).rank_eq_card hrow (fun u hu => ?_)
    (hfull.trans (Fintype.card_fin m).symm)
  · exact hrank.trans (Fintype.card_fin a)
  -- An equation that is not live is none of those that are left.
  have hoff : ∀ (k : Fin m) (q : Equation (Exact K)), s.equations[(k : Nat)]? = some q →
      q.state ≠ .live → (M *ᵥ u) k = 0 := by
    intro k q hq hstate
    refine hu k fun i hi => ?_
    obtain ⟨q', hq', hlive⟩ := hn.exists_live i
    rw [hi, hq] at hq'
    obtain rfl := Option.some.inj hq'
    exact hstate hlive
  have hroot : ∀ x, u (root x) = u x := by
    rcases hequalities with rfl | hequalities
    · exact fun x => by rw [h.injective (h.root x)]
    · refine h.eq_root_of_equalities fun k q₀ hq₀ hequality => ?_
      obtain ⟨_, q, hq₀', hq, _⟩ := h.exists_equation k
      obtain rfl := Option.some.inj (hq₀.symm.trans hq₀')
      refine hoff k q hq ?_
      simp [hequalities k q₀ q hq₀ hq hequality]
  exact ⟨hroot, h.eq_zero_of_alone hroot fun k q hq hstate => hoff k q hq (by simp [hstate])⟩

end Merged

end

end SketchSolver.EquationSystem
