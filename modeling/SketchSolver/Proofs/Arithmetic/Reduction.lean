import Mathlib.LinearAlgebra.Dual.Lemmas
import Mathlib.LinearAlgebra.Matrix.Rank

/-!
# Reduced matrices

A linear system is made smaller in three ways before its rank is asked for: columns of unknowns that
are equal are added up at one of them, unknowns that are zero are left out, and an unknown that one
row can be solved for is left out together with that row. `Reduces` says that the rows and columns
of a matrix have been used up in these ways, but for those of a smaller one.

The smaller matrix has the same nullity (`Reduces.finrank_ker`). A row that is solved for an unknown
and the demand that the unknown be zero cut off one dimension each, so one can stand for the other,
as long as there is a vector that meets all other conditions and neither of the two
(`finrank_vanishing`). For an unknown that has been left out this is the indicator of its class.

A vector that is mapped to zero is determined by its entries at the columns that are kept
(`Reduces.eq_zero_of_column`). So the two kernels are one, but for what has been left out: the
entries that their vectors can have at a column that is kept are the same
(`Reduces.exists_kernel_iff`).
-/

namespace SketchSolver

open Matrix

variable [Field K]

/-- The rows of a matrix are independent if and only if every right side has a solution. -/
theorem rank_eq_card_iff [Fintype ι] [Fintype κ] {M : Matrix ι κ K} :
    M.rank = Fintype.card ι ↔ Function.Surjective M.mulVec := by
  rw [← coe_mulVecLin, ← LinearMap.range_eq_top, Matrix.rank]
  constructor
  · intro hfull
    exact Submodule.eq_top_of_finrank_eq (hfull.trans (Module.finrank_fintype_fun_eq_card K).symm)
  · intro htop
    rw [htop, finrank_top, Module.finrank_fintype_fun_eq_card]

/-! ## Exchanging conditions -/

section
variable {V : Type*} [AddCommGroup V] [Module K V] {U : Submodule K V} {φ ψ : β → Module.Dual K V}

/-- The vectors of a space at which all functionals of a list vanish. -/
def vanishing (U : Submodule K V) (φ : β → Module.Dual K V) (l : List β) : Submodule K V where
  carrier := {w | w ∈ U ∧ ∀ e ∈ l, φ e w = 0}
  add_mem' hv hw := ⟨U.add_mem hv.1 hw.1, fun e he => by
    rw [map_add, hv.2 e he, hw.2 e he, add_zero]⟩
  zero_mem' := ⟨U.zero_mem, fun _ _ => map_zero _⟩
  smul_mem' c w hw := ⟨U.smul_mem c hw.1, fun e he => by rw [map_smul, hw.2 e he, smul_zero]⟩

/-- A vector is in the space if it is in the given one and all functionals vanish at it. -/
theorem mem_vanishing {l : List β} {w : V} :
    w ∈ vanishing U φ l ↔ w ∈ U ∧ ∀ e ∈ l, φ e w = 0 :=
  Iff.rfl

/-- The functionals may be imposed one after the other. -/
theorem vanishing_cons {e : β} {l : List β} :
    vanishing U φ (e :: l) = vanishing (U ⊓ LinearMap.ker (φ e)) φ l := by
  ext w
  simp only [mem_vanishing, Submodule.mem_inf, LinearMap.mem_ker, List.forall_mem_cons, and_assoc]

/-- The order in which functionals are imposed does not matter. -/
theorem vanishing_inf {f : Module.Dual K V} {l : List β} :
    vanishing (U ⊓ LinearMap.ker f) φ l = vanishing U φ l ⊓ LinearMap.ker f := by
  ext w
  simp only [mem_vanishing, Submodule.mem_inf]
  exact and_right_comm

variable [FiniteDimensional K V]

/-- A condition that some vector does not meet cuts off one dimension. -/
theorem finrank_inf_ker {f : Module.Dual K V} {b : V} (hb : b ∈ U) (hf : f b ≠ 0) :
    Module.finrank K (U ⊓ LinearMap.ker f : Submodule K V) + 1 = Module.finrank K U := by
  have hne : f.domRestrict U ≠ 0 := by
    intro hzero
    exact hf (LinearMap.congr_fun hzero ⟨b, hb⟩)
  have hker : LinearMap.ker (f.domRestrict U) = (LinearMap.ker f).comap U.subtype := rfl
  rw [← Module.Dual.finrank_ker_add_one_of_ne_zero hne, hker, ← Submodule.map_comap_subtype,
    Submodule.finrank_map_subtype_eq]

/-- Conditions can be exchanged one by one, if for each pair of them there is a vector that meets
neither, but the new ones behind it and the old ones before it. -/
theorem finrank_vanishing {b : β → V} : ∀ {l : List β} {U : Submodule K V},
    (∀ e ∈ l, b e ∈ U ∧ φ e (b e) ≠ 0 ∧ ψ e (b e) ≠ 0) →
    l.Pairwise (fun e e' => φ e (b e') = 0 ∧ ψ e' (b e) = 0) →
    Module.finrank K (vanishing U φ l) = Module.finrank K (vanishing U ψ l)
  | [], U, _, _ => congrArg (fun W : Submodule K V => Module.finrank K W) (by ext; simp [vanishing])
  | e :: l, U, hb, hl => by
    obtain ⟨⟨hmem, hφ, hψ⟩, hrest⟩ := List.forall_mem_cons.1 hb
    obtain ⟨hfirst, hl⟩ := List.pairwise_cons.1 hl
    have hrest' : ∀ e' ∈ l,
        b e' ∈ U ⊓ LinearMap.ker (φ e) ∧ φ e' (b e') ≠ 0 ∧ ψ e' (b e') ≠ 0 :=
      fun e' he' => ⟨⟨(hrest e' he').1, (hfirst e' he').1⟩, (hrest e' he').2⟩
    have hin : b e ∈ vanishing U ψ l := ⟨hmem, fun e' he' => (hfirst e' he').2⟩
    have hold := finrank_inf_ker hin hφ
    have hnew := finrank_inf_ker hin hψ
    rw [vanishing_cons, finrank_vanishing hrest' hl, vanishing_inf, vanishing_cons, vanishing_inf]
    omega

end

section
variable [DecidableEq κ] [Fintype γ] {root : κ → κ} {column : γ → κ}

/-! ## Classes -/

/-- The vector that is one at the members of a class and zero elsewhere. -/
def classVector (root : κ → κ) (y : κ) : κ → K :=
  fun x => if root x = y then 1 else 0

/-- The vector that takes over the values given for some roots in their classes, and is zero in all
others. -/
def spread (root : κ → κ) (column : γ → κ) : (γ → K) →ₗ[K] (κ → K) :=
  (Matrix.of fun x j => classVector (K := K) root (column j) x).mulVecLin

/-- A coordinate of the vector is the value given for its root. -/
theorem spread_apply (u : γ → K) (x : κ) :
    spread root column u x = ∑ j, if root x = column j then u j else 0 := by
  simp [spread, mulVec, dotProduct, classVector]

/-- A class has the value that its root is given. -/
theorem spread_of_root_eq (hinj : Function.Injective column) {u : γ → K} {x : κ} {j : γ}
    (hx : root x = column j) : spread root column u x = u j := by
  rw [spread_apply, Finset.sum_eq_single_of_mem j (Finset.mem_univ j) fun j' _ hne =>
    if_neg fun heq => hne (hinj (heq.symm.trans hx)), if_pos hx]

/-- A class whose root is given no value is zero. -/
theorem spread_of_root_ne {u : γ → K} {x : κ} (hx : ∀ j, column j ≠ root x) :
    spread root column u x = 0 := by
  rw [spread_apply, Finset.sum_eq_zero fun j _ => if_neg fun heq => hx j heq.symm]

variable [Fintype κ] {M : Matrix ι κ K}

/-! ## Merged columns -/

/-- The matrix with the columns of each class added up at its root. -/
def mergeColumns (root : κ → κ) (M : Matrix ι κ K) : Matrix ι κ K :=
  .of fun k y => ∑ x with root x = y, M k x

omit [Fintype γ] in
/-- Nothing is added up but at roots. -/
theorem mergeColumns_eq_zero (hroot : ∀ x, root (root x) = root x) (k : ι) {y : κ}
    (hy : root y ≠ y) : mergeColumns root M k y = 0 := by
  refine Finset.sum_eq_zero fun x hx => ?_
  have hx : root x = y := (Finset.mem_filter.1 hx).2
  exact absurd (by rw [← hx, hroot]) hy

omit [Fintype γ] in
/-- What a row of the matrix makes of a class is its entry for the merged column. -/
theorem mulVec_classVector (k : ι) (y : κ) :
    (M *ᵥ classVector root y) k = mergeColumns root M k y := by
  simp [mulVec, dotProduct, classVector, mergeColumns, Finset.sum_filter]

omit [Fintype γ] in
/-- A vector that is constant on classes is mapped by the merged columns. -/
theorem mulVec_eq_mergeColumns {w : κ → K} (hw : ∀ x, w (root x) = w x) :
    M *ᵥ w = mergeColumns root M *ᵥ w := by
  funext k
  simp only [mulVec, dotProduct, mergeColumns, of_apply, Finset.sum_mul]
  rw [← Finset.sum_fiberwise (f := fun x => M k x * w x) Finset.univ root]
  refine Finset.sum_congr rfl fun y _ => Finset.sum_congr rfl fun x hx => ?_
  rw [← hw x, (Finset.mem_filter.1 hx).2]

/-- A matrix maps what is spread as its merged columns map the values given. -/
theorem mulVec_spread (u : γ → K) :
    M *ᵥ spread root column u = (mergeColumns root M).submatrix id column *ᵥ u := by
  have hmul : M * (Matrix.of fun x j => classVector (K := K) root (column j) x) =
      (mergeColumns root M).submatrix id column := by
    ext k j
    exact mulVec_classVector k (column j)
  rw [← hmul, ← mulVec_mulVec]
  rfl

/-! ## Reduction -/

/-- The matrix is reduced to the rows at `row` and the columns at `column`. The columns of a class
are added up at its root; the roots are the columns that are kept, those of the unknowns that are
`fixed`, and those that some row is solved for (`solved`, `solving`), in an order in which no such
row has an entry in a column that comes after its own. -/
structure Reduces (M : Matrix ι κ K) (root : κ → κ) (fixed : κ → Prop) (defined : List δ)
    (solved : δ → κ) (solving : δ → ι) (row : ρ → ι) (column : γ → κ) : Prop where
  root_root : ∀ x, root (root x) = root x
  injective : Function.Injective column
  root_column : ∀ j, root (column j) = column j
  root_fixed : ∀ x, fixed x → root x = x
  root_solved : ∀ e ∈ defined, root (solved e) = solved e
  covered : ∀ x, root x = x → (∃ j, column j = x) ∨ fixed x ∨ x ∈ defined.map solved
  column_not_fixed : ∀ j, ¬ fixed (column j)
  column_not_solved : ∀ j, column j ∉ defined.map solved
  solved_not_fixed : ∀ e ∈ defined, ¬ fixed (solved e)
  nodup : (defined.map solved).Nodup
  /-- All rows but those that are kept or solved say that the unknowns of a class are equal, and
  that those that are fixed are zero. -/
  mulVec_eq_zero_iff : ∀ w, M *ᵥ w = 0 ↔ (∀ x, w (root x) = w x) ∧ (∀ x, fixed x → w x = 0) ∧
    (∀ i, (M *ᵥ w) (row i) = 0) ∧ ∀ e ∈ defined, (M *ᵥ w) (solving e) = 0
  pivot : ∀ e ∈ defined, mergeColumns root M (solving e) (solved e) ≠ 0
  triangular : defined.Pairwise fun e e' => mergeColumns root M (solving e) (solved e') = 0
  row_solved : ∀ i, ∀ e ∈ defined, mergeColumns root M (row i) (solved e) = 0

namespace Reduces

variable {fixed : κ → Prop} {defined : List δ} {solved : δ → κ} {solving : δ → ι} {row : ρ → ι}

/-- The vectors that are constant on classes, zero at what is fixed, and mapped to zero by the rows
that are kept. -/
def kept (M : Matrix ι κ K) (root : κ → κ) (fixed : κ → Prop) (row : ρ → ι) :
    Submodule K (κ → K) where
  carrier := {w | (∀ x, w (root x) = w x) ∧ (∀ x, fixed x → w x = 0) ∧
    ∀ i, (M *ᵥ w) (row i) = 0}
  add_mem' hv hw := ⟨fun x => congrArg₂ (· + ·) (hv.1 x) (hw.1 x),
    fun x hx => by rw [Pi.add_apply, hv.2.1 x hx, hw.2.1 x hx, add_zero],
    fun i => by rw [mulVec_add, Pi.add_apply, hv.2.2 i, hw.2.2 i, add_zero]⟩
  zero_mem' := ⟨fun _ => rfl, fun _ _ => rfl, fun i => by rw [mulVec_zero]; rfl⟩
  smul_mem' c w hw := ⟨fun x => congrArg (c * ·) (hw.1 x),
    fun x hx => by rw [Pi.smul_apply, hw.2.1 x hx, smul_zero],
    fun i => by rw [mulVec_smul, Pi.smul_apply, hw.2.2 i, smul_zero]⟩

/-- The vectors that are zero at all that is solved or fixed are the spread solutions of the smaller
matrix. -/
theorem vanishing_eq_map (h : Reduces M root fixed defined solved solving row column) :
    vanishing (kept M root fixed row) (fun e => LinearMap.proj (solved e)) defined =
      (LinearMap.ker ((mergeColumns root M).submatrix row column).mulVecLin).map
        (spread root column) := by
  have hrows : ∀ (u : γ → K) (i : ρ), (M *ᵥ spread root column u) (row i) =
      ((mergeColumns root M).submatrix row column *ᵥ u) i := by
    intro u i
    rw [mulVec_spread]
    rfl
  ext w
  simp only [mem_vanishing, LinearMap.proj_apply, Submodule.mem_map, LinearMap.mem_ker,
    mulVecLin_apply]
  constructor
  · rintro ⟨⟨hroot, hfixed, hrow⟩, hdefined⟩
    have hw : spread root column (fun j => w (column j)) = w := by
      funext x
      rcases h.covered _ (h.root_root x) with ⟨j, hj⟩ | hfix | hdef
      · rw [spread_of_root_eq h.injective hj.symm, hj, hroot]
      · have hne : ∀ j, column j ≠ root x := fun j hj => h.column_not_fixed j (by rwa [hj])
        rw [spread_of_root_ne hne, ← hroot, hfixed _ hfix]
      · have hne : ∀ j, column j ≠ root x := fun j hj => h.column_not_solved j (by rwa [hj])
        obtain ⟨e, he, heq⟩ := List.mem_map.1 hdef
        rw [spread_of_root_ne hne, ← hroot, ← heq, hdefined e he]
    refine ⟨_, funext fun i => ?_, hw⟩
    rw [← hrows, hw, hrow]
    rfl
  · rintro ⟨u, hu, rfl⟩
    have hzero : ∀ x, root x = x → (∀ j, column j ≠ x) → spread root column u x = 0 :=
      fun x hx hne => spread_of_root_ne fun j => hx.symm ▸ hne j
    refine ⟨⟨fun x => ?_, fun x hx => ?_, fun i => ?_⟩, fun e he => ?_⟩
    · rw [spread_apply, spread_apply, h.root_root]
    · exact hzero x (h.root_fixed x hx) fun j hj => h.column_not_fixed j (hj ▸ hx)
    · rw [hrows, hu]
      rfl
    · exact hzero (solved e) (h.root_solved e he) fun j hj =>
        h.column_not_solved j (hj ▸ List.mem_map_of_mem he)

/-- A matrix and the one it is reduced to have one nullity. -/
theorem finrank_ker (h : Reduces M root fixed defined solved solving row column) :
    Module.finrank K (LinearMap.ker M.mulVecLin) =
      Module.finrank K
        (LinearMap.ker ((mergeColumns root M).submatrix row column).mulVecLin) := by
  have hinj : Function.Injective (spread (K := K) root column) := by
    intro u u' heq
    funext j
    rw [← spread_of_root_eq h.injective (u := u) (h.root_column j), heq,
      spread_of_root_eq h.injective (h.root_column j)]
  have hker : LinearMap.ker M.mulVecLin = vanishing (kept M root fixed row)
      (fun e => (LinearMap.proj (solving e)).comp M.mulVecLin) defined := by
    ext w
    rw [LinearMap.mem_ker, mulVecLin_apply, h.mulVec_eq_zero_iff, mem_vanishing]
    exact ⟨fun ⟨h₁, h₂, h₃, h₄⟩ => ⟨⟨h₁, h₂, h₃⟩, h₄⟩, fun ⟨⟨h₁, h₂, h₃⟩, h₄⟩ => ⟨h₁, h₂, h₃, h₄⟩⟩
  have hone : ∀ y : κ, root y = y → classVector (K := K) root y y = 1 := fun y hy => if_pos hy
  have hexchange : Module.finrank K (vanishing (kept M root fixed row)
      (fun e => (LinearMap.proj (solving e)).comp M.mulVecLin) defined) =
      Module.finrank K (vanishing (kept M root fixed row)
        (fun e => LinearMap.proj (solved e)) defined) := by
    refine finrank_vanishing (b := fun e => classVector root (solved e)) (fun e he => ?_) ?_
    · refine ⟨⟨fun x => ?_, fun x hx => if_neg fun heq => ?_, fun i => ?_⟩, ?_, ?_⟩
      · simp only [classVector, h.root_root]
      · rw [h.root_fixed x hx] at heq
        exact h.solved_not_fixed e he (heq ▸ hx)
      · rw [mulVec_classVector, h.row_solved i e he]
      · rw [LinearMap.comp_apply, mulVecLin_apply, LinearMap.proj_apply, mulVec_classVector]
        exact h.pivot e he
      · rw [LinearMap.proj_apply, hone (solved e) (h.root_solved e he)]
        exact one_ne_zero
    · have hne := List.pairwise_map.1 h.nodup
      refine (h.triangular.and hne).imp_of_mem fun {e e'} _ he' ⟨htri, hne⟩ => ⟨?_, ?_⟩
      · rw [LinearMap.comp_apply, mulVecLin_apply, LinearMap.proj_apply, mulVec_classVector, htri]
      · exact if_neg fun heq => hne (heq.symm.trans (h.root_solved e' he'))
  rw [hker, hexchange, h.vanishing_eq_map]
  exact (Submodule.equivMapOfInjective _ hinj _).finrank_eq.symm

/-- What the rank of a matrix lacks to its width, the smaller one lacks too. -/
theorem rank_add (h : Reduces M root fixed defined solved solving row column) :
    Fintype.card κ + ((mergeColumns root M).submatrix row column).rank =
      Fintype.card γ + M.rank := by
  have hM := LinearMap.finrank_range_add_finrank_ker M.mulVecLin
  have hL := LinearMap.finrank_range_add_finrank_ker
    ((mergeColumns root M).submatrix row column).mulVecLin
  rw [h.finrank_ker] at hM
  rw [Module.finrank_fintype_fun_eq_card] at hM hL
  rw [Matrix.rank, Matrix.rank]
  omega

/-! ## Kernels -/

/-- A kept row maps a vector that is constant on classes, and zero at what is fixed, as the smaller
matrix maps its entries at the columns that are kept. -/
theorem mulVec_row (h : Reduces M root fixed defined solved solving row column) {w : κ → K}
    (hroot : ∀ x, w (root x) = w x) (hfixed : ∀ x, fixed x → w x = 0) (i : ρ) :
    ((mergeColumns root M).submatrix row column *ᵥ fun j => w (column j)) i =
      (M *ᵥ w) (row i) := by
  rw [mulVec_eq_mergeColumns hroot]
  refine Fintype.sum_of_injective column h.injective _ _ (fun y hy => ?_) fun _ => rfl
  change mergeColumns root M (row i) y * w y = 0
  by_cases hy' : root y = y
  · rcases h.covered y hy' with hcolumn | hfix | hdef
    · exact absurd hcolumn hy
    · rw [hfixed y hfix, mul_zero]
    · obtain ⟨e, he, rfl⟩ := List.mem_map.1 hdef
      rw [h.row_solved i e he, zero_mul]
  · rw [mergeColumns_eq_zero h.root_root (row i) hy', zero_mul]

omit [Fintype γ] in
/-- A vector that is mapped to zero is zero if it is so at the columns that are kept, since each
unknown that is solved for is determined by those before it. -/
theorem eq_zero_of_column (h : Reduces M root fixed defined solved solving row column) {w : κ → K}
    (hw : M *ᵥ w = 0) (hcolumn : ∀ j, w (column j) = 0) : w = 0 := by
  obtain ⟨hroot, hfixed, _, hsolving⟩ := (h.mulVec_eq_zero_iff w).1 hw
  have htriangular := List.pairwise_iff_getElem.1 h.triangular
  have hsolved : ∀ (i : Nat) (hi : i < defined.length), w (solved defined[i]) = 0 := by
    intro i
    induction i using Nat.strong_induction_on with
    | _ i ih =>
      intro hi
      have hrow := hsolving _ (List.getElem_mem hi)
      rw [mulVec_eq_mergeColumns hroot, mulVec, dotProduct,
        Finset.sum_eq_single_of_mem (solved defined[i]) (Finset.mem_univ _)] at hrow
      · exact (mul_eq_zero.1 hrow).resolve_left (h.pivot _ (List.getElem_mem hi))
      · intro y _ hne
        by_cases hy : root y = y
        · rcases h.covered y hy with ⟨j, rfl⟩ | hfix | hdef
          · rw [hcolumn j, mul_zero]
          · rw [hfixed y hfix, mul_zero]
          · obtain ⟨e, he, rfl⟩ := List.mem_map.1 hdef
            obtain ⟨k, hk, rfl⟩ := List.getElem_of_mem he
            rcases lt_trichotomy k i with hlt | rfl | hgt
            · rw [ih k hlt hk, mul_zero]
            · exact absurd rfl hne
            · rw [htriangular i k hi hk hgt, zero_mul]
        · rw [mergeColumns_eq_zero h.root_root _ hy, zero_mul]
  funext x
  rw [← hroot x]
  rcases h.covered _ (h.root_root x) with ⟨j, hj⟩ | hfix | hdef
  · rw [← hj]
    exact hcolumn j
  · exact hfixed _ hfix
  · obtain ⟨e, he, heq⟩ := List.mem_map.1 hdef
    obtain ⟨k, hk, rfl⟩ := List.getElem_of_mem he
    rw [← heq]
    exact hsolved k hk

/-- A matrix and the one it is reduced to map to zero vectors that have an entry at the same ones of
the columns that are kept. -/
theorem exists_kernel_iff (h : Reduces M root fixed defined solved solving row column) (j : γ) :
    (∃ u, (mergeColumns root M).submatrix row column *ᵥ u = 0 ∧ u j ≠ 0) ↔
      ∃ w, M *ᵥ w = 0 ∧ w (column j) ≠ 0 := by
  have hmaps : ∀ w, M *ᵥ w = 0 →
      ((mergeColumns root M).submatrix row column *ᵥ fun j => w (column j)) = 0 := by
    intro w hw
    obtain ⟨hroot, hfixed, hrow, _⟩ := (h.mulVec_eq_zero_iff w).1 hw
    exact funext fun i => (h.mulVec_row hroot hfixed i).trans (hrow i)
  constructor
  · -- The kernels have one dimension, so what maps the one into the other reaches all of it.
    have hsurjective : Function.Surjective ((LinearMap.funLeft K K column).restrict
        (p := LinearMap.ker M.mulVecLin)
        (q := LinearMap.ker ((mergeColumns root M).submatrix row column).mulVecLin) hmaps) := by
      rw [← LinearMap.injective_iff_surjective_of_finrank_eq_finrank h.finrank_ker,
        injective_iff_map_eq_zero]
      intro w hw
      exact Subtype.ext (h.eq_zero_of_column w.2 fun j => congrFun (congrArg Subtype.val hw) j)
    rintro ⟨u, hu, hne⟩
    obtain ⟨w, hw⟩ := hsurjective ⟨u, hu⟩
    have hcolumn : w.1 (column j) = u j := congrFun (congrArg Subtype.val hw) j
    exact ⟨w.1, w.2, by rwa [hcolumn]⟩
  · rintro ⟨w, hw, hne⟩
    exact ⟨_, hmaps w hw, hne⟩

/-- If the rows of a matrix are independent, so are those of the one it is reduced to, as long as
the rows that are not kept see to it that a vector is constant on classes and zero at what is
fixed. -/
theorem rank_eq_card [Fintype ι] [Fintype ρ]
    (h : Reduces M root fixed defined solved solving row column) (hrow : Function.Injective row)
    (hoff : ∀ w, (∀ k, (∀ i, row i ≠ k) → (M *ᵥ w) k = 0) →
      (∀ x, w (root x) = w x) ∧ ∀ x, fixed x → w x = 0)
    (hfull : M.rank = Fintype.card ι) :
    ((mergeColumns root M).submatrix row column).rank = Fintype.card ρ := by
  rw [rank_eq_card_iff] at hfull ⊢
  intro b
  obtain ⟨w, hw⟩ := hfull (Function.extend row b 0)
  obtain ⟨hroot, hfixed⟩ := hoff w fun k hk => by
    rw [hw, Function.extend_apply' _ _ _ fun ⟨i, hi⟩ => hk i hi]
    rfl
  refine ⟨fun j => w (column j), funext fun i => ?_⟩
  rw [h.mulVec_row hroot hfixed, hw, hrow.extend_apply]

end Reduces

end

end SketchSolver
