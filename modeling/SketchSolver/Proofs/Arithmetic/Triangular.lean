import Mathlib.Data.List.GetD
import Mathlib.Data.List.FinRange
import Mathlib.Data.List.Perm.Basic
import SketchSolver.Proofs.Arithmetic.Orthogonal
import SketchSolver.Proofs.Arithmetic.Rank

/-!
# Triangular form

A factorization of numbers is one. Every step takes the longest column (`longestColumn_spec`),
sends it to a multiple of the first unit vector and settles one entry of each other column
(`PivotedColumn.reflect_spec`), so after as many steps as there are rows and columns the reflections
have brought the columns, in the order in which they were taken, to triangular form
(`triangularizes_triangularize`). Read as a statement about matrices, the reflections are the
transpose of an orthogonal matrix, and its product with the given one, whose columns have been
permuted, is the triangular factor (`triangularFactor`, `PivotedQR.exists_factors`).
-/

namespace SketchSolver

open PivotedQR (reflectAll reflectAll_numbers)

/-! ## Pivots -/

/-- Exchanging the first element brings the other one to the front. -/
theorem exchangeFirst_of_getElem? {place : Nat} {l : List β} {y : β} (hy : l[place]? = some y) :
    ∃ others, exchangeFirst place l = y :: others ∧ (y :: others).Perm l := by
  cases l with
  | nil => cases hy
  | cons x rest =>
    cases place with
    | zero =>
      obtain rfl : x = y := Option.some.inj hy
      exact ⟨rest, rfl, .refl _⟩
    | succ k =>
      have hk : rest[k]? = some y := hy
      refine ⟨rest.set k x, ?_, ?_⟩
      · rw [exchangeFirst]
        simp only [hk]
      · obtain ⟨hlt, rfl⟩ := List.getElem?_eq_some_iff.1 hk
        have hset := (List.set_perm_cons_eraseIdx hlt x).cons rest[k]
        have hback := (List.getElem_cons_eraseIdx_perm hlt).cons x
        exact (hset.trans (.swap ..)).trans hback

/-- What is reordered after mapping can be reordered before. -/
theorem exists_perm_of_map {f : β → γ} {l : List β} {m : List γ} (h : m.Perm (l.map f)) :
    ∃ l' : List β, m = l'.map f ∧ l'.Perm l := by
  obtain ⟨l', hmap, hperm⟩ := List.perm_comp_forall₂ h
    (List.forall₂_map_left_iff.2 (List.forall₂_same.2 fun _ _ => rfl) :
      List.Forall₂ (fun b a => b = f a) (l.map f) l)
  refine ⟨l', ?_, hperm⟩
  rw [← List.forall₂_eq_eq_eq, List.forall₂_map_right_iff]
  exact hmap

/-- A list that is reordered together with its positions has another order of positions. -/
theorem exists_perm_of_zipIdx {l : List β} {order : List (β × Nat)} {m : Nat} (hm : l.length = m)
    (h : order.Perm l.zipIdx) : ∃ σ : Equiv.Perm (Fin m), ∀ k : Fin m, ∃ x,
      l[(σ k : Nat)]? = some x ∧ order[(k : Nat)]? = some (x, (σ k : Nat)) := by
  have hlength : order.length = m := by rw [h.length_eq, List.length_zipIdx, hm]
  have hentry : ∀ k : Fin m, ∃ (i : Fin m) (x : β), l[(i : Nat)]? = some x ∧
      order[(k : Nat)]? = some (x, (i : Nat)) := by
    intro k
    have hk := List.getElem?_eq_getElem (hlength.symm ▸ k.2 : (k : Nat) < order.length)
    have hx := List.mem_zipIdx_iff_getElem?.1 (h.subset (List.mem_of_getElem? hk))
    exact ⟨⟨_, hm ▸ (List.getElem?_eq_some_iff.1 hx).1⟩, _, hx, hk⟩
  choose σ x hx hk using hentry
  have hnodup : (order.map Prod.snd).Nodup := by
    rw [(h.map Prod.snd).nodup_iff, List.zipIdx_map_snd]
    exact List.nodup_range'
  have hinj : Function.Injective σ := by
    intro k k' heq
    have hpos : ∀ k : Fin m, (order.map Prod.snd)[(k : Nat)]? = some (σ k : Nat) :=
      fun k => by rw [List.getElem?_map, hk]; rfl
    refine Fin.ext ((List.getElem?_inj ?_ hnodup).1 ((hpos k).trans ?_))
    · rw [List.length_map, hlength]
      exact k.2
    · rw [hpos, heq]
  exact ⟨.ofBijective σ (Finite.injective_iff_bijective.1 hinj), fun k => ⟨x k, hx k, hk k⟩⟩

/-- Zeros at the end do not show. -/
theorem getD_append_replicate [Zero β] (l : List β) (n i : Nat) :
    (l ++ List.replicate n 0).getD i 0 = l.getD i 0 := by
  rcases Nat.lt_or_ge i l.length with hi | hi
  · exact List.getD_append _ _ _ _ hi
  · rw [List.getD_append_right _ _ _ _ hi, List.getD_eq_default _ _ hi,
      List.getD_eq_getElem?_getD, List.getElem?_replicate]
    split <;> rfl

/-! ## Triangular factors -/

section
open Matrix
variable [Field K] {n m : Nat} {Q : Matrix (Fin n) (Fin n) K} {M : Matrix (Fin n) (Fin m) K}
  {σ : Equiv.Perm (Fin m)}

/-- What an orthogonal matrix leaves of the columns of another one, in the given order. -/
def triangularFactor (Q : Matrix (Fin n) (Fin n) K) (M : Matrix (Fin n) (Fin m) K)
    (σ : Equiv.Perm (Fin m)) : Matrix (Fin n) (Fin m) K :=
  Qᵀ * M.submatrix id σ

/-- The triangular factor maps an unknown as the matrix does, once the unknown is at the place of
its column. -/
theorem triangularFactor_mulVec (x : Fin m → K) :
    triangularFactor Q M σ *ᵥ x = Qᵀ *ᵥ (M *ᵥ (x ∘ σ.symm)) := by
  rw [triangularFactor, ← mulVec_mulVec]
  exact congrArg (Qᵀ *ᵥ ·) (submatrix_mulVec_equiv M x id σ)

/-- The triangular factor has the rank of the matrix, of which it is a product with invertible
ones. -/
theorem rank_triangularFactor (hQ : Q * Qᵀ = 1) : (triangularFactor Q M σ).rank = M.rank := by
  have hunit : IsUnit Qᵀ.det :=
    IsUnit.of_mul_eq_one Q.det (by rw [← det_mul, mul_eq_one_comm.1 hQ, det_one])
  rw [triangularFactor, rank_mul_eq_right_of_isUnit_det _ _ hunit]
  exact M.rank_submatrix (Equiv.refl _) σ

end

variable [Field K] [LinearOrder K] [PartialFunctions K] [IsStrictOrderedRing K]

/-- The column that is chosen is the longest one. -/
theorem longestColumn_spec {columns : List (PivotedColumn (Exact K))}
    (hcolumns : ∀ c ∈ columns, c.IsNumeric) (hne : columns ≠ []) :
    ∃ c, columns[(longestColumn columns).1]? = some c ∧ ∃ x : K,
      (longestColumn columns).2 = .number x ∧ squaredNorm c.openPart = .number x ∧
      ∀ c' ∈ columns, ∃ s ≤ x, squaredNorm c'.openPart = .number s := by
  have hfold : ∀ (l : List (PivotedColumn (Exact K) × Nat)) (place : Nat) (b : K),
      (∀ e ∈ l, e.1.IsNumeric) → ∃ (k : Nat) (x : K), l.foldl (fun (place, best) (c, k) =>
        let s := squaredNorm c.openPart
        if best < s then (k, s) else (place, best)) (place, Exact.number b) = (k, .number x) ∧
          b ≤ x ∧ (∀ e ∈ l, ∃ s ≤ x, squaredNorm e.1.openPart = .number s) ∧
          (k = place ∧ x = b ∨ ∃ c, (c, k) ∈ l ∧ squaredNorm c.openPart = .number x) := by
    intro l
    induction l with
    | nil => exact fun place b _ => ⟨place, b, rfl, le_rfl, nofun, Or.inl ⟨rfl, rfl⟩⟩
    | cons e l ih =>
      obtain ⟨c, k⟩ := e
      intro place b hl
      obtain ⟨⟨_, hopen⟩, hrest⟩ := List.forall_mem_cons.1 hl
      obtain ⟨s, hs, _⟩ := exists_squaredNorm hopen
      simp only [List.foldl_cons, hs, List.forall_mem_cons]
      by_cases hbs : b < s
      · rw [if_pos (show (Exact.number b : Exact K) < .number s from hbs)]
        obtain ⟨k', x, hfound, hle, hall, hlast⟩ := ih k s hrest
        refine ⟨k', x, hfound, hbs.le.trans hle, ⟨⟨s, hle, rfl⟩, hall⟩, Or.inr ?_⟩
        rcases hlast with ⟨rfl, rfl⟩ | ⟨c', hmem, hc'⟩
        · exact ⟨c, List.mem_cons_self .., hs⟩
        · exact ⟨c', List.mem_cons_of_mem _ hmem, hc'⟩
      · rw [if_neg (show ¬ (Exact.number b : Exact K) < .number s from hbs)]
        obtain ⟨k', x, hfound, hle, hall, hlast⟩ := ih place b hrest
        refine ⟨k', x, hfound, hle, ⟨⟨s, (not_lt.1 hbs).trans hle, rfl⟩, hall⟩, hlast.imp id ?_⟩
        exact fun ⟨c', hmem, hc'⟩ => ⟨c', List.mem_cons_of_mem _ hmem, hc'⟩
  obtain ⟨k, x, hfound, _, hall, hlast⟩ := hfold columns.zipIdx 0 (-1) fun e he =>
    hcolumns e.1 (List.fst_mem_of_mem_zipIdx he)
  have hlongest : longestColumn columns = (k, .number x) := hfound
  have hall : ∀ c ∈ columns, ∃ s ≤ x, squaredNorm c.openPart = .number s := by
    intro c hc
    obtain ⟨i, hi⟩ := List.getElem?_of_mem hc
    exact hall (c, i) (List.mem_zipIdx_iff_getElem?.2 hi)
  obtain ⟨c, hmem, hc⟩ : ∃ c, (c, k) ∈ columns.zipIdx ∧ squaredNorm c.openPart = .number x := by
    refine hlast.resolve_left fun ⟨_, hx⟩ => ?_
    -- A length is more than what the search begins with.
    obtain ⟨c, hc⟩ := List.exists_mem_of_ne_nil columns hne
    obtain ⟨s, hle, hs⟩ := hall c hc
    obtain ⟨s', hs', hpos⟩ := exists_squaredNorm (hcolumns c hc).openPart
    obtain rfl : s' = s := Exact.number.inj (hs'.symm.trans hs)
    linarith
  rw [hlongest]
  exact ⟨c, List.mem_zipIdx_iff_getElem?.1 hmem, x, rfl, hc, hall⟩

/-! ## Steps -/

/-- The column that another one has become once some reflections have been applied to its open
part. -/
structure PivotedColumn.Reflected (rs : List (Reflection (Exact K)))
    (c c' : PivotedColumn (Exact K)) : Prop where
  source : c'.source = c.source
  entry : ∀ i, c'.entry i = (c.settled ++ reflectAll rs c.openPart).getD i 0

/-- A column of numbers whose open part has the given length. -/
structure PivotedColumn.OpensTo (height : Nat) (c : PivotedColumn (Exact K)) : Prop where
  isNumeric : c.IsNumeric
  length : c.openPart.length = height

/-- Reflections bring the open parts of columns of the given height, in some order, to triangular
form. -/
structure Triangularizes (height : Nat) (columns : List (PivotedColumn (Exact K)))
    (rs : List (Reflection (Exact K))) (columns' : List (PivotedColumn (Exact K))) : Prop where
  orthogonal : Orthogonal height rs
  isNumeric : ∀ c ∈ columns', c.IsNumeric
  exists_order : ∃ order, order.Perm columns ∧
    List.Forall₂ (PivotedColumn.Reflected rs) order columns' ∧
    ∀ k c, order[k]? = some c → ∀ i, k < i → (reflectAll rs c.openPart).getD i 0 = 0

section
variable {n : Nat} {w : K} {tail : List K} {columns columns' : List (PivotedColumn (Exact K))}
  {c : PivotedColumn (Exact K)}

omit [IsStrictOrderedRing K] in
/-- There is nothing to do where all open parts are zero. -/
theorem Triangularizes.of_zero (hnumeric : ∀ c ∈ columns, c.IsNumeric)
    (hperm : columns'.Perm columns)
    (hzero : ∀ c ∈ columns', c.openPart = List.replicate n 0) :
    Triangularizes n columns [] columns' where
  orthogonal := .nil n
  isNumeric c hc := hnumeric c (hperm.subset hc)
  exists_order := by
    refine ⟨columns', hperm, List.forall₂_same.2 fun c _ => ⟨rfl, fun _ => rfl⟩,
      fun k c hc i _ => ?_⟩
    rw [reflectAll, hzero c (List.mem_of_getElem? hc)]
    exact getD_append_replicate [] n i

omit [LinearOrder K] [PartialFunctions K] [IsStrictOrderedRing K] [Field K] in
/-- The open part of a column consists of numbers of the field, as many as it has entries. -/
theorem PivotedColumn.OpensTo.exists_eq (hc : c.OpensTo n) :
    ∃ y : List K, y.length = n ∧ c.openPart = numbers y := by
  obtain ⟨y, hy⟩ := hc.isNumeric.openPart.exists_eq
  refine ⟨y, ?_, hy⟩
  rw [← hc.length, hy, numbers, List.length_map]

omit [LinearOrder K] [PartialFunctions K] [IsStrictOrderedRing K] [Field K] in
/-- A column is numeric after an entry of it is settled. -/
theorem PivotedColumn.IsNumeric.settle (hc : c.IsNumeric) (a : K) (ys : List K) :
    ({ c with settled := c.settled ++ [.number a], openPart := numbers ys } :
      PivotedColumn (Exact K)).IsNumeric := by
  refine ⟨fun b hb => ?_, numbers_numbers ys⟩
  rcases List.mem_append.1 hb with hb | hb
  · exact hc.settled b hb
  · rw [List.mem_singleton.1 hb]
    exact Exact.isNumber_number a

/-- A step settles the first open entry of a column. -/
theorem PivotedColumn.reflect_spec (htail : tail.length = n)
    (hw : w * dot (1 :: tail) (1 :: tail) = 2) (hc : c.OpensTo (n + 1)) :
    ∃ (a : K) (ys : List K), ys.length = n ∧
      c.reflect ⟨.number w, numbers tail⟩ =
        { c with settled := c.settled ++ [.number a], openPart := numbers ys } ∧
      ∀ rs, reflectAll (⟨.number w, numbers tail⟩ :: rs) c.openPart =
        .number a :: reflectAll rs (numbers ys) := by
  obtain ⟨y, hy, hc⟩ := hc.exists_eq
  have hlength : tail.length + 1 = y.length := by rw [htail, hy]
  obtain ⟨a, ys, hmirror, hys⟩ := exists_mirror_eq (w := w) (v := 1 :: tail)
    (congrArg (· + 1) htail) hy
  refine ⟨a, ys, hys, ?_, fun rs => ?_⟩
  · rw [PivotedColumn.reflect, hc, Reflection.apply_numbers hlength, hmirror]
    rfl
  · rw [hc, reflectAll_numbers hlength hw hmirror]

/-- A step leaves a column with one open entry less. -/
theorem PivotedColumn.OpensTo.reflect (htail : tail.length = n)
    (hw : w * dot (1 :: tail) (1 :: tail) = 2) (hc : c.OpensTo (n + 1)) :
    (c.reflect ⟨.number w, numbers tail⟩).OpensTo n := by
  obtain ⟨a, ys, hys, hreflect, _⟩ := reflect_spec htail hw hc
  rw [hreflect]
  exact ⟨hc.isNumeric.settle a ys, (List.length_map _).trans hys⟩

/-- What a step leaves is brought to triangular form by the steps that follow. -/
theorem Triangularizes.step {pivot : PivotedColumn (Exact K)}
    {others : List (PivotedColumn (Exact K))} {rs : List (Reflection (Exact K))} {x d : K}
    {xs : List K} (htail : tail.length = n) (hw : w * dot (1 :: tail) (1 :: tail) = 2)
    (hperm : (pivot :: others).Perm columns) (hpivot : pivot.openPart = numbers (x :: xs))
    (hxs : xs.length = n) (hmirror : mirror w (1 :: tail) (x :: xs) = d :: List.replicate n 0)
    (hnumeric : pivot.IsNumeric) (hothers : ∀ c ∈ others, c.OpensTo (n + 1))
    (h : Triangularizes n (others.map (·.reflect ⟨.number w, numbers tail⟩)) rs columns') :
    Triangularizes (n + 1) columns (⟨.number w, numbers tail⟩ :: rs)
      ({ pivot with settled := pivot.settled ++ [.number d], openPart := [] } :: columns') := by
  obtain ⟨order, horder, hreflected, htriangular⟩ := h.exists_order
  have hsettle : ∀ c ∈ others, ∃ (a : K) (ys : List K), ys.length = n ∧
      c.reflect ⟨.number w, numbers tail⟩ =
        { c with settled := c.settled ++ [.number a], openPart := numbers ys } ∧
      reflectAll (⟨.number w, numbers tail⟩ :: rs) c.openPart =
        .number a :: reflectAll rs (numbers ys) := by
    intro c hc
    obtain ⟨a, ys, hys, hreflect, himage⟩ := PivotedColumn.reflect_spec htail hw (hothers c hc)
    exact ⟨a, ys, hys, hreflect, himage rs⟩
  -- The order in which the columns end up is one of those that have been reflected.
  obtain ⟨order', rfl, hperm'⟩ := exists_perm_of_map horder
  have hsettle' := fun c hc => hsettle c (hperm'.subset hc)
  have himage : reflectAll (⟨.number w, numbers tail⟩ :: rs) pivot.openPart =
      .number d :: List.replicate n 0 := by
    have hlength : tail.length + 1 = (x :: xs).length := by rw [htail, List.length_cons, hxs]
    have hzeros : numbers (List.replicate n (0 : K)) = List.replicate n 0 := List.map_replicate
    rw [hpivot, reflectAll_numbers hlength hw hmirror, hzeros,
      PivotedQR.reflectAll_zero n h.orthogonal.isNumeric]
  refine ⟨.cons htail hw h.orthogonal,
    List.forall_mem_cons.2 ⟨hnumeric.settle d [], h.isNumeric⟩, pivot :: order',
    (hperm'.cons pivot).trans hperm, .cons ⟨rfl, fun i => ?pivot⟩ ?others,
    fun k c hc i hi => ?triangular⟩
  case pivot =>
    have hlast := getD_append_replicate (pivot.settled ++ [.number d]) n i
    rw [List.append_assoc] at hlast
    change (pivot.settled ++ [Exact.number d] ++ []).getD i 0 = _
    rw [List.append_nil, himage]
    exact hlast.symm
  case others =>
    refine ((List.forall₂_and_left _ _).2
      ⟨hsettle', List.forall₂_map_left_iff.1 hreflected⟩).imp ?_
    rintro c c' ⟨⟨a, ys, _, hreflect, himage⟩, hsource, hentry⟩
    rw [hreflect] at hsource hentry
    refine ⟨hsource, fun i => ?_⟩
    rw [hentry, himage, List.append_assoc]
    rfl
  case triangular =>
    cases k with
    | zero =>
      obtain rfl : pivot = c := Option.some.inj hc
      rw [himage]
      exact (getD_append_replicate [(.number d : Exact K)] n i).trans (List.getD_eq_default _ _ hi)
    | succ k =>
      obtain ⟨i, rfl⟩ := Nat.exists_eq_add_one_of_ne_zero (Nat.ne_of_gt (Nat.zero_lt_of_lt hi))
      obtain ⟨a, ys, _, hreflect, himage⟩ := hsettle' c (List.mem_of_getElem? hc)
      have hc : order'[k]? = some c := hc
      have hrest := htriangular k _ (by rw [List.getElem?_map, hc]; rfl) i
        (Nat.lt_of_succ_lt_succ hi)
      simp only [hreflect] at hrest
      rw [himage]
      exact hrest

variable [LawfulRoot K] [TotalRoot K]

/-- A pivot that is longest among the columns, and a reflection that sends its open part to a
multiple of the first unit vector. -/
structure TakesPivot (n : Nat) (columns : List (PivotedColumn (Exact K)))
    (pivot : PivotedColumn (Exact K)) (others : List (PivotedColumn (Exact K))) (w d : K)
    (tail : List K) : Prop where
  perm : (pivot :: others).Perm columns
  length : tail.length = n
  weight : w * dot (1 :: tail) (1 :: tail) = 2
  image : ∃ x xs, pivot.openPart = numbers (x :: xs) ∧ xs.length = n ∧
    mirror w (1 :: tail) (x :: xs) = d :: List.replicate n 0
  longest : ∀ c ∈ columns, ∃ y, c.openPart = numbers y ∧ dot y y ≤ d * d

/-- A step ends the factorization if all open parts are zero, and takes a pivot otherwise. -/
theorem triangularize_cases (steps : Nat) (hcolumns : ∀ c ∈ columns, c.OpensTo (n + 1))
    (hne : columns ≠ []) :
    (∃ columns', columns'.Perm columns ∧
      (∀ c ∈ columns', c.openPart = List.replicate (n + 1) 0) ∧
      triangularize (steps + 1) columns = ([], columns')) ∨
    ∃ pivot others w d tail, TakesPivot n columns pivot others w d tail ∧
      triangularize (steps + 1) columns =
        let r : Reflection (Exact K) := ⟨.number w, numbers tail⟩
        let rest := triangularize steps (others.map (·.reflect r))
        (r :: rest.1, { pivot with
          settled := pivot.settled ++ [.number d], openPart := [] } :: rest.2) := by
  have hnumeric : ∀ c ∈ columns, c.IsNumeric := fun c hc => (hcolumns c hc).isNumeric
  obtain ⟨pivot, hpivot, norm, hbest, hnorm, hall⟩ := longestColumn_spec hnumeric hne
  obtain ⟨others, hexchange, hperm⟩ := exchangeFirst_of_getElem? hpivot
  obtain ⟨y, hy, hopen⟩ := (hcolumns pivot (List.mem_of_getElem? hpivot)).exists_eq
  obtain ⟨x, xs, rfl⟩ := List.exists_cons_of_length_eq_add_one hy
  rw [hopen, squaredNorm_numbers] at hnorm
  obtain rfl := Exact.number.inj hnorm
  obtain ⟨length, hsqrt⟩ := Exact.exists_sqrt_eq (dot_self_nonneg (x :: xs))
  obtain ⟨_, hnumber, hnonneg, hsquare⟩ := Exact.sqrt_eq_number.1 hsqrt
  obtain rfl := Exact.number.inj hnumber
  have hlongest : ∀ c ∈ columns, ∃ y : List K, y.length = n + 1 ∧ c.openPart = numbers y ∧
      dot y y ≤ length * length := by
    intro c hc
    obtain ⟨y, hy, hopen⟩ := (hcolumns c hc).exists_eq
    obtain ⟨s, hle, hs⟩ := hall c hc
    rw [hopen, squaredNorm_numbers] at hs
    obtain rfl := Exact.number.inj hs
    exact ⟨y, hy, hopen, hle.trans_eq hsquare.symm⟩
  rw [triangularize]
  simp only [hbest, hexchange, hsqrt]
  split
  case isTrue hzero =>
    obtain rfl : length = 0 := Exact.number.inj (Exact.beq_number.1 hzero)
    refine Or.inl ⟨_, hperm, fun c hc => ?_, rfl⟩
    obtain ⟨y, hy, hopen, hle⟩ := hlongest c (hperm.subset hc)
    rw [mul_zero] at hle
    rw [hopen, eq_replicate_of_dot_self (le_antisymm hle (dot_self_nonneg y)), hy]
    exact List.map_replicate
  case isFalse hne =>
    have hpos : 0 < length :=
      hnonneg.lt_of_ne fun h0 => hne (Exact.beq_number.2 (congrArg Exact.number h0.symm))
    obtain ⟨w, d, tail, halong, htail, hw, hmirror⟩ := Reflection.along_spec hpos hsquare
    have hopen' : pivot.openPart = .number x :: numbers xs := hopen
    simp only [hopen', halong]
    have hxs : xs.length = n := Nat.succ.inj hy
    rw [hxs] at htail hmirror
    -- A reflection keeps lengths, so the diagonal entry is as long as the pivot.
    have hdiagonal : length * length = d * d := by
      have hkeep := dot_mirror (y := x :: xs) (z := x :: xs) hw (by simp [htail, hxs])
        (by simp [htail, hxs])
      rw [hmirror, dot_cons, dot_replicate_zero, add_zero] at hkeep
      exact hsquare.trans hkeep.symm
    refine Or.inr ⟨pivot, others, w, d, tail, ⟨hperm, htail, hw, ⟨x, xs, hopen, hxs, hmirror⟩,
      fun c hc => ?_⟩, rfl⟩
    obtain ⟨y, _, hopen, hle⟩ := hlongest c hc
    exact ⟨y, hopen, hle.trans_eq hdiagonal⟩

namespace TakesPivot

variable {pivot : PivotedColumn (Exact K)} {others : List (PivotedColumn (Exact K))} {d : K}

omit [PartialFunctions K] [IsStrictOrderedRing K] [LawfulRoot K] [TotalRoot K] in
/-- The columns without the pivot are among those there were. -/
theorem mem_columns (h : TakesPivot n columns pivot others w d tail) :
    ∀ c ∈ others, c ∈ columns :=
  fun _ hc => h.perm.subset (List.mem_cons_of_mem _ hc)

omit [LawfulRoot K] [TotalRoot K] in
/-- The rest of the matrix is one row smaller. -/
theorem opensTo_rest (h : TakesPivot n columns pivot others w d tail)
    (hcolumns : ∀ c ∈ columns, c.OpensTo (n + 1)) :
    ∀ c ∈ others.map (·.reflect ⟨.number w, numbers tail⟩), c.OpensTo n :=
  List.forall_mem_map.2 fun c hc => (hcolumns c (h.mem_columns c hc)).reflect h.length h.weight

omit [IsStrictOrderedRing K] [LawfulRoot K] [TotalRoot K] in
/-- The rest of the matrix is one column smaller. -/
theorem length_rest (h : TakesPivot n columns pivot others w d tail) :
    (others.map (·.reflect ⟨.number w, numbers tail⟩)).length + 1 = columns.length := by
  rw [List.length_map, ← h.perm.length_eq, List.length_cons]

end TakesPivot

/-- As many steps as there are rows and columns bring the columns to triangular form. -/
theorem triangularizes_triangularize : ∀ {height : Nat} {columns : List (PivotedColumn (Exact K))}
    (steps : Nat), (∀ c ∈ columns, c.OpensTo height) → steps = min height columns.length →
      Triangularizes height columns (triangularize steps columns).1 (triangularize steps columns).2
  | height, columns, 0, hcolumns, hsteps => by
    refine .of_zero (fun c hc => (hcolumns c hc).isNumeric) (.refl _) fun c hc => ?_
    have hpos : 0 < columns.length := List.length_pos_of_mem hc
    obtain rfl : height = 0 := by omega
    exact List.eq_nil_of_length_eq_zero (hcolumns c hc).length
  | height, columns, steps + 1, hcolumns, hsteps => by
    obtain ⟨n, rfl⟩ : ∃ n, height = n + 1 := ⟨height - 1, by omega⟩
    have hne : columns ≠ [] := by
      rintro rfl
      simp at hsteps
    have hnumeric : ∀ c ∈ columns, c.IsNumeric := fun c hc => (hcolumns c hc).isNumeric
    rcases triangularize_cases steps hcolumns hne with ⟨columns', hperm, hzero, heq⟩ |
      ⟨pivot, others, w, d, tail, hpivot, heq⟩
    · rw [heq]
      exact .of_zero hnumeric hperm hzero
    · obtain ⟨x, xs, hopen, hxs, hmirror⟩ := hpivot.image
      have hlength := hpivot.length_rest
      rw [heq]
      exact .step hpivot.length hpivot.weight hpivot.perm hopen hxs hmirror
        (hnumeric pivot (hpivot.perm.subset (List.mem_cons_self ..)))
        (fun c hc => hcolumns c (hpivot.mem_columns c hc))
        (triangularizes_triangularize steps (hpivot.opensTo_rest hcolumns) (by omega))

end

/-! ## Factors -/

open Matrix

omit [LinearOrder K] [PartialFunctions K] [IsStrictOrderedRing K] in
/-- The product of lists is that of vectors. -/
theorem dot_ofFn : ∀ {n : Nat} (y z : Fin n → K), dot (List.ofFn y) (List.ofFn z) = y ⬝ᵥ z
  | 0, _, _ => rfl
  | n + 1, y, z => by
    rw [List.ofFn_succ, List.ofFn_succ, dot_cons, dot_ofFn, dotProduct, dotProduct,
      Fin.sum_univ_succ]

section
variable {n m : Nat} {rs : List (Reflection (Exact K))}

/-- Reflections multiply by the transpose of an orthogonal matrix. -/
theorem Orthogonal.exists_matrix (h : Orthogonal n rs) : ∃ Q : Matrix (Fin n) (Fin n) K,
    Q * Qᵀ = 1 ∧ ∀ y : Fin n → K,
      reflectAll rs (numbers (List.ofFn y)) = numbers (List.ofFn (Qᵀ *ᵥ y)) := by
  have himage : ∀ y : Fin n → K, ∃ z : Fin n → K,
      reflectAll rs (numbers (List.ofFn y)) = numbers (List.ofFn z) := by
    intro y
    obtain ⟨z, hz, himage⟩ := h.exists_image (List.length_ofFn (f := y))
    subst hz
    exact ⟨z.get, by rw [himage, List.ofFn_get]⟩
  choose image himage using himage
  have hdot : ∀ y z, image y ⬝ᵥ image z = y ⬝ᵥ z := by
    intro y z
    rw [← dot_ofFn, ← dot_ofFn]
    exact h.dot_eq List.length_ofFn List.length_ofFn (himage y) (himage z)
  -- The rows are the images of the unit vectors.
  let Q : Matrix (Fin n) (Fin n) K := .of fun j => image (Pi.single j 1)
  have hQ : Q * Qᵀ = 1 := by
    ext i j
    rw [mul_apply']
    exact (hdot _ _).trans (by rw [single_one_dotProduct, one_apply, Pi.single_apply])
  refine ⟨Q, hQ, fun y => ?_⟩
  have hback : Q *ᵥ image y = y := by
    funext j
    exact (hdot _ _).trans (single_one_dotProduct j y)
  rw [himage, ← hback, mulVec_mulVec, mul_eq_one_comm.1 hQ, one_mulVec, hback]

omit [IsStrictOrderedRing K] in
/-- An entry of a list of numbers is that of the list over the field, with zeros behind the end. -/
theorem getD_numbers (l : List K) (i : Nat) : (numbers l).getD i 0 = .number (l.getD i 0) :=
  List.getD_map l 0 Exact.number

omit [IsStrictOrderedRing K] in
/-- An entry of the list of a vector is that of the vector. -/
theorem getD_numbers_ofFn (y : Fin n → K) (i : Fin n) :
    (numbers (List.ofFn y)).getD i 0 = .number (y i) := by
  rw [getD_numbers, List.getD_eq_getElem _ _ (List.length_ofFn.symm ▸ i.2), List.getElem_ofFn]

/-- The factors of a matrix: an orthogonal one, a triangular one, and the order in which its columns
have been taken. -/
structure PivotedQR.Factors (qr : PivotedQR (Exact K)) (M : Matrix (Fin n) (Fin m) K)
    (Q : Matrix (Fin n) (Fin n) K) (σ : Equiv.Perm (Fin m)) : Prop where
  isNumeric : qr.IsNumeric
  height : qr.height = n
  width : qr.width = m
  orthogonal : Q * Qᵀ = 1
  transposeTimes : ∀ y : Fin n → K,
    qr.transposeTimes (numbers (List.ofFn y)) = numbers (List.ofFn (Qᵀ *ᵥ y))
  permutation : ∀ k : Fin m, qr.permutation[(k : Nat)]? = some (σ k : Nat)
  upperEntry : ∀ (i : Fin n) (k : Fin m), qr.upperEntry i k = .number ((Qᵀ *ᵥ Mᵀ (σ k)) i)
  triangular : ∀ (i : Fin n) (k : Fin m), (k : Nat) < i → (Qᵀ *ᵥ Mᵀ (σ k)) i = 0

section
variable {qr : PivotedQR (Exact K)} {M : Matrix (Fin n) (Fin m) K} {Q : Matrix (Fin n) (Fin n) K}
  {σ : Equiv.Perm (Fin m)}

omit [IsStrictOrderedRing K]

/-- The diagonal of a factorization is as long as the shorter side of the matrix. -/
theorem PivotedQR.Factors.diagonalLength_eq (h : qr.Factors M Q σ) :
    qr.diagonalLength = min n m := by
  rw [diagonalLength, h.height, h.width]

/-- What the orthogonal factor leaves of a vector is taken back by it. -/
theorem PivotedQR.Factors.mulVec_transpose_mulVec (h : qr.Factors M Q σ) (v : Fin n → K) :
    Q *ᵥ (Qᵀ *ᵥ v) = v := by
  rw [mulVec_mulVec, h.orthogonal, one_mulVec]

/-- The entries of a factorization are those of the triangular factor. -/
theorem PivotedQR.Factors.toNumber_upperEntry (h : qr.Factors M Q σ) (i : Fin n) (k : Fin m) :
    (qr.upperEntry i k).toNumber = triangularFactor Q M σ i k := by
  rw [h.upperEntry]
  rfl

/-- The triangular factor, as a matrix. -/
theorem PivotedQR.Factors.entry_triangle (h : qr.Factors M Q σ) (i : Fin (min n m)) (j : Fin m) :
    qr.triangle.entry i j = .number (triangularFactor Q M σ (i.castLE (min_le_left n m)) j) := by
  have hi : (i : Nat) < qr.diagonalLength := h.diagonalLength_eq.symm ▸ i.2
  rw [triangle, DenseMatrix.entry_ofFn hi (h.width.symm ▸ j.2)]
  split
  · exact h.upperEntry (i.castLE (min_le_left n m)) j
  · next hij => exact congrArg Exact.number (h.triangular _ _ (Nat.lt_of_not_le hij)).symm

/-- The diagonal, as a vector. -/
theorem PivotedQR.Factors.diagonal_eq (h : qr.Factors M Q σ) :
    qr.diagonal = numbers (List.ofFn fun i : Fin (min n m) =>
      triangularFactor Q M σ (i.castLE (min_le_left n m)) (i.castLE (min_le_right n m))) := by
  rw [diagonal, h.diagonalLength_eq]
  refine List.ext_getElem (by simp [numbers]) fun i hi hi' => ?_
  rw [List.length_map, List.length_range] at hi
  simp only [numbers, List.getElem_map, List.getElem_range, List.getElem_ofFn]
  exact h.upperEntry ((⟨i, hi⟩ : Fin (min n m)).castLE (min_le_left n m))
    ((⟨i, hi⟩ : Fin (min n m)).castLE (min_le_right n m))

/-- Every column of the matrix stands at one place. -/
theorem PivotedQR.Factors.permutation_perm (h : qr.Factors M Q σ) :
    qr.permutation.Perm (List.range m) := by
  have hlength : qr.permutation.length = m := (List.length_map _).trans h.width
  have horder : qr.permutation = List.ofFn ((Fin.val : Fin m → Nat) ∘ σ) := by
    refine List.ext_getElem (by simp [hlength]) fun k hk _ => ?_
    rw [List.getElem_ofFn]
    exact (List.getElem_eq_iff hk).2 (h.permutation ⟨k, hlength ▸ hk⟩)
  have hrange : List.range m = List.ofFn (Fin.val : Fin m → Nat) :=
    List.ext_getElem (by simp) fun k _ _ => by simp
  rw [horder, hrange]
  exact σ.ofFn_comp_perm Fin.val

/-- The columns of the triangular factor are the images of the columns of the matrix, which are zero
below the diagonal. -/
theorem PivotedQR.Factors.exists_column (h : qr.Factors M Q σ) (i : Fin m) :
    ∃ r, qr.triangle.columns[(i : Nat)]? = some r ∧
      numbers (List.ofFn (Qᵀ *ᵥ Mᵀ (σ i))) = r ++ List.replicate (n - min n m) 0 ∧
      ∀ k, (i : Nat) < k → r.getD k 0 = 0 := by
  let entry (k : Nat) : Exact K := if k ≤ (i : Nat) then qr.upperEntry k i else 0
  refine ⟨(List.range (min n m)).map entry, ?column, List.ext_getElem ?_ fun k hk _ => ?image,
    fun k hk => ?below⟩
  case column => simp [triangle, DenseMatrix.ofFn, h.diagonalLength_eq, h.width, entry]
  case image =>
    have hk : k < n := by simpa [numbers] using hk
    have hbelow : (i : Nat) < k → Exact.number ((Qᵀ *ᵥ Mᵀ (σ i)) ⟨k, hk⟩) = 0 :=
      fun hik => congrArg Exact.number (h.triangular ⟨k, hk⟩ i hik)
    simp only [numbers, List.getElem_map, List.getElem_ofFn, List.getElem_append,
      List.length_map, List.length_range, List.getElem_range, List.getElem_replicate, entry]
    split
    · split
      · exact (h.upperEntry ⟨k, hk⟩ i).symm
      · next hki => exact hbelow (Nat.lt_of_not_le hki)
    · exact hbelow (by omega)
  case below =>
    rw [List.getD_eq_getElem?_getD, List.getElem?_map]
    by_cases hrow : k < min n m
    · rw [List.getElem?_range hrow]
      exact if_neg (Nat.not_le_of_lt hk)
    · rw [List.getElem?_eq_none (by rw [List.length_range]; omega)]
      rfl
  · simp [numbers]

end

omit [IsStrictOrderedRing K] in
/-- The columns of a matrix of numbers. -/
theorem DenseMatrix.getElem?_columns {A : DenseMatrix (Exact K)} {M : Matrix (Fin n) (Fin m) K}
    (hheight : A.height = n) (hwidth : A.width = m)
    (hentry : ∀ (i : Fin n) (j : Fin m), A.entry i j = .number (M i j)) (j : Fin m) :
    A.columns[(j : Nat)]? = some (numbers (List.ofFn fun i => M i j)) := by
  obtain ⟨c, hc⟩ : ∃ c, A.columns[(j : Nat)]? = some c :=
    ⟨_, List.getElem?_eq_getElem (hwidth.symm ▸ j.2 : (j : Nat) < A.width)⟩
  have hlength : c.length = n := (A.length_of_mem c (List.mem_of_getElem? hc)).trans hheight
  rw [hc]
  refine congrArg some (List.ext_getElem (by simp [numbers, hlength]) fun i hi hi' => ?_)
  have hij := hentry ⟨i, hlength ▸ hi⟩ j
  rw [DenseMatrix.entry, List.getD_eq_getElem?_getD (l := A.columns), hc, Option.getD_some,
    List.getD_eq_getElem _ _ hi] at hij
  rw [hij]
  simp [numbers]

omit [IsStrictOrderedRing K] in
/-- The columns of a matrix consist of numbers if its entries are numbers. -/
theorem DenseMatrix.numbers_of_entry {A : DenseMatrix (Exact K)} {M : Matrix (Fin n) (Fin m) K}
    (hheight : A.height = n) (hwidth : A.width = m)
    (hentry : ∀ (i : Fin n) (j : Fin m), A.entry i j = .number (M i j)) :
    ∀ c ∈ A.columns, Numbers c := by
  intro c hc
  obtain ⟨j, hj⟩ := List.getElem?_of_mem hc
  have hlt : j < m := hwidth ▸ (List.getElem?_eq_some_iff.1 hj).1
  rw [getElem?_columns hheight hwidth hentry ⟨j, hlt⟩] at hj
  obtain rfl := Option.some.inj hj
  exact numbers_numbers _

section
omit [Field K] [LinearOrder K] [PartialFunctions K] [IsStrictOrderedRing K]

/-- The columns of a matrix before the first step. -/
def DenseMatrix.openColumns (A : DenseMatrix (Exact K)) : List (PivotedColumn (Exact K)) :=
  A.columns.zipIdx.map fun e => ⟨e.2, [], e.1⟩

/-- There is an open column for each column of the matrix. -/
theorem DenseMatrix.length_openColumns (A : DenseMatrix (Exact K)) :
    A.openColumns.length = A.width := by
  rw [openColumns, List.length_map, List.length_zipIdx]
  rfl

/-- All of a column is open before the first step. -/
theorem DenseMatrix.opensTo_openColumns {A : DenseMatrix (Exact K)}
    (hA : ∀ c ∈ A.columns, Numbers c) : ∀ c ∈ A.openColumns, c.OpensTo A.height := by
  refine List.forall_mem_map.2 fun e he => ?_
  have hmem := List.fst_mem_of_mem_zipIdx he
  exact ⟨⟨nofun, hA _ hmem⟩, A.length_of_mem _ hmem⟩

end

variable [LawfulRoot K] [TotalRoot K]

/-- A factorization brings the columns of the matrix to triangular form. -/
theorem PivotedQR.triangularizes_factorize {A : DenseMatrix (Exact K)}
    (hA : ∀ c ∈ A.columns, Numbers c) :
    Triangularizes A.height A.openColumns (factorize A).reflections (factorize A).columns :=
  triangularizes_triangularize _ (A.opensTo_openColumns hA)
    (congrArg (min A.height) A.length_openColumns.symm)

/-- The factorization of a matrix of numbers is one into numbers. -/
theorem PivotedQR.isNumeric_factorize {A : DenseMatrix (Exact K)}
    (hA : ∀ c ∈ A.columns, Numbers c) : (PivotedQR.factorize A).IsNumeric := by
  have h := triangularizes_factorize hA
  refine ⟨h.orthogonal.isNumeric, h.isNumeric, ?_⟩
  -- The largest length only grows from zero.
  have hfold : ∀ (l : List (List (Exact K))) (y : K), 0 ≤ y →
      ∃ x : K, l.foldl (fun largest c =>
        let norm := Scalar.sqrt (squaredNorm c)
        if largest < norm then norm else largest) (.number y) = .number x ∧ 0 ≤ x := by
    intro l
    induction l with
    | nil => exact fun y hy => ⟨y, rfl, hy⟩
    | cons c l ih =>
      intro y hy
      rw [List.foldl_cons]
      simp only
      split
      · next hlt =>
        cases hnorm : Scalar.sqrt (squaredNorm c) with
        | undefined =>
          rw [hnorm] at hlt
          exact absurd hlt id
        | number z =>
          rw [hnorm] at hlt
          exact ih z (hy.trans (le_of_lt hlt))
      · exact ih y hy
  exact hfold A.columns 0 le_rfl

/-- The factorization of a matrix of numbers gives its factors. -/
theorem PivotedQR.exists_factors {A : DenseMatrix (Exact K)} {M : Matrix (Fin n) (Fin m) K}
    (hheight : A.height = n) (hwidth : A.width = m)
    (hentry : ∀ (i : Fin n) (j : Fin m), A.entry i j = .number (M i j)) :
    ∃ Q σ, (factorize A).Factors M Q σ := by
  have hcolumn := DenseMatrix.getElem?_columns hheight hwidth hentry
  have hnumbers := DenseMatrix.numbers_of_entry hheight hwidth hentry
  obtain ⟨horthogonal, _, order, horder, hreflected, hzero⟩ := triangularizes_factorize hnumbers
  rw [hheight] at horthogonal
  obtain ⟨order', rfl, hperm⟩ := exists_perm_of_map horder
  obtain ⟨σ, hσ⟩ := exists_perm_of_zipIdx (m := m) hwidth hperm
  obtain ⟨Q, hQ, himage⟩ := horthogonal.exists_matrix
  -- Every place has the column that the permutation says.
  have hplace : ∀ k : Fin m, order'[(k : Nat)]? =
      some (numbers (List.ofFn fun i => M i (σ k)), (σ k : Nat)) := by
    intro k
    obtain ⟨c, hc, hk⟩ := hσ k
    rw [hk, ← Option.some.inj ((hcolumn (σ k)).symm.trans hc)]
  have hstart : ∀ k : Fin m, (order'.map fun e => (⟨e.2, [], e.1⟩ : PivotedColumn (Exact K)))[(k :
      Nat)]? = some ⟨(σ k : Nat), [], numbers (List.ofFn fun i => M i (σ k))⟩ := by
    intro k
    rw [List.getElem?_map, hplace]
    rfl
  have hentry : ∀ (k : Fin m) (i : Fin n), (reflectAll (factorize A).reflections
      (numbers (List.ofFn fun i => M i (σ k)))).getD i 0 = .number ((Qᵀ *ᵥ Mᵀ (σ k)) i) := by
    intro k i
    rw [himage, getD_numbers_ofFn]
    rfl
  have hend : ∀ k : Fin m, ∃ c', (factorize A).columns[(k : Nat)]? = some c' ∧
      c'.source = (σ k : Nat) ∧ ∀ i : Fin n, c'.entry i = .number ((Qᵀ *ᵥ Mᵀ (σ k)) i) := by
    intro k
    obtain ⟨hlt, hget⟩ := List.getElem?_eq_some_iff.1 (hstart k)
    have hlt' := hreflected.length_eq ▸ hlt
    have hk := hreflected.get hlt hlt'
    rw [List.get_eq_getElem, hget] at hk
    exact ⟨_, List.getElem?_eq_getElem hlt', hk.source, fun i => (hk.entry i).trans (hentry k i)⟩
  refine ⟨Q, σ, isNumeric_factorize hnumbers, hheight, ?width, hQ, himage, fun k => ?permutation,
    fun i k => ?entry, fun i k hki => ?triangular⟩
  case width =>
    rw [PivotedQR.width, ← hreflected.length_eq, List.length_map, hperm.length_eq,
      List.length_zipIdx]
    exact hwidth
  case permutation =>
    obtain ⟨c', hc', hsource, _⟩ := hend k
    rw [permutation, List.getElem?_map, hc', Option.map_some, hsource]
  case entry =>
    obtain ⟨c', hc', _, hentry⟩ := hend k
    rw [upperEntry, hc']
    exact hentry i
  case triangular =>
    exact Exact.number.inj ((hentry k i).symm.trans (hzero k _ (hstart k) i hki))

/-- The factorization of a matrix of numbers has no division by zero, whose result would be an
undefined entry of a reflection. Every column of the matrix is taken once, and an orthogonal matrix,
which keeps the product of any two vectors, sends it to a column of the triangular factor. -/
theorem PivotedQR.factorize_correct {A : DenseMatrix (Exact K)}
    (hA : ∀ c ∈ A.columns, Numbers c) :
    (factorize A).IsNumeric ∧
    (factorize A).permutation.Perm (List.range A.width) ∧
    (∃ Q : Matrix (Fin A.height) (Fin A.height) K, Q * Qᵀ = 1 ∧
      (∀ y, (factorize A).transposeTimes (numbers (List.ofFn y)) =
        numbers (List.ofFn (Qᵀ *ᵥ y))) ∧
      ∀ y z, (Qᵀ *ᵥ y) ⬝ᵥ (Qᵀ *ᵥ z) = y ⬝ᵥ z) ∧
    ∀ i < A.width, ∃ j column r, (factorize A).permutation[i]? = some j ∧
      A.columns[j]? = some column ∧ (factorize A).triangle.columns[i]? = some r ∧
      (factorize A).transposeTimes column =
        r ++ List.replicate (A.height - min A.height A.width) 0 ∧
      ∀ k, i < k → r.getD k 0 = 0 := by
  have hentry := DenseMatrix.entry_toMatrix hA
  obtain ⟨Q, σ, h⟩ := exists_factors rfl rfl hentry
  refine ⟨h.isNumeric, h.permutation_perm, ⟨Q, h.orthogonal, h.transposeTimes, fun y z => ?keeps⟩,
    fun i hi => ?column⟩
  case keeps =>
    rw [dotProduct_mulVec, vecMul_transpose, mulVec_mulVec, h.orthogonal, one_mulVec]
  case column =>
    obtain ⟨r, hr, himage, hbelow⟩ := h.exists_column ⟨i, hi⟩
    refine ⟨_, _, r, h.permutation ⟨i, hi⟩, DenseMatrix.getElem?_columns rfl rfl hentry _, hr, ?_,
      hbelow⟩
    rw [← himage]
    exact h.transposeTimes _

end

/-- A matrix with more columns than rows, of which one is zero and one is opposite to another
one. -/
def dependentColumns : DenseMatrix (Exact ℝ) where
  height := 2
  columns := [numbers [0, 0], numbers [1, 1], numbers [-1, -1]]
  length_of_mem := by simp [numbers]

/-- The columns of the matrix consist of numbers. -/
theorem numbers_dependentColumns : ∀ c ∈ dependentColumns.columns, Numbers c := by
  simp [dependentColumns, numbers_numbers]

/-- The factorization of the matrix is numeric, and takes each of its columns once. -/
theorem PivotedQR.factorize_dependentColumns :
    (∀ c ∈ dependentColumns.columns, Numbers c) ∧ (factorize dependentColumns).IsNumeric ∧
      (factorize dependentColumns).permutation.Perm [0, 1, 2] :=
  have h := factorize_correct numbers_dependentColumns
  ⟨numbers_dependentColumns, h.1, h.2.1⟩

end SketchSolver
