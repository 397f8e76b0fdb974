import Mathlib.Data.List.Forall2
import SketchSolver.HandleTable

/-!
# Tables by handle

A value put into a table is found there and hides no other (`HandleTable.lookup_insert`), and for a
new handle it is one more entry (`HandleTable.insert_perm`). The handles of a table ascend
(`HandleTable.Ascending.insert`), so none of them stands in it twice. A change of the first element
that is looked for shows in what is found (`find?_updateFirst_self`), and nowhere else.
-/

namespace SketchSolver

/-! ## Insertion -/

/-- The first entry is found under its own key, and other keys are looked for behind it. -/
theorem HandleTable.lookup_cons (j k : ParamHandle) (y : β) (l : HandleTable β) :
    List.lookup k ((j, y) :: l) = if k = j then some y else List.lookup k l := by
  rw [List.lookup_cons]
  by_cases hk : k = j
  · simp [hk]
  · rw [beq_eq_false_iff_ne.2 hk, if_neg hk]

/-- A value put into a table is found there, and hides no other. -/
theorem HandleTable.lookup_insert {h : ParamHandle} {x : β} :
    ∀ (l : HandleTable β) (k : ParamHandle),
      (HandleTable.insert h x l).lookup k = if k = h then some x else l.lookup k
  | [], k => by
    rw [HandleTable.insert, HandleTable.lookup_cons]
  | (j, y) :: rest, k => by
    rw [HandleTable.insert]
    split
    · rw [HandleTable.lookup_cons]
    · split
      · next hj =>
        subst hj
        rw [HandleTable.lookup_cons, HandleTable.lookup_cons]
        split <;> rfl
      · next hj =>
        rw [HandleTable.lookup_cons, HandleTable.lookup_cons, HandleTable.lookup_insert rest k]
        by_cases hk : k = j
        · subst hk
          rw [if_pos rfl, if_pos rfl, if_neg (Ne.symm hj)]
        · rw [if_neg hk, if_neg hk]

/-- A value for a new handle is one more entry. -/
theorem HandleTable.insert_perm {h : ParamHandle} {x : β} :
    ∀ {l : HandleTable β}, h ∉ l.map Prod.fst → (HandleTable.insert h x l).Perm ((h, x) :: l)
  | [], _ => .refl _
  | (k, y) :: rest, hmem => by
    simp only [List.map_cons, List.mem_cons, not_or] at hmem
    rw [HandleTable.insert]
    split
    · exact .refl _
    · rw [if_neg hmem.1]
      exact (List.Perm.cons _ (HandleTable.insert_perm hmem.2)).trans (.swap ..)

/-- After an insertion there is nothing but the new entry and what was there. -/
theorem HandleTable.eq_or_mem_of_mem_insert {h : ParamHandle} {x : β} {e : ParamHandle × β} :
    ∀ {l : HandleTable β}, e ∈ HandleTable.insert h x l → e = (h, x) ∨ e ∈ l
  | [], he => Or.inl (List.mem_singleton.1 he)
  | (k, y) :: rest, he => by
    rw [HandleTable.insert] at he
    split at he
    · exact List.mem_cons.1 he
    · split at he
      · rcases List.mem_cons.1 he with rfl | he
        · exact Or.inl rfl
        · exact Or.inr (List.mem_cons_of_mem _ he)
      · rcases List.mem_cons.1 he with rfl | he
        · exact Or.inr (List.mem_cons_self ..)
        · exact (HandleTable.eq_or_mem_of_mem_insert he).imp id (List.mem_cons_of_mem _)

/-- The handles of the table ascend. -/
def HandleTable.Ascending (l : HandleTable β) : Prop :=
  l.Pairwise fun e e' => e.1.number < e'.1.number

/-- No handle stands twice in a table. -/
theorem HandleTable.Ascending.nodup {l : HandleTable β} (hl : HandleTable.Ascending l) :
    (l.map Prod.fst).Nodup := by
  refine List.pairwise_map.2 (hl.imp fun hlt heq => ?_)
  rw [heq] at hlt
  exact UInt32.lt_irrefl _ hlt

/-- A value is put into a table at the place of its handle. -/
theorem HandleTable.Ascending.insert {h : ParamHandle} {x : β} :
    ∀ {l : HandleTable β}, HandleTable.Ascending l →
      HandleTable.Ascending (HandleTable.insert h x l)
  | [], _ => List.pairwise_singleton ..
  | (k, y) :: rest, hl => by
    obtain ⟨hfirst, hrest⟩ := List.pairwise_cons.1 hl
    rw [HandleTable.insert]
    split
    · next hlt =>
      refine List.pairwise_cons.2 ⟨fun e he => ?_, hl⟩
      rcases List.mem_cons.1 he with rfl | he
      · exact hlt
      · exact UInt32.lt_trans hlt (hfirst e he)
    · next hnot =>
      split
      · next hhk =>
        subst hhk
        exact List.pairwise_cons.2 ⟨hfirst, hrest⟩
      · next hne =>
        have hlt : k.number < h.number := by
          refine UInt32.lt_of_le_of_ne (UInt32.not_lt.1 hnot) fun heq => hne ?_
          cases h
          cases k
          exact congrArg ParamHandle.mk heq.symm
        refine List.pairwise_cons.2 ⟨fun e he => ?_, HandleTable.Ascending.insert hrest⟩
        rcases HandleTable.eq_or_mem_of_mem_insert he with rfl | he
        · exact hlt
        · exact hfirst e he

/-! ## Changing the first element -/

section
variable {p q : β → Bool} {f : β → β}

/-- Changing an element that is filtered out makes no difference. -/
theorem filter_updateFirst_of_disjoint (hp : ∀ x, p x = true → q x = false ∧ q (f x) = false) :
    ∀ l : List β, (updateFirst p f l).filter q = l.filter q
  | [] => rfl
  | x :: rest => by
    rw [updateFirst]
    split
    · next hx =>
      obtain ⟨hq, hqf⟩ := hp x hx
      simp [hq, hqf]
    · rw [List.filter_cons, List.filter_cons, filter_updateFirst_of_disjoint hp rest]

/-- The first element is found among those that are looked for. -/
theorem filter_updateFirst_self (hp : ∀ x, p x = true → p (f x) = true) :
    ∀ l : List β, (updateFirst p f l).filter p = updateFirst p f (l.filter p)
  | [] => rfl
  | x :: rest => by
    rw [updateFirst]
    cases hx : p x with
    | true => simp [hx, hp x hx, updateFirst]
    | false => simp [hx, filter_updateFirst_self hp rest]

/-- Of the elements of a kind that a change keeps, the first one is changed or none at all. -/
theorem filter_updateFirst (hq : ∀ x, q (f x) = q x) : ∀ l : List β,
    (updateFirst p f l).filter q = l.filter q ∨
      (updateFirst p f l).filter q = updateFirst p f (l.filter q)
  | [] => Or.inl rfl
  | x :: rest => by
    rw [updateFirst]
    cases hx : p x with
    | true =>
      cases hqx : q x with
      | true => exact Or.inr (by simp [hq, hqx, updateFirst, hx])
      | false => exact Or.inl (by simp [hq, hqx])
    | false =>
      rcases filter_updateFirst hq rest with h | h
      · exact Or.inl (by simp [List.filter_cons, h])
      · refine Or.inr ?_
        cases hqx : q x <;> simp [hqx, h, updateFirst, hx]

/-- What is found is the changed element, where that is looked for. -/
theorem find?_updateFirst_self (hp : ∀ x, p x = true → p (f x) = true) :
    ∀ l : List β, (updateFirst p f l).find? p = (l.find? p).map f
  | [] => rfl
  | x :: rest => by
    rw [updateFirst]
    cases hx : p x with
    | true => simp [hx, hp x hx]
    | false => simpa [hx] using find?_updateFirst_self hp rest

/-- Nothing shows of a change that keeps what is looked at. -/
theorem map_updateFirst {k : β → γ} (hk : ∀ x, k (f x) = k x) :
    ∀ l : List β, (updateFirst p f l).map k = l.map k
  | [] => rfl
  | x :: rest => by
    rw [updateFirst]
    split
    · simp [hk]
    · simp [map_updateFirst hk rest]

/-- A change of one kind of elements does not show in the search for another kind. -/
theorem find?_updateFirst_of_disjoint (hp : ∀ x, p x = true → q x = false ∧ q (f x) = false)
    (l : List β) : (updateFirst p f l).find? q = l.find? q := by
  rw [← List.head?_filter, ← List.head?_filter, filter_updateFirst_of_disjoint hp]

/-- Every element is as it was, or is the changed one. -/
theorem forall₂_updateFirst : ∀ l : List β,
    List.Forall₂ (fun x y => y = x ∨ p x = true ∧ y = f x) l (updateFirst p f l)
  | [] => .nil
  | x :: rest => by
    rw [updateFirst]
    split
    · next hx => exact .cons (Or.inr ⟨hx, rfl⟩) (List.forall₂_same.2 fun _ _ => Or.inl rfl)
    · exact .cons (Or.inl rfl) (forall₂_updateFirst rest)

/-- What related elements have in common can be read off either list. -/
theorem map_eq_of_forall₂ {R : β → β → Prop} {k : β → γ} (hk : ∀ x y, R x y → k y = k x) :
    ∀ {l l' : List β}, List.Forall₂ R l l' → l'.map k = l.map k
  | _, _, .nil => rfl
  | _, _, .cons hxy hrest => congrArg₂ List.cons (hk _ _ hxy) (map_eq_of_forall₂ hk hrest)

/-- Where keys are different, the first element of a key is the only one. -/
theorem updateFirst_eq_map [DecidableEq γ] {key : β → γ} {k : γ} :
    ∀ {l : List β}, (l.map key).Nodup →
      updateFirst (key · == k) f l = l.map fun x => if key x = k then f x else x
  | [], _ => rfl
  | x :: rest, hd => by
    rw [List.map_cons, List.nodup_cons] at hd
    rw [updateFirst, List.map_cons]
    by_cases hx : key x = k
    · rw [if_pos (beq_iff_eq.2 hx), if_pos hx]
      have hrest : ∀ y ∈ rest, ¬ key y = k := by
        rintro y hy rfl
        exact hd.1 (hx ▸ List.mem_map_of_mem hy)
      rw [List.map_congr_left fun y hy => if_neg (hrest y hy), List.map_id']
    · rw [if_neg (fun h => hx (beq_iff_eq.1 h)), if_neg hx, updateFirst_eq_map hd.2]

end

end SketchSolver
