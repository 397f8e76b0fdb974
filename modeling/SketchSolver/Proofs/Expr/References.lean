import Mathlib.Data.List.Basic
import SketchSolver.Proofs.Arithmetic.Exact
import SketchSolver.Proofs.Expr.Isolation

/-!
# Reading an expression from left to right

The parameters of an expression in reading order, each as often as it is referred to
(`Expr.occurrences`), answer every question about them: whether the expression depends on one, how
often it refers to it, which one is met first (`Expr.paramsAfter_spec`) and whether there is one of
a kind, or several. So these answers agree with each other, and with evaluation, which looks at
nothing else (`Expr.references_agree`).

Reading takes no notice of the form a parameter is written in (`Expr.occurrences_toSlots`). An
expression written by positions gives the same answers, has the same derivatives and the same fold
written by positions, and can be written by handles again (`Expr.toSlots_faithful`).
-/

namespace SketchSolver

namespace Expr

variable {h : ParamHandle} {p : ParamHandle → Bool} {e e' : Expr α}

/-! ## Reading order -/

/-- The parameters from left to right, each as often as the expression refers to it. -/
def occurrences : Expr α → List ParamHandle
  | .param h | .slot h _ => [h]
  | .const _ => []
  | .unary _ e => e.occurrences
  | .binary _ l r => l.occurrences ++ r.occurrences

/-- What occurs in an expression is what it refers to. -/
@[simp] theorem mem_occurrences : h ∈ e.occurrences ↔ e.dependsOn h = true := by
  induction e with
  | param _ | slot _ _ => rw [occurrences, dependsOn, List.mem_singleton, beq_iff_eq, eq_comm]
  | const _ => simp [occurrences, dependsOn]
  | unary _ _ ih => exact ih
  | binary _ _ _ ihl ihr => simp [occurrences, dependsOn, ihl, ihr]

/-- A parameter stands among the occurrences as often as it is referred to. -/
theorem count_occurrences (h : ParamHandle) (e : Expr α) :
    e.occurrences.count h = e.countReferences h := by
  induction e with
  | param _ | slot _ _ => simp [occurrences, countReferences, List.count_singleton]
  | const _ => rfl
  | unary _ _ ih => exact ih
  | binary _ _ _ ihl ihr => rw [occurrences, List.count_append, ihl, ihr, countReferences]

/-- Listing the parameters is reading them one after the other. -/
theorem paramsAfter_eq_foldl (e : Expr α) (seen : List ParamHandle) :
    e.paramsAfter seen = e.occurrences.foldl appendNew seen := by
  induction e generalizing seen with
  | param _ | slot _ _ | const _ => rfl
  | unary _ _ ih => exact ih seen
  | binary _ _ _ ihl ihr => rw [occurrences, List.foldl_append, ← ihl, ← ihr, paramsAfter]

/-! ## Listing what is new -/

/-- A first element delays all others alike. -/
theorem pairwise_idxOf_cons {x : ParamHandle} {hs new : List ParamHandle}
    (hne : ∀ a ∈ new, x ≠ a) (horder : new.Pairwise fun a b => hs.idxOf a < hs.idxOf b) :
    new.Pairwise fun a b => (x :: hs).idxOf a < (x :: hs).idxOf b := by
  refine horder.imp_of_mem fun ha hb hlt => ?_
  rw [List.idxOf_cons_ne _ (hne _ ha), List.idxOf_cons_ne _ (hne _ hb)]
  exact Nat.succ_lt_succ hlt

/-- The members of a list that have not been seen before follow what has been seen, each once, in
the order in which they are met first: by induction on the list, for anything that has been seen. -/
theorem foldl_appendNew : ∀ (hs seen : List ParamHandle),
    ∃ new, hs.foldl appendNew seen = seen ++ new ∧ new.Nodup ∧
      (∀ h, h ∈ new ↔ h ∈ hs ∧ h ∉ seen) ∧
      new.Pairwise fun a b => hs.idxOf a < hs.idxOf b
  | [], seen => ⟨[], by simp⟩
  | x :: hs, seen => by
    by_cases hx : x ∈ seen
    · obtain ⟨new, heq, hnodup, hmem, horder⟩ := foldl_appendNew hs seen
      have hne : ∀ a ∈ new, x ≠ a := by
        rintro a ha rfl
        exact ((hmem x).1 ha).2 hx
      refine ⟨new, ?_, hnodup, fun a => ?_, pairwise_idxOf_cons hne horder⟩
      · rw [List.foldl_cons, appendNew, if_pos hx, heq]
      · rw [hmem, List.mem_cons]
        constructor
        · exact fun ⟨ha, hnew⟩ => ⟨Or.inr ha, hnew⟩
        · rintro ⟨rfl | ha, hnew⟩
          · exact absurd hx hnew
          · exact ⟨ha, hnew⟩
    · -- The first element is seen from now on, so it is not met again.
      obtain ⟨new, heq, hnodup, hmem, horder⟩ := foldl_appendNew hs (seen ++ [x])
      have hne : ∀ a ∈ new, x ≠ a := by
        rintro a ha rfl
        exact ((hmem x).1 ha).2 (by simp)
      refine ⟨x :: new, ?_, List.nodup_cons.2 ⟨fun ha => hne x ha rfl, hnodup⟩, fun a => ?_,
        List.pairwise_cons.2 ⟨fun b hb => ?_, pairwise_idxOf_cons hne horder⟩⟩
      · rw [List.foldl_cons, appendNew, if_neg hx, heq, List.append_assoc, List.singleton_append]
      · rw [List.mem_cons, hmem, List.mem_cons, List.mem_append, List.mem_singleton, not_or]
        by_cases ha : a = x
        · simp [ha, hx]
        · simp [ha]
      · rw [List.idxOf_cons_self, List.idxOf_cons_ne _ (hne b hb)]
        exact Nat.succ_pos _

/-- The parameters of an expression that have not been seen before follow what has been seen, each
once, in the order of their first occurrence. -/
theorem paramsAfter_spec (e : Expr α) (seen : List ParamHandle) :
    ∃ new, e.paramsAfter seen = seen ++ new ∧ new.Nodup ∧
      (∀ h, h ∈ new ↔ e.dependsOn h = true ∧ h ∉ seen) ∧
      new.Pairwise fun a b => e.occurrences.idxOf a < e.occurrences.idxOf b := by
  simpa only [paramsAfter_eq_foldl, mem_occurrences] using foldl_appendNew e.occurrences seen

/-- Every parameter of an expression is listed once. -/
theorem nodup_params (e : Expr α) : e.params.Nodup := by
  obtain ⟨new, heq, hnodup, _⟩ := e.paramsAfter_spec []
  rw [params, heq]
  exact hnodup

/-! ## Counting parameters of a kind -/

/-- None is found exactly if the expression depends on none. -/
theorem referenced_eq_none_iff :
    e.referenced p = .none ↔ ∀ h, e.dependsOn h = true → p h = false := by
  refine ⟨referenced_eq_none, fun hnone => ?_⟩
  cases he : e.referenced p with
  | none => rfl
  | exactly h =>
    obtain ⟨hd, hp, _⟩ := referenced_eq_exactly he
    rw [hnone h hd] at hp
    cases hp
  | multiple =>
    obtain ⟨a, _, _, ⟨hd, hp⟩, _⟩ := exists_of_referenced_eq_multiple he
    rw [hnone a hd] at hp
    cases hp

/-- Several are found exactly if the expression depends on two that differ. -/
theorem referenced_eq_multiple_iff : e.referenced p = .multiple ↔
    ∃ a b, a ≠ b ∧ (e.dependsOn a = true ∧ p a = true) ∧ e.dependsOn b = true ∧ p b = true := by
  refine ⟨exists_of_referenced_eq_multiple, fun ⟨a, b, hab, ha, hb⟩ => ?_⟩
  cases he : e.referenced p with
  | none =>
    have hpa := referenced_eq_none he a ha.1
    rw [ha.2] at hpa
    cases hpa
  | exactly h =>
    obtain ⟨_, _, honly⟩ := referenced_eq_exactly he
    exact absurd ((honly a ha.1 ha.2).trans (honly b hb.1 hb.2).symm) hab
  | multiple => rfl

/-- What is found depends on what the expression depends on alone. -/
theorem referenced_congr (heq : ∀ h, e'.dependsOn h = e.dependsOn h) :
    e'.referenced p = e.referenced p := by
  cases he : e.referenced p with
  | none =>
    rw [referenced_eq_none_iff] at he ⊢
    simpa only [heq] using he
  | exactly h =>
    rw [referenced_eq_exactly_iff] at he ⊢
    simpa only [heq] using he
  | multiple =>
    rw [referenced_eq_multiple_iff] at he ⊢
    simpa only [heq] using he

/-- The answers to all questions about the parameters of an expression agree. It depends on those
that it refers to at least once, which are those that are listed, and of a kind there is none, one
or several as there are among them. A list is extended by those that it has not, each once, in the
order of their first occurrence. Where two sources agree on all of them, the expression has one
value. -/
theorem references_agree [Scalar α] (e : Expr α) :
    (∀ h, (e.dependsOn h = true ↔ 1 ≤ e.countReferences h) ∧
      (e.dependsOn h = true ↔ h ∈ e.paramsAfter []) ∧
      e.countReferences h = e.occurrences.count h) ∧
    (∀ seen, ∃ new, e.paramsAfter seen = seen ++ new ∧ new.Nodup ∧
      (∀ h, h ∈ new ↔ e.dependsOn h = true ∧ h ∉ seen) ∧
      new.Pairwise fun a b => e.occurrences.idxOf a < e.occurrences.idxOf b) ∧
    (∀ p, (e.referenced p = .none ↔ ∀ h, e.dependsOn h = true → p h = false) ∧
      (∀ h, e.referenced p = .exactly h ↔ ∀ x, e.dependsOn x = true ∧ p x = true ↔ x = h) ∧
      (e.referenced p = .multiple ↔ ∃ a b, a ≠ b ∧
        (e.dependsOn a = true ∧ p a = true) ∧ e.dependsOn b = true ∧ p b = true)) ∧
    ∀ a b : Lookup α, (∀ h, e.dependsOn h = true →
      a.value h = b.value h ∧ ∀ position, a.slot position h = b.slot position h) →
        e.eval a = e.eval b := by
  refine ⟨fun h => ⟨?_, mem_params.symm, (e.count_occurrences h).symm⟩, e.paramsAfter_spec,
    fun p => ⟨referenced_eq_none_iff, fun h => referenced_eq_exactly_iff,
      referenced_eq_multiple_iff⟩, fun a b => eval_congr⟩
  rw [← count_occurrences, ← mem_occurrences]
  exact List.count_pos_iff.symm

/-- One parameter twice, one by its position, and a third. -/
def threeParams : Expr (Exact ℚ) :=
  .param ⟨1⟩ * .slot ⟨2⟩ 0 + square (.param ⟨1⟩ - .param ⟨3⟩)

/-- A source in which all parameters are two, but for the fourth. -/
def twoBut (x : ℚ) : Lookup (Exact ℚ) :=
  .byHandle fun h => if h = ⟨4⟩ then .number x else .number 2

/-- The fourth parameter is none of the three, so its value makes no difference. -/
theorem references_threeParams :
    (∀ h, threeParams.dependsOn h = true → (twoBut 5).value h = (twoBut 7).value h ∧
      ∀ position, (twoBut 5).slot position h = (twoBut 7).slot position h) ∧
    (twoBut 5).value ⟨4⟩ ≠ (twoBut 7).value ⟨4⟩ ∧
    threeParams.eval (twoBut 5) = threeParams.eval (twoBut 7) ∧
    threeParams.eval (twoBut 7) = .number 4 ∧ 1 ≤ threeParams.countReferences ⟨1⟩ ∧
    ⟨1⟩ ∈ threeParams.paramsAfter [] ∧ threeParams.paramsAfter [⟨3⟩, ⟨9⟩] = [⟨3⟩, ⟨9⟩, ⟨1⟩, ⟨2⟩] ∧
    threeParams.referenced (· == ⟨4⟩) = .none ∧
    threeParams.referenced (fun h => h == ⟨2⟩ || h == ⟨4⟩) = .exactly ⟨2⟩ ∧
    threeParams.referenced (· != ⟨2⟩) = .multiple := by
  obtain ⟨hrefers, _, hreferenced, heval⟩ := threeParams.references_agree
  have hoccurrences : threeParams.occurrences = [⟨1⟩, ⟨2⟩, ⟨1⟩, ⟨3⟩] := rfl
  have hparams : ∀ h, threeParams.dependsOn h = true ↔ h = ⟨1⟩ ∨ h = ⟨2⟩ ∨ h = ⟨3⟩ := fun h => by
    rw [← mem_occurrences, hoccurrences]
    simp only [List.mem_cons, List.not_mem_nil, or_false]
    tauto
  have hagree : ∀ h, threeParams.dependsOn h = true → (twoBut 5).value h = (twoBut 7).value h ∧
      ∀ position, (twoBut 5).slot position h = (twoBut 7).slot position h := by
    intro h hh
    rcases (hparams h).1 hh with rfl | rfl | rfl <;> exact ⟨rfl, fun _ => rfl⟩
  have hone := (hparams ⟨1⟩).2 (.inl rfl)
  refine ⟨hagree, by decide +kernel, heval _ _ hagree, by decide +kernel, (hrefers ⟨1⟩).1.1 hone,
    (hrefers ⟨1⟩).2.1.1 hone, by decide +kernel, (hreferenced _).1.2 fun h hh => ?_,
    ((hreferenced _).2.1 ⟨2⟩).2 fun h => ?_,
    (hreferenced _).2.2.2 ⟨⟨1⟩, ⟨3⟩, by decide, ⟨hone, rfl⟩, (hparams ⟨3⟩).2 (by simp), rfl⟩⟩
  · rcases (hparams h).1 hh with rfl | rfl | rfl <;> rfl
  · rw [hparams, Bool.or_eq_true, beq_iff_eq, beq_iff_eq]
    constructor
    · rintro ⟨rfl | rfl | rfl, h | h⟩ <;> first | rfl | cases h
    · rintro rfl
      exact ⟨.inr (.inl rfl), .inl rfl⟩

/-! ## Written by position -/

section
variable {position? : ParamHandle → Option Nat}

/-- Writing parameters by position changes neither what occurs nor where. -/
@[simp] theorem occurrences_toSlots (e : Expr α) :
    (e.toSlots position?).occurrences = e.occurrences := by
  unfold toSlots
  induction e with
  | param h | slot h _ =>
    rw [bindParams]
    cases position? h <;> rfl
  | const _ => rfl
  | unary _ _ ih => exact ih
  | binary _ _ _ ihl ihr => rw [bindParams, occurrences, ihl, ihr, occurrences]

/-- Writing parameters by position and then by handle is writing them by handle. -/
theorem rename_toSlots (f : ParamHandle → ParamHandle) (e : Expr α) :
    (e.toSlots position?).rename f = e.rename f := by
  unfold toSlots rename
  induction e with
  | param h | slot h _ =>
    simp only [bindParams]
    cases position? h <;> rfl
  | const _ => rfl
  | unary _ _ ih => rw [bindParams, bindParams, bindParams, ih]
  | binary _ _ _ ihl ihr => rw [bindParams, bindParams, bindParams, ihl, ihr]

end

/-- Writing the parameters of an expression by position is another form of it. Written by handles
again it is the same expression, it has the same derivatives and the same fold in this form, and
every question about its parameters has the same answer. -/
theorem toSlots_faithful [Scalar α] {e : Expr α} (hhandles : e.slotsBelow 0 = true)
    (position? : ParamHandle → Option Nat) (h : ParamHandle) :
    (e.toSlots position?).rename id = e ∧
    (e.toSlots position?).partialWrt h = (e.partialWrt h).toSlots position? ∧
    (e.toSlots position?).fold = e.fold.toSlots position? ∧
    (∀ seen, (e.toSlots position?).paramsAfter seen = e.paramsAfter seen) ∧
    (e.toSlots position?).dependsOn h = e.dependsOn h ∧
    (e.toSlots position?).countReferences h = e.countReferences h ∧
    (∀ p, (e.toSlots position?).referenced p = e.referenced p) ∧
    (e.toSlots position?).canIsolate h = e.canIsolate h := by
  refine ⟨?_, e.partialWrt_toSlots h, e.fold_toSlots, fun seen => ?_, e.dependsOn_toSlots, ?_,
    fun p => referenced_congr fun _ => e.dependsOn_toSlots, e.canIsolate_toSlots⟩
  · rw [rename_toSlots, rename_id hhandles]
  · rw [paramsAfter_eq_foldl, occurrences_toSlots, ← paramsAfter_eq_foldl]
  · rw [← count_occurrences, occurrences_toSlots, count_occurrences]

/-- The second parameter is an unknown, which stands at the first position. -/
def secondUnknown : ParamHandle → Option Nat :=
  fun h => if h = ⟨2⟩ then some 0 else none

/-- A product with the unknown, and something that folds away. -/
def productByHandle : Expr (Exact ℚ) :=
  .param ⟨1⟩ * .param ⟨2⟩ + .param ⟨1⟩ * .const (.number 0)

/-- Whichever form the product is written in, there is the same to know of it. -/
theorem toSlots_productByHandle : productByHandle.slotsBelow 0 = true ∧
    productByHandle.toSlots secondUnknown =
      .param ⟨1⟩ * .slot ⟨2⟩ 0 + .param ⟨1⟩ * .const (.number 0) ∧
    (productByHandle.toSlots secondUnknown).rename id = productByHandle ∧
    ((productByHandle.toSlots secondUnknown).partialWrt ⟨1⟩).fold =
      ((productByHandle.partialWrt ⟨1⟩).toSlots secondUnknown).fold ∧
    (productByHandle.toSlots secondUnknown).fold = .param ⟨1⟩ * .slot ⟨2⟩ 0 ∧
    (productByHandle.toSlots secondUnknown).paramsAfter [⟨3⟩] = [⟨3⟩, ⟨1⟩, ⟨2⟩] ∧
    (productByHandle.toSlots secondUnknown).dependsOn ⟨2⟩ = true ∧
    (productByHandle.toSlots secondUnknown).countReferences ⟨1⟩ = 2 ∧
    (productByHandle.toSlots secondUnknown).referenced (· == ⟨2⟩) = .exactly ⟨2⟩ ∧
    (productByHandle.toSlots secondUnknown).canIsolate ⟨2⟩ = true := by
  have hhandles : productByHandle.slotsBelow 0 = true := rfl
  obtain ⟨hback, hpartial, hfold, hlist, _, hcount, _, _⟩ :=
    toSlots_faithful hhandles secondUnknown ⟨1⟩
  obtain ⟨_, _, _, _, hdepends, _, hreferenced, hisolate⟩ :=
    toSlots_faithful hhandles secondUnknown ⟨2⟩
  refine ⟨hhandles, rfl, hback, congrArg fold hpartial, ?_, ?_, ?_, ?_, ?_, ?_⟩
  · rw [hfold]
    decide +kernel
  · rw [hlist]
    rfl
  · rw [hdepends]
    rfl
  · rw [hcount]
    rfl
  · rw [hreferenced]
    rfl
  · rw [hisolate]
    rfl

end Expr

end SketchSolver
