import Mathlib.Logic.Relation
import SketchSolver.Proofs.Partition

/-!
# What a run of look-ups and unions computes

A partition is used by calls, each a look-up or a union (`Call`), from the partition into classes
of one member on (`run`). What the calls ask for is the smallest equivalence that holds of every
two numbers given to a union (`Connected`). A partition that two numbers are of one class in
exactly if the calls connect them `Represents` the calls. One call keeps that
(`Represents.after`), hence every run establishes it (`represents_run`), and `run_connects` reads
off what each call answers. That the loop of a look-up stops, though it changes the pointers that
it follows, is stated without the bound on its steps: `LooksUp` is the loop as such, and
`WellFormed.looksUp` runs it along a way that gets shorter with every step.
-/

namespace SketchSolver.Partition

/-! ## The loop of a look-up -/

/-- The loop that looks up `i` in `p` stops at `r` and leaves `q`. Every number it reads at and
writes to is one of the partition. -/
inductive LooksUp : Partition → Nat → Nat → Partition → Prop where
  | stop (hroot : p.parents[i]? = some i) : LooksUp p i i p
  | step (hnext : p.parents[i]? = some next) (hne : next ≠ i)
      (hsecond : p.parents[next]? = some second)
      (hrest : LooksUp ⟨p.parents.set i second⟩ second r q) : LooksUp p i r q

variable {p : Partition} {n m i j r : Nat}

/-- A number inside points to what is stored for it. -/
theorem getElem?_parents (hi : i < p.size) : p.parents[i]? = some (p.parent i) := by
  rw [parent, List.getD_eq_getElem?_getD, List.getElem?_eq_getElem hi]
  rfl

/-- If the bound on the steps is at least the length of the way, the loop stops by itself. -/
theorem looksUp_follow (hp : ∀ i < p.size, p.parent i < p.size) (hi : i < p.size)
    (h : p.Leads n i r) (hsteps : n ≤ m) : p.LooksUp i (follow m p i).1 (follow m p i).2 := by
  induction m generalizing p i n with
  | zero =>
    obtain rfl := Nat.le_zero.1 hsteps
    cases h with
    | here hroot => exact .stop ((getElem?_parents hi).trans (congrArg some hroot))
  | succ m ih =>
    rw [follow]
    split
    · next hroot => exact .stop ((getElem?_parents hi).trans (congrArg some hroot))
    · next hne =>
      have hnext : p.parent i < p.size := hp i hi
      obtain ⟨k, hk, hway⟩ := h.second hi hne hsteps
      refine .step (getElem?_parents hi) hne (getElem?_parents hnext) ?_
      exact ih (parent_redirect_lt hp hi (hp _ hnext))
        ((hp _ hnext).trans_eq (size_redirect p i _).symm) hway hk

/-- In a partition whose ways end, the loop stops at the representative. -/
theorem WellFormed.looksUp (hp : p.WellFormed) (hi : i < p.size) :
    p.LooksUp i (p.rep i) (p.find i).2 := by
  obtain ⟨n, h⟩ := hp.leads_rep hi
  exact looksUp_follow hp.parent_lt hi h (Nat.le_of_lt (h.length_lt hp.parent_lt hi))

/-- A representative is its own one. -/
theorem WellFormed.rep_rep (hp : p.WellFormed) (hi : i < p.size) : p.rep (p.rep i) = p.rep i := by
  obtain ⟨_, h⟩ := hp.leads_rep hi
  exact hp.rep_eq (hp.rep_lt hi) (.here h.root)

/-- A union finds nothing to do exactly if its numbers have one representative. -/
theorem union_eq_false_iff (hp : p.WellFormed) (hi : i < p.size) (hj : j < p.size) :
    (p.union i j).1 = false ↔ p.rep i = p.rep j := by
  obtain ⟨_, _, hrep⟩ := rep_find hp hi
  have hb : ((p.find i).2.find j).1 = p.rep j := hrep j hj
  have ha : (p.find i).1 = p.rep i := rfl
  unfold union
  simp only [ha, hb]
  split
  · next heq => simp only [heq]
  · next hne => simp only [hne, Bool.true_eq_false]

/-! ## Runs -/

/-- What is asked of a partition. -/
inductive Call where
  /-- The representative of a number. -/
  | find (i : Nat)
  /-- The union of the classes of two numbers. -/
  | union (a b : Nat)
deriving DecidableEq, Repr

/-- A call about numbers below `n`. -/
def Call.InBounds (n : Nat) : Call → Prop
  | .find i => i < n
  | .union a b => a < n ∧ b < n

/-- The partition after a call. -/
def after (p : Partition) : Call → Partition
  | .find i => (p.find i).2
  | .union a b => (p.union a b).2

/-- The partition of the numbers below `n` after a list of calls. -/
def run (n : Nat) (calls : List Call) : Partition :=
  calls.foldl after (discrete n)

/-- What the unions among the calls connect. -/
def Connected (calls : List Call) : Nat → Nat → Prop :=
  Relation.EqvGen fun a b => Call.union a b ∈ calls

variable {calls : List Call} {k a b : Nat}

/-- Further calls disconnect nothing. -/
theorem Connected.append (h : Connected calls i j) (more : List Call) :
    Connected (calls ++ more) i j :=
  Relation.EqvGen.mono (fun _ _ hmem => List.mem_append_left more hmem) _ _ h

/-- A look-up connects nothing. -/
theorem connected_append_find : Connected (calls ++ [.find k]) = Connected calls := by
  unfold Connected
  congr 1
  funext a b
  simp

/-- A function that has one value on every two numbers given to a union has one value on all
connected numbers. -/
theorem Connected.eq {v : Nat → β} (h : Connected calls i j)
    (hv : ∀ a b, Call.union a b ∈ calls → v a = v b) : v i = v j := by
  induction h with
  | rel a b hmem => exact hv a b hmem
  | refl a => rfl
  | symm a b _ ih => exact ih.symm
  | trans a b c _ _ ih₁ ih₂ => exact ih₁.trans ih₂

/-- Two numbers have one representative exactly if the calls connect them. -/
structure Represents (p : Partition) (n : Nat) (calls : List Call) : Prop where
  wellFormed : p.WellFormed
  size_eq : p.size = n
  rep_eq_rep_iff : ∀ i < n, ∀ j < n, p.rep i = p.rep j ↔ Connected calls i j

/-- At first no two numbers are connected. -/
theorem represents_discrete (n : Nat) : (discrete n).Represents n [] := by
  refine ⟨wellFormed_discrete n, List.length_range, fun i hi j hj => ?_⟩
  rw [rep_discrete hi, rep_discrete hj]
  constructor
  · rintro rfl
    exact .refl i
  · intro h
    exact h.eq (v := id) (fun a b hmem => nomatch hmem)

/-- A look-up in a partition that represents the calls so far. -/
theorem Represents.find (h : p.Represents n calls) (hk : k < n) :
    (p.find k).2.Represents n (calls ++ [.find k]) := by
  obtain ⟨hp, rfl, hiff⟩ := h
  obtain ⟨hwf, hsize, hrep⟩ := rep_find hp hk
  refine ⟨hwf, hsize, fun i hi j hj => ?_⟩
  rw [hrep i hi, hrep j hj, connected_append_find]
  exact hiff i hi j hj

/-- A union in a partition that represents the calls so far. -/
theorem Represents.union (h : p.Represents n calls) (hcalls : ∀ c ∈ calls, c.InBounds n)
    (ha : a < n) (hb : b < n) : (p.union a b).2.Represents n (calls ++ [.union a b]) := by
  obtain ⟨hp, rfl, hiff⟩ := h
  obtain ⟨hwf, hsize, hrep⟩ := rep_union hp ha hb
  have hjoin : Connected (calls ++ [.union a b]) a b := .rel a b (by simp)
  have hclass : ∀ i < p.size, ∀ j < p.size, p.rep i = p.rep j →
      Connected (calls ++ [.union a b]) i j := fun i hi j hj heq =>
    ((hiff i hi j hj).1 heq).append _
  have hacross : ∀ i < p.size, ∀ j < p.size, p.rep i = p.rep a → p.rep j = p.rep b →
      Connected (calls ++ [.union a b]) i j := fun i hi j hj hia hjb =>
    ((hclass i hi a ha hia).trans _ _ _ hjoin).trans _ _ _ (hclass b hb j hj hjb.symm)
  refine ⟨hwf, hsize, fun i hi j hj => ⟨fun heq => ?_, fun hconn => ?_⟩⟩
  · rw [hrep i hi, hrep j hj] at heq
    split at heq
    · next hia =>
      split at heq
      · next hja => exact hclass i hi j hj (hia.trans hja.symm)
      · exact hacross i hi j hj hia heq.symm
    · split at heq
      · next hja => exact (hacross j hj i hi hja heq).symm
      · exact hclass i hi j hj heq
  · -- Out of bounds every number is a class of its own, so that the function is total.
    have hv := hconn.eq (v := fun k => if k < p.size then (p.union a b).2.rep k else k) ?_
    · simpa only [if_pos hi, if_pos hj] using hv
    · intro x y hmem
      rcases List.mem_append.1 hmem with hmem | hmem
      · obtain ⟨hx, hy⟩ := hcalls _ hmem
        have heq := (hiff x hx y hy).2 (.rel x y hmem)
        simp only [if_pos hx, if_pos hy, hrep x hx, hrep y hy, heq]
      · obtain ⟨rfl, rfl⟩ : x = a ∧ y = b := by simpa using hmem
        simp only [if_pos ha, if_pos hb, hrep x ha, hrep y hb, if_true]
        split
        · rfl
        · rfl

/-- A call in a partition that represents the calls so far. -/
theorem Represents.after (h : p.Represents n calls) (hcalls : ∀ c ∈ calls, c.InBounds n)
    {c : Call} (hc : c.InBounds n) : (p.after c).Represents n (calls ++ [c]) := by
  cases c with
  | find k => exact h.find hc
  | union a b => exact h.union hcalls hc.1 hc.2

/-- Every run represents its calls. -/
theorem represents_run (hcalls : ∀ c ∈ calls, c.InBounds n) : (run n calls).Represents n calls := by
  induction calls using List.reverseRecOn with
  | nil => exact represents_discrete n
  | append_singleton calls c ih =>
    have hinit : ∀ c ∈ calls, c.InBounds n := fun c hc => hcalls c (List.mem_append_left _ hc)
    rw [run, List.foldl_append]
    exact (ih hinit).after hinit (hcalls c (by simp))

/-- **A partition is the equivalence closure of its unions.** After every run of calls about
numbers below `n`, the loop that looks up a number of them stops; what it stops at is a fixed point
connected to the number; two look-ups, one after the other, agree exactly if their numbers are
connected; a union answers false exactly if its numbers are connected; and a look-up leaves every
two numbers connected that were, and no others. -/
theorem run_connects (n : Nat) (calls : List Call) (hcalls : ∀ c ∈ calls, c.InBounds n) :
    (∀ i < n, (run n calls).LooksUp i ((run n calls).find i).1 ((run n calls).find i).2 ∧
      ((run n calls).find i).2.parents[((run n calls).find i).1]? =
        some ((run n calls).find i).1 ∧
      Connected calls i ((run n calls).find i).1) ∧
    (∀ i < n, ∀ j < n, ((run n calls).find i).1 = (((run n calls).find i).2.find j).1 ↔
      Connected calls i j) ∧
    (∀ a < n, ∀ b < n, ((run n calls).union a b).1 = false ↔ Connected calls a b) ∧
    ∀ k < n, ∀ i < n, ∀ j < n,
      (((run n calls).find k).2.find i).1 = (((run n calls).find k).2.find j).1 ↔
        ((run n calls).find i).1 = ((run n calls).find j).1 := by
  obtain ⟨hp, hsize, hiff⟩ := represents_run hcalls
  generalize run n calls = p at hp hsize hiff
  subst hsize
  refine ⟨fun i hi => ⟨hp.looksUp hi, ?_, ?_⟩, fun i hi j hj => ?_, fun a ha b hb => ?_,
    fun k hk i hi j hj => ?_⟩
  · obtain ⟨hwf, hsize, hrep⟩ := rep_find hp hi
    have hroot : (p.find i).1 < (p.find i).2.size := by rw [hsize]; exact hp.rep_lt hi
    obtain ⟨_, hway⟩ := hwf.leads_rep hroot
    rw [show (p.find i).2.rep (p.find i).1 = (p.find i).1 from
      (hrep _ (hp.rep_lt hi)).trans (hp.rep_rep hi)] at hway
    rw [getElem?_parents hroot, hway.root]
  · exact (hiff i hi _ (hp.rep_lt hi)).1 (hp.rep_rep hi).symm
  · obtain ⟨_, _, hrep⟩ := rep_find hp hi
    rw [← hiff i hi j hj, show ((p.find i).2.find j).1 = p.rep j from hrep j hj]
    rfl
  · rw [union_eq_false_iff hp ha hb]
    exact hiff a ha b hb
  · obtain ⟨_, _, hrep⟩ := rep_find hp hk
    rw [show ((p.find k).2.find i).1 = p.rep i from hrep i hi,
      show ((p.find k).2.find j).1 = p.rep j from hrep j hj]
    rfl

/-- Two chains that meet: a look-up in between shortens the way of the first number, and the last
union has nothing left to join. -/
theorem run_chains :
    (run 5 [.union 0 1, .union 1 2, .find 0, .union 4 3, .union 3 2]).parents = [2, 2, 2, 2, 3] ∧
    ((run 5 [.union 0 1, .union 1 2, .find 0, .union 4 3, .union 3 2]).union 4 0).1 = false ∧
    Connected [.union 0 1, .union 1 2, .find 0, .union 4 3, .union 3 2] 4 0 := by
  have h := run_connects 5 [.union 0 1, .union 1 2, .find 0, .union 4 3, .union 3 2]
    (by simp [Call.InBounds])
  have hfalse : ((run 5 [.union 0 1, .union 1 2, .find 0, .union 4 3, .union 3 2]).union 4 0).1 =
      false := by decide
  exact ⟨by decide, hfalse, (h.2.2.1 4 (by decide) 0 (by decide)).1 hfalse⟩

end SketchSolver.Partition
