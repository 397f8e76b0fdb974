import Mathlib.Data.Fintype.Card
import SketchSolver.Partition

/-!
# Representatives

A look-up changes the partition, so what a partition says is read off without one: `Leads p n i r`
is the way of `n` pointers from a number to its representative. A way is determined by its start
(`Leads.unique`) and visits no number twice, so in a partition whose pointers stay inside and lead
somewhere (`WellFormed`) it is shorter than there are numbers (`Leads.length_lt`). Shortening a way
keeps its end (`Leads.shortcut`), hence a look-up changes no representative (`rep_find`), and a
union changes those of one class (`rep_union`). So a list of unions joins the numbers it names
(`rep_foldl_union`) and no others but those it has to (`eq_of_rep_foldl_union`). The list of
representatives is that of every number (`representatives_eq`).
-/

namespace SketchSolver.Partition

/-! ## Ways to a representative -/

/-- After `n` pointers, the way from `i` ends at `r`. -/
inductive Leads (p : Partition) : Nat → Nat → Nat → Prop where
  | here (hroot : p.parent r = r) : Leads p 0 r r
  | next (hne : p.parent i ≠ i) (hrest : Leads p n (p.parent i) r) : Leads p (n + 1) i r

variable {p : Partition} {i j n m r t : Nat}

/-- A way ends at a number that points to itself. -/
theorem Leads.root (h : p.Leads n i r) : p.parent r = r := by
  induction h with
  | here hroot => exact hroot
  | next _ _ ih => exact ih

/-- There is one way from a number. -/
theorem Leads.unique (h : p.Leads n i r) (h' : p.Leads m i t) : n = m ∧ r = t := by
  induction h generalizing m with
  | here hroot =>
    cases h' with
    | here _ => exact ⟨rfl, rfl⟩
    | next hne _ => exact absurd hroot hne
  | next hne _ ih =>
    cases h' with
    | here hroot => exact absurd hroot hne
    | next _ hrest =>
      obtain ⟨rfl, rfl⟩ := ih hrest
      exact ⟨rfl, rfl⟩

/-- Every pointer stays inside, and every way ends. -/
structure WellFormed (p : Partition) : Prop where
  parent_lt : ∀ i < p.size, p.parent i < p.size
  leads : ∀ i < p.size, ∃ n r, p.Leads n i r

/-- The end of a way lies inside if its start does. -/
theorem Leads.lt (h : p.Leads n i r) (hp : ∀ i < p.size, p.parent i < p.size) (hi : i < p.size) :
    r < p.size := by
  induction h with
  | here _ => exact hi
  | next _ _ ih => exact ih (hp _ hi)

/-- From every number of pointers before its end, the way goes on. -/
theorem Leads.exists_leads (h : p.Leads n i r) (hp : ∀ i < p.size, p.parent i < p.size)
    (hi : i < p.size) : ∀ m ≤ n, ∃ j < p.size, p.Leads m j r := by
  induction h with
  | here hroot =>
    intro m hm
    obtain rfl := Nat.le_zero.1 hm
    exact ⟨_, hi, .here hroot⟩
  | @next i n r hne hrest ih =>
    intro m hm
    by_cases heq : m = n + 1
    · subst heq
      exact ⟨i, hi, .next hne hrest⟩
    · exact ih (hp _ hi) m (by omega)

/-- A way visits no number twice, so it is shorter than there are numbers. -/
theorem Leads.length_lt (h : p.Leads n i r) (hp : ∀ i < p.size, p.parent i < p.size)
    (hi : i < p.size) : n < p.size := by
  choose f hlt hleads using fun m : Fin (n + 1) =>
    h.exists_leads hp hi m (Nat.le_of_lt_succ m.isLt)
  have hinj : Function.Injective fun m => (⟨f m, hlt m⟩ : Fin p.size) := by
    intro a b hab
    have hwb := hleads b
    rw [← show f a = f b from congrArg Fin.val hab] at hwb
    exact Fin.ext ((hleads a).unique hwb).1
  have hcard := Fintype.card_le_of_injective _ hinj
  rwa [Fintype.card_fin, Fintype.card_fin] at hcard

/-! ## Shortening a way -/

/-- Making a number point to another one. -/
def redirect (p : Partition) (i t : Nat) : Partition :=
  ⟨p.parents.set i t⟩

@[simp] theorem size_redirect (p : Partition) (i t : Nat) : (p.redirect i t).size = p.size :=
  List.length_set

/-- Only the redirected number points elsewhere. -/
theorem parent_redirect (hi : i < p.size) (t j : Nat) :
    (p.redirect i t).parent j = if i = j then t else p.parent j := by
  unfold parent redirect
  rw [List.getD_eq_getElem?_getD, List.getD_eq_getElem?_getD, List.getElem?_set]
  by_cases hij : i = j
  · subst hij
    rw [if_pos rfl, if_pos rfl, if_pos (show i < p.parents.length from hi)]
    rfl
  · rw [if_neg hij, if_neg hij]

/-- Where a number points past its next one, all ways end where they did, and none is longer. -/
theorem Leads.shortcut (hi : i < p.size) (hne : p.parent i ≠ i) (h : p.Leads n j r) :
    ∃ m ≤ n, (p.redirect i (p.parent (p.parent i))).Leads m j r := by
  induction n using Nat.strong_induction_on generalizing j with
  | _ n ih =>
  cases h with
  | here hroot =>
    refine ⟨0, Nat.le_refl 0, .here ?_⟩
    rw [parent_redirect hi, if_neg]
    · exact hroot
    · rintro rfl
      exact hne hroot
  | @next _ n _ hj hrest =>
    by_cases hij : i = j
    · subst hij
      -- The way from `i` goes over its next number, so the shortcut is the rest of the rest.
      have hstep : ∃ m ≤ n, p.Leads m (p.parent (p.parent i)) r := by
        cases hrest with
        | here hroot =>
          refine ⟨0, Nat.le_refl 0, ?_⟩
          rw [hroot]
          exact .here hroot
        | next _ hrest => exact ⟨_, Nat.le_succ _, hrest⟩
      obtain ⟨m, hm, hway⟩ := hstep
      have hback : p.parent (p.parent i) ≠ i := by
        intro heq
        rw [heq] at hway
        have hlen := (hway.unique (.next hj hrest)).1
        omega
      obtain ⟨m', hm', hway'⟩ := ih m (by omega) hway
      refine ⟨m' + 1, by omega, .next ?_ ?_⟩
      · rw [parent_redirect hi, if_pos rfl]
        exact hback
      · rw [parent_redirect hi, if_pos rfl]
        exact hway'
    · obtain ⟨m, hm, hway⟩ := ih n (Nat.lt_succ_self n) hrest
      refine ⟨m + 1, by omega, .next ?_ ?_⟩
      · rw [parent_redirect hi, if_neg hij]
        exact hj
      · rw [parent_redirect hi, if_neg hij]
        exact hway

/-- From the number that the shortcut leads to, the way ends where it did, and is shorter. -/
theorem Leads.second (hi : i < p.size) (hne : p.parent i ≠ i) (h : p.Leads n i r)
    (hsteps : n ≤ m + 1) :
    ∃ k ≤ m, (p.redirect i (p.parent (p.parent i))).Leads k (p.parent (p.parent i)) r := by
  cases h with
  | here hroot => exact absurd hroot hne
  | @next _ n _ _ hrest =>
    cases hrest with
    | here hroot =>
      rw [hroot]
      obtain ⟨k, hk, hway⟩ := Leads.shortcut hi hne (.here hroot)
      rw [hroot] at hway
      exact ⟨k, by omega, hway⟩
    | next _ hrest =>
      obtain ⟨k, hk, hway⟩ := hrest.shortcut hi hne
      exact ⟨k, by omega, hway⟩

/-- Making a number point to one inside leaves every pointer inside. -/
theorem parent_redirect_lt (hp : ∀ j < p.size, p.parent j < p.size) (hi : i < p.size)
    (ht : t < p.size) : ∀ j < (p.redirect i t).size,
      (p.redirect i t).parent j < (p.redirect i t).size := by
  intro j hj
  rw [size_redirect] at hj ⊢
  rw [parent_redirect hi]
  split
  · exact ht
  · exact hp j hj

/-- Following the pointers ends at the representative, and no way becomes longer by it. -/
theorem follow_spec (hp : ∀ i < p.size, p.parent i < p.size) (hi : i < p.size)
    (h : p.Leads n i r) (hsteps : n ≤ m) :
    (follow m p i).1 = r ∧ (follow m p i).2.size = p.size ∧
      (∀ j < p.size, (follow m p i).2.parent j < p.size) ∧
      ∀ k j t, p.Leads k j t → ∃ k' ≤ k, (follow m p i).2.Leads k' j t := by
  induction m generalizing p i n with
  | zero =>
    obtain rfl := Nat.le_zero.1 hsteps
    cases h with
    | here hroot => exact ⟨rfl, rfl, hp, fun k j t hk => ⟨k, Nat.le_refl k, hk⟩⟩
  | succ m ih =>
    rw [follow]
    split
    · next hroot =>
      refine ⟨?_, rfl, hp, fun k j t hk => ⟨k, Nat.le_refl k, hk⟩⟩
      exact ((Leads.here hroot).unique h).2
    · next hne =>
      change (follow m (p.redirect i (p.parent (p.parent i))) (p.parent (p.parent i))).1 = r ∧ _
      have hsecond : p.parent (p.parent i) < p.size := hp _ (hp _ hi)
      obtain ⟨k, hk, hway⟩ := h.second hi hne hsteps
      have hp' := parent_redirect_lt hp hi hsecond
      obtain ⟨hend, hsize, hlt, hways⟩ := ih hp' (by rwa [size_redirect]) hway hk
      rw [size_redirect] at hsize hlt
      refine ⟨hend, hsize, hlt, fun l j t hl => ?_⟩
      obtain ⟨l', hl', hway'⟩ := hl.shortcut hi hne
      obtain ⟨l'', hl'', hway''⟩ := hways l' j t hway'
      exact ⟨l'', by omega, hway''⟩

/-! ## Representatives -/

/-- The representative of the class of a number. -/
def rep (p : Partition) (i : Nat) : Nat :=
  (p.find i).1

/-- The end of the way from a number is its representative. -/
theorem WellFormed.rep_eq (hp : p.WellFormed) (hi : i < p.size) (h : p.Leads n i r) :
    p.rep i = r :=
  (follow_spec hp.parent_lt hi h (Nat.le_of_lt (h.length_lt hp.parent_lt hi))).1

/-- A number has a way to its representative. -/
theorem WellFormed.leads_rep (hp : p.WellFormed) (hi : i < p.size) :
    ∃ n, p.Leads n i (p.rep i) := by
  obtain ⟨n, r, h⟩ := hp.leads i hi
  rw [hp.rep_eq hi h]
  exact ⟨n, h⟩

/-- The representative of an element is an element too. -/
theorem WellFormed.rep_lt (hp : p.WellFormed) (hi : i < p.size) : p.rep i < p.size := by
  obtain ⟨n, h⟩ := hp.leads_rep hi
  exact h.lt hp.parent_lt hi

/-- Where all ways end as they did, all representatives are as they were. -/
theorem WellFormed.of_leads {q : Partition} (hp : p.WellFormed) (hsize : q.size = p.size)
    (hlt : ∀ j < p.size, q.parent j < p.size)
    (hways : ∀ k j t, p.Leads k j t → ∃ k' ≤ k, q.Leads k' j t) :
    q.WellFormed ∧ ∀ j < p.size, q.rep j = p.rep j := by
  have hq : q.WellFormed := by
    refine ⟨by rwa [hsize], fun j hj => ?_⟩
    rw [hsize] at hj
    obtain ⟨n, h⟩ := hp.leads_rep hj
    obtain ⟨m, _, h'⟩ := hways n j _ h
    exact ⟨m, _, h'⟩
  refine ⟨hq, fun j hj => ?_⟩
  obtain ⟨n, h⟩ := hp.leads_rep hj
  obtain ⟨m, _, h'⟩ := hways n j _ h
  exact hq.rep_eq (by rwa [hsize]) h'

/-- A look-up changes no representative. -/
theorem rep_find (hp : p.WellFormed) (hi : i < p.size) :
    (p.find i).2.WellFormed ∧ (p.find i).2.size = p.size ∧
      ∀ j < p.size, (p.find i).2.rep j = p.rep j := by
  obtain ⟨n, h⟩ := hp.leads_rep hi
  obtain ⟨_, hsize, hlt, hways⟩ :=
    follow_spec hp.parent_lt hi h (Nat.le_of_lt (h.length_lt hp.parent_lt hi))
  obtain ⟨hwf, hrep⟩ := hp.of_leads hsize hlt hways
  exact ⟨hwf, hsize, hrep⟩

/-- Making one representative point to another one moves the ways that ended at the first. -/
theorem Leads.join (h : p.Leads n j r) (hi : i < p.size) (hroot : p.parent i = i)
    (ht : p.parent t = t) (hne : i ≠ t) :
    ∃ m, (p.redirect i t).Leads m j (if r = i then t else r) := by
  have htop : (p.redirect i t).parent t = t := by
    rw [parent_redirect hi, if_neg hne, ht]
  induction h with
  | @here r hr =>
    by_cases hri : r = i
    · subst hri
      have hnext : (p.redirect r t).parent r = t := by rw [parent_redirect hi, if_pos rfl]
      rw [if_pos rfl]
      refine ⟨1, .next (by rw [hnext]; exact Ne.symm hne) ?_⟩
      rw [hnext]
      exact .here htop
    · rw [if_neg hri]
      refine ⟨0, .here ?_⟩
      rw [parent_redirect hi, if_neg (Ne.symm hri), hr]
  | @next j n r hj _ ih =>
    obtain ⟨m, hm⟩ := ih
    have hji : i ≠ j := by
      rintro rfl
      exact hj hroot
    have hnext : (p.redirect i t).parent j = p.parent j := by rw [parent_redirect hi, if_neg hji]
    refine ⟨m + 1, .next (by rwa [hnext]) ?_⟩
    rw [hnext]
    exact hm

/-- A union gives the class of its first number the representative of its second, and leaves all
other classes as they are. -/
theorem rep_union (hp : p.WellFormed) (hi : i < p.size) (hj : j < p.size) :
    (p.union i j).2.WellFormed ∧ (p.union i j).2.size = p.size ∧
      ∀ k < p.size, (p.union i j).2.rep k = if p.rep k = p.rep i then p.rep j else p.rep k := by
  obtain ⟨hwf₁, hsize₁, hrep₁⟩ := rep_find hp hi
  obtain ⟨hwf₂, hsize₂, hrep₂⟩ := rep_find hwf₁ (show j < (p.find i).2.size by rwa [hsize₁])
  have hb : ((p.find i).2.find j).1 = p.rep j := hrep₁ j hj
  unfold union
  generalize hq : ((p.find i).2.find j).2 = q at hwf₂ hsize₂ hrep₂
  have hsize : q.size = p.size := hsize₂.trans hsize₁
  have hrep : ∀ k < p.size, q.rep k = p.rep k := fun k hk =>
    (hrep₂ k (by rwa [hsize₁])).trans (hrep₁ k hk)
  have ha : (p.find i).1 = p.rep i := rfl
  simp only [ha, hb, hq]
  by_cases heq : p.rep i = p.rep j
  · rw [if_pos heq]
    refine ⟨hwf₂, hsize, fun k hk => ?_⟩
    rw [hrep k hk]
    split
    · next hk' => rw [hk', heq]
    · rfl
  · rw [if_neg heq]
    change (q.redirect (p.rep i) (p.rep j)).WellFormed ∧
      (q.redirect (p.rep i) (p.rep j)).size = p.size ∧
      ∀ k < p.size, (q.redirect (p.rep i) (p.rep j)).rep k = _
    have hqi : p.rep i < q.size := by rw [hsize]; exact hp.rep_lt hi
    obtain ⟨_, hwayi⟩ := hwf₂.leads_rep (i := i) (by rwa [hsize])
    obtain ⟨_, hwayj⟩ := hwf₂.leads_rep (i := j) (by rwa [hsize])
    rw [hrep i hi] at hwayi
    rw [hrep j hj] at hwayj
    have hjoin : ∀ k < p.size, ∃ m, (q.redirect (p.rep i) (p.rep j)).Leads m k
        (if p.rep k = p.rep i then p.rep j else p.rep k) := by
      intro k hk
      obtain ⟨n, hway⟩ := hwf₂.leads_rep (i := k) (by rwa [hsize])
      rw [hrep k hk] at hway
      exact hway.join hqi hwayi.root hwayj.root heq
    have hwf : (q.redirect (p.rep i) (p.rep j)).WellFormed := by
      refine ⟨fun k hk => ?_, fun k hk => ?_⟩
      · exact parent_redirect_lt hwf₂.parent_lt hqi (by rw [hsize]; exact hp.rep_lt hj) k hk
      · rw [size_redirect, hsize] at hk
        obtain ⟨m, hm⟩ := hjoin k hk
        exact ⟨m, _, hm⟩
    refine ⟨hwf, by rw [size_redirect, hsize], fun k hk => ?_⟩
    obtain ⟨m, hm⟩ := hjoin k hk
    exact hwf.rep_eq (by rwa [size_redirect, hsize]) hm

/-- At first every number is its own representative. -/
theorem wellFormed_discrete (n : Nat) : (discrete n).WellFormed := by
  have hsize : (discrete n).size = n := List.length_range
  have hparent : ∀ i < n, (discrete n).parent i = i := by
    intro i hi
    simp [parent, discrete, hi]
  refine ⟨fun i hi => ?_, fun i hi => ⟨0, i, .here (hparent i (by rwa [hsize] at hi))⟩⟩
  rw [hsize] at hi ⊢
  rwa [hparent i hi]

/-- At first no two numbers have one representative. -/
theorem rep_discrete {n : Nat} (hi : i < n) : (discrete n).rep i = i := by
  refine (wellFormed_discrete n).rep_eq (by rwa [show (discrete n).size = n from List.length_range])
    (n := 0) (.here ?_)
  simp [parent, discrete, hi]

/-- Numbers that a list of unions joins have one representative in the end. -/
theorem rep_foldl_union {pairs : List (Nat × Nat)} (hp : p.WellFormed)
    (hpairs : ∀ e ∈ pairs, e.1 < p.size ∧ e.2 < p.size) {q : Partition}
    (hq : q = pairs.foldl (fun p (a, b) => if a = b then p else (p.union a b).2) p) :
    q.WellFormed ∧ q.size = p.size ∧
      (∀ i < p.size, ∀ j < p.size, p.rep i = p.rep j → q.rep i = q.rep j) ∧
      ∀ e ∈ pairs, q.rep e.1 = q.rep e.2 := by
  induction pairs generalizing p with
  | nil =>
    subst hq
    exact ⟨hp, rfl, fun _ _ _ _ heq => heq, fun e he => nomatch he⟩
  | cons e rest ih =>
    obtain ⟨a, b⟩ := e
    obtain ⟨ha, hb⟩ := hpairs _ (List.mem_cons_self ..)
    have hrest := fun e he => hpairs e (List.mem_cons_of_mem _ he)
    rw [List.foldl_cons] at hq
    by_cases hab : a = b
    · simp only [hab, if_true] at hq
      obtain ⟨hwf, hsize, hmono, hjoined⟩ := ih hp hrest hq
      refine ⟨hwf, hsize, hmono, fun e he => ?_⟩
      rcases List.mem_cons.1 he with rfl | he
      · rw [hab]
      · exact hjoined e he
    · simp only [if_neg hab] at hq
      obtain ⟨hwf₁, hsize₁, hrep₁⟩ := rep_union hp ha hb
      obtain ⟨hwf, hsize, hmono, hjoined⟩ := ih hwf₁ (by rwa [hsize₁]) hq
      rw [hsize₁] at hsize hmono
      refine ⟨hwf, hsize, fun i hi j hj heq => ?_, fun e he => ?_⟩
      · refine hmono i hi j hj ?_
        rw [hrep₁ i hi, hrep₁ j hj, heq]
      · rcases List.mem_cons.1 he with rfl | he
        · refine hmono a ha b hb ?_
          rw [hrep₁ a ha, hrep₁ b hb, if_pos rfl]
          split
          · rfl
          · rfl
        · exact hjoined e he

/-- Unions join nothing but what they are asked to: a function that has one value on every class at
first, and on every two numbers to be joined, has one value on every class in the end. -/
theorem eq_of_rep_foldl_union {pairs : List (Nat × Nat)} {v : Nat → β} (hp : p.WellFormed)
    (hpairs : ∀ e ∈ pairs, e.1 < p.size ∧ e.2 < p.size) (hv : ∀ e ∈ pairs, v e.1 = v e.2)
    (hclass : ∀ i < p.size, ∀ j < p.size, p.rep i = p.rep j → v i = v j) {q : Partition}
    (hq : q = pairs.foldl (fun p (a, b) => if a = b then p else (p.union a b).2) p) :
    ∀ i < p.size, ∀ j < p.size, q.rep i = q.rep j → v i = v j := by
  induction pairs generalizing p with
  | nil =>
    subst hq
    exact hclass
  | cons e rest ih =>
    obtain ⟨a, b⟩ := e
    obtain ⟨ha, hb⟩ := hpairs _ (List.mem_cons_self ..)
    have hab : v a = v b := hv _ (List.mem_cons_self ..)
    have hpairs' := fun e he => hpairs e (List.mem_cons_of_mem _ he)
    have hv' := fun e he => hv e (List.mem_cons_of_mem _ he)
    rw [List.foldl_cons] at hq
    by_cases hsame : a = b
    · simp only [hsame, if_true] at hq
      exact ih hp hpairs' hv' hclass hq
    · simp only [if_neg hsame] at hq
      obtain ⟨hwf, hsize, hrep⟩ := rep_union hp ha hb
      rw [← hsize] at hpairs' ⊢
      refine ih hwf hpairs' hv' ?_ hq
      rw [hsize]
      intro i hi j hj heq
      rw [hrep i hi, hrep j hj] at heq
      split at heq
      · next hi' =>
        rw [hclass i hi a ha hi']
        split at heq
        · next hj' => rw [hclass j hj a ha hj']
        · rw [hab, hclass b hb j hj heq]
      · split at heq
        · next hj' => rw [hclass i hi b hb heq, hclass j hj a ha hj', hab]
        · exact hclass i hi j hj heq

/-- The representatives are looked up one after the other, and no look-up changes those after
it. -/
theorem representatives_eq (hp : p.WellFormed) :
    p.representatives = (List.range p.size).map p.rep := by
  have hfold : ∀ (is : List Nat) (roots : List Nat) (q : Partition), q.WellFormed →
      q.size = p.size → (∀ i < p.size, q.rep i = p.rep i) → (∀ i ∈ is, i < p.size) →
      (is.foldl (fun acc i => (acc.1 ++ [(acc.2.find i).1], (acc.2.find i).2)) (roots, q)).1 =
        roots ++ is.map p.rep := by
    intro is
    induction is with
    | nil => intro roots q _ _ _ _; simp
    | cons i is ih =>
      intro roots q hq hsize hrep his
      have hi := his i (List.mem_cons_self ..)
      obtain ⟨hwf, hsize', hrep'⟩ := rep_find hq (show i < q.size by rwa [hsize])
      rw [hsize] at hsize' hrep'
      rw [List.foldl_cons, ih _ _ hwf hsize' (fun j hj => (hrep' j hj).trans (hrep j hj))
        (fun j hj => his j (List.mem_cons_of_mem _ hj)), List.map_cons, List.append_assoc]
      exact congrArg (fun r => roots ++ (r :: is.map p.rep)) (hrep i hi)
  exact hfold _ [] p hp rfl (fun _ _ => rfl) fun i hi => List.mem_range.1 hi

end SketchSolver.Partition
