import SketchSolver.Proofs.Sketch.Frame

/-!
# The tables of a sketch

Whatever is done to a sketch, its tables stay consistent (`WellFormed`): the handles of a table are
different and have been given out by its counter, a point or a circle owns parameters of its own
group that nothing else owns, and what is dragged exists. An operation only takes entries out of a
table and gives new ones the next handles (`Grows`), and this composes, so a run of operations does
the same. Hence a handle that has been taken out of a table does not come back
(`performAll_wellFormed`).
-/

namespace SketchSolver

/-- The parameters that an entity is made of, without those of the entities it refers to. -/
def EntityKind.ownParams : EntityKind → List ParamHandle
  | .point x y => [x, y]
  | .circle _ radius => [radius]
  | .arc .. => []

namespace Sketch

/-- A table whose entries are told apart by handle. -/
inductive Table where
  | params
  | entities
  | constraints
  | groups
deriving DecidableEq, Repr

/-- One entry of a table. -/
def Table.one (t : Table) : Table → Nat :=
  fun u => if u = t then 1 else 0

/-- The numbers of the handles in a table. -/
def numbers (s : Sketch α) : Table → List Nat
  | .params => s.params.map (·.handle.number.toNat)
  | .entities => s.entities.map (·.handle.number.toNat)
  | .constraints => s.constraints.map (·.handle.number.toNat)
  | .groups => s.groups.map (·.handle.number.toNat)

/-- The number that the next entry of a table is given. -/
def next (s : Sketch α) : Table → UInt32
  | .params => s.nextParam.number
  | .entities => s.nextEntity.number
  | .constraints => s.nextConstraint.number
  | .groups => UInt32.ofNat s.groups.length + 1

/-- The parameters, each with its group. -/
def keys (s : Sketch α) : List (ParamHandle × GroupHandle) :=
  s.params.map fun p => (p.handle, p.group)

/-- The tables of a sketch are consistent. -/
structure WellFormed (s : Sketch α) : Prop where
  nodup : ∀ t, (s.numbers t).Nodup
  lt_next : ∀ t, ∀ n ∈ s.numbers t, n < (s.next t).toNat
  /-- What an entity is made of are parameters of its group. -/
  owned : ∀ e ∈ s.entities, ∀ h ∈ e.kind.ownParams, (h, e.group) ∈ s.keys
  /-- No two entities share a parameter. -/
  apart : (s.entities.flatMap (·.kind.ownParams)).Nodup
  dragged : ∀ h ∈ s.dragged, h ∈ s.params.map (·.handle)

/-! ## Operations -/

/-- An operation on a sketch. -/
inductive Operation (α : Type u) where
  | addGroup (name : String)
  | addParam (g : GroupHandle) (value : α)
  | addPoint (g : GroupHandle) (x y : α)
  | addCircle (g : GroupHandle) (center : EntityHandle) (radius : α)
  | addArc (g : GroupHandle) (center start stop : EntityHandle)
  | addConstraint (g : GroupHandle) (kind : ConstraintKind α)
  | setReference (c : ConstraintHandle) (reference : Bool)
  | setLabel (c : ConstraintHandle) (value : α)
  | removeConstraint (c : ConstraintHandle)
  | dragPoint (e : EntityHandle)
  | stopDragging
  | setParam (h : ParamHandle) (value : α)
  | setPolicy (g : GroupHandle) (policy : Policy)
  | solveGroup (g : GroupHandle) (options : SolveOptions) (watch : Stopwatch)
  | checkGroup (g : GroupHandle) (findFree : Bool) (watch : Stopwatch)

/-- How many entries an operation adds to each table. -/
def Operation.adds : Operation α → Table → Nat
  | .addGroup .. => Table.one .groups
  | .addParam .. => Table.one .params
  | .addPoint .. => Table.one .params + Table.one .params + Table.one .entities
  | .addCircle .. => Table.one .params + Table.one .entities
  | .addArc .. => Table.one .entities
  | .addConstraint .. => Table.one .constraints
  | _ => 0

/-- How many entries operations add to each table. -/
def additions (ops : List (Operation α)) : Table → Nat :=
  (ops.map Operation.adds).sum

/-- What an operation answers. -/
inductive Answer where
  | done
  | group (g : GroupHandle)
  | param (h : ParamHandle)
  | entity (e : EntityHandle)
  | constraint (c : ConstraintHandle)
  | report (result : Except SolverError Report)

section
variable [Scalar α]

/-- Performs an operation. -/
def perform (s : Sketch α) : Operation α → Except (Fault α) (Answer × Sketch α)
  | .addGroup name => return (s.addGroup name).map .group id
  | .addParam g value => return (s.addParam g value).map .param id
  | .addPoint g x y => return (s.addPoint g x y).map .entity id
  | .addCircle g center radius => return (s.addCircle g center radius).map .entity id
  | .addArc g center start stop => return (s.addArc g center start stop).map .entity id
  | .addConstraint g kind => return (s.addConstraint g kind).map .constraint id
  | .setReference c reference => return (.done, s.setReference c reference)
  | .setLabel c value => return (.done, s.setLabel c value)
  | .removeConstraint c => return (.done, s.removeConstraint c)
  | .dragPoint e => return (.done, s.dragPoint e)
  | .stopDragging => return (.done, s.stopDragging)
  | .setParam h value => return (.done, s.setParam h value)
  | .setPolicy g policy => return (.done, s.setPolicy g policy)
  | .solveGroup g options watch => return (← s.solveGroup g options watch).map .report id
  | .checkGroup g findFree watch => return (← s.checkGroup g findFree watch).map .report id

/-- Performs operations one after the other. -/
def performAll (s : Sketch α) : List (Operation α) → Except (Fault α) (List Answer × Sketch α)
  | [] => return ([], s)
  | op :: ops => do
    let (answer, s) ← s.perform op
    let (answers, s) ← s.performAll ops
    return (answer :: answers, s)

end

section
variable {g : GroupHandle} {policy : Policy} {s s' s'' : Sketch α} {added added' : Table → Nat}
  {t : Table} {op : Operation α} {ops : List (Operation α)} {writes : List (Write α)}
  {answer : Except SolverError Report}

/-! ## Handles -/

/-- Entries have been taken out of the tables, and as many new ones as said have been given the
next handles. -/
structure Grows (added : Table → Nat) (s s' : Sketch α) : Prop where
  next : ∀ t, (s'.next t).toNat = (s.next t).toNat + added t
  numbers : ∀ t, (s'.numbers t).Sublist (s.numbers t ++ List.range' (s.next t).toNat (added t))

/-- Tables that only lose entries give out no handle. -/
theorem Grows.of_sublist (hnext : s'.next = s.next)
    (hnumbers : ∀ t, (s'.numbers t).Sublist (s.numbers t)) : Grows 0 s s' where
  next t := by rw [hnext, Pi.zero_apply, Nat.add_zero]
  numbers t := by simpa using hnumbers t

/-- Tables with the handles they had give out no handle. -/
theorem Grows.of_eq (hnext : s'.next = s.next) (hnumbers : s'.numbers = s.numbers) :
    Grows 0 s s' :=
  .of_sublist hnext fun t => by rw [hnumbers]

/-- What two operations add is added by both together. -/
theorem Grows.trans (h : Grows added s s') (h' : Grows added' s' s'') :
    Grows (added + added') s s'' where
  next t := by rw [h'.next, h.next, Pi.add_apply, Nat.add_assoc]
  numbers t := by
    have happend : List.range' (s.next t).toNat (added t) ++
        List.range' (s'.next t).toNat (added' t) =
        List.range' (s.next t).toNat ((added + added') t) := by
      rw [h.next, List.range'_append_1, Pi.add_apply]
    rw [← happend, ← List.append_assoc]
    exact (h'.numbers t).trans ((h.numbers t).append_right _)

/-- An entry with the next handle has been added to one table. -/
theorem Grows.one (hleft : (s.next t).toNat + 1 < UInt32.size)
    (hnext : ∀ u, s'.next u = if u = t then s.next u + 1 else s.next u)
    (hnumbers : ∀ u, s'.numbers u =
      if u = t then s.numbers u ++ [(s.next u).toNat] else s.numbers u) :
    Grows t.one s s' where
  next u := by
    rw [hnext, Table.one]
    split
    · next h =>
      rw [h]
      have hadd : (s.next t + 1).toNat = ((s.next t).toNat + 1) % 2 ^ 32 := UInt32.toNat_add ..
      exact hadd.trans (Nat.mod_eq_of_lt hleft)
    · rfl
  numbers u := by
    rw [hnumbers, Table.one]
    split
    · rw [List.range'_one]
    · exact List.sublist_append_left _ _

/-- A handle that is left was there before, or is a new one. -/
theorem Grows.lt_of_mem (h : Grows added s s') (hlt : ∀ n ∈ s.numbers t, n < (s.next t).toNat)
    {n : Nat} (hn : n ∈ s'.numbers t) : n < (s'.next t).toNat := by
  rw [h.next]
  rcases List.mem_append.1 ((h.numbers t).subset hn) with hn | hn
  · exact Nat.lt_add_right _ (hlt n hn)
  · exact (List.mem_range'_1.1 hn).2

/-- New handles differ from those that were given out before. -/
theorem Grows.nodup (h : Grows added s s') (hnodup : (s.numbers t).Nodup)
    (hlt : ∀ n ∈ s.numbers t, n < (s.next t).toNat) : (s'.numbers t).Nodup := by
  refine List.Nodup.sublist (h.numbers t) (hnodup.append List.nodup_range' fun n hn hnew => ?_)
  exact absurd (hlt n hn) (Nat.not_lt.2 (List.mem_range'_1.1 hnew).1)

/-- A new group has the next handle. -/
theorem grows_addGroup (name : String) (hleft : (s.next .groups).toNat + 1 < UInt32.size) :
    Grows (Table.one .groups) s (s.addGroup name).2 := by
  have hlength : UInt32.ofNat (s.groups.length + 1) = UInt32.ofNat s.groups.length + 1 :=
    UInt32.ofNat_add ..
  refine .one hleft (fun u => ?_) fun u => ?_
  · cases u <;> simp [addGroup, next, hlength]
  · cases u <;> simp [addGroup, numbers, next]

/-- A new parameter has the next handle. -/
theorem grows_addParam (g : GroupHandle) (value : α)
    (hleft : (s.next .params).toNat + 1 < UInt32.size) :
    Grows (Table.one .params) s (s.addParam g value).2 :=
  .one hleft (by rintro (_ | _) <;> rfl) fun u => by cases u <;> simp [addParam, numbers, next]

/-- A new entity has the next handle. -/
theorem grows_addEntity (g : GroupHandle) (kind : EntityKind)
    (hleft : (s.next .entities).toNat + 1 < UInt32.size) :
    Grows (Table.one .entities) s (s.addEntity g kind).2 :=
  .one hleft (by rintro (_ | _) <;> rfl) fun u => by cases u <;> simp [addEntity, numbers, next]

/-- A new constraint has the next handle. -/
theorem grows_addConstraint (g : GroupHandle) (kind : ConstraintKind α)
    (hleft : (s.next .constraints).toNat + 1 < UInt32.size) :
    Grows (Table.one .constraints) s (s.addConstraint g kind).2 :=
  .one hleft (by rintro (_ | _) <;> rfl) fun u => by
    cases u <;> simp [addConstraint, numbers, next]

/-- A change of a constraint that keeps its handle adds no entry. -/
theorem grows_updateConstraint (c : ConstraintHandle) {f : Constraint α → Constraint α}
    (hf : ∀ c, (f c).handle = c.handle) : Grows 0 s (s.updateConstraint c f) :=
  .of_eq rfl <| funext fun
    | .constraints => map_updateFirst (fun k => by rw [hf]) _
    | .params | .entities | .groups => rfl

/-- A change of a parameter that keeps its handle adds no entry. -/
theorem grows_updateParam (h : ParamHandle) {f : SketchParam α → SketchParam α}
    (hf : ∀ p, (f p).handle = p.handle) : Grows 0 s (s.updateParam h f) :=
  .of_eq rfl <| funext fun
    | .params => map_updateFirst (fun p => by rw [hf]) _
    | .entities | .constraints | .groups => rfl

/-- A change of a group that keeps its handle adds no entry. -/
theorem grows_updateGroup (g : GroupHandle) {f : Group → Group}
    (hf : ∀ group, (f group).handle = group.handle) : Grows 0 s (s.updateGroup g f) :=
  have hlength : s.groups.length = (updateFirst (·.handle == g) f s.groups).length :=
    (forall₂_updateFirst s.groups).length_eq
  .of_eq
    (funext fun
      | .groups => congrArg (UInt32.ofNat · + 1) hlength.symm
      | .params | .entities | .constraints => rfl)
    (funext fun
      | .groups => map_updateFirst (fun group => by rw [hf]) _
      | .params | .entities | .constraints => rfl)

/-- Removing a constraint takes entries out and adds none. -/
theorem grows_removeConstraint (c : ConstraintHandle) : Grows 0 s (s.removeConstraint c) :=
  .of_sublist rfl fun
    | .constraints => List.filter_sublist.map _
    | .params | .entities | .groups => .refl _

/-- Dragging a point adds no entry. -/
theorem grows_dragPoint (e : EntityHandle) : Grows 0 s (s.dragPoint e) := by
  unfold Sketch.dragPoint
  split
  · exact .of_eq rfl rfl
  · exact .of_eq rfl rfl

/-- A call neither adds an entry nor takes one out. -/
theorem Untouched.grows (h : Untouched g policy s s') : Grows 0 s s' := by
  refine .of_eq (funext fun t => ?_) (funext fun t => ?_)
  · cases t with
    | params => exact congrArg ParamHandle.number h.nextParam
    | entities => exact congrArg EntityHandle.number h.nextEntity
    | constraints => exact congrArg ConstraintHandle.number h.nextConstraint
    | groups => exact congrArg (UInt32.ofNat · + 1) h.groups.length_eq.symm
  · cases t with
    | params =>
      have hhandles := congrArg (List.map (·.number.toNat)) h.handles_eq
      rwa [List.map_map, List.map_map] at hhandles
    | entities => exact congrArg (List.map _) h.entities
    | constraints => exact map_eq_of_forall₂ (fun c c' hc => by rw [hc.eq.1]) h.constraints
    | groups =>
      refine map_eq_of_forall₂ (fun group group' hgroup => ?_) h.groups
      rcases hgroup with rfl | ⟨_, _, rfl⟩ <;> rfl

/-- A call adds no entry, whatever it answers. -/
theorem Answered.grows (h : Answered g s writes answer s') : Grows 0 s s' := by
  cases answer with
  | error e =>
    obtain ⟨_, _, _, rfl⟩ := h
    exact .of_eq rfl rfl
  | ok report =>
    obtain ⟨_, _, _, huntouched, _⟩ := h
    exact huntouched.grows

/-! ## Consistency -/

/-- An empty sketch is consistent. -/
theorem WellFormed.empty (settings : Settings α) : WellFormed (.empty settings) where
  nodup t := by cases t <;> exact List.nodup_nil
  lt_next t := by cases t <;> exact nofun
  owned := nofun
  apart := List.nodup_nil
  dragged := nofun

/-- Entities that are added may own what has not been given out before. -/
theorem WellFormed.of_grows (hs : s.WellFormed) (hgrows : Grows added s s')
    (hkeys : s.keys ⊆ s'.keys) (new : List Entity) (hentities : s'.entities = s.entities ++ new)
    (hnew : ∀ e ∈ new, ∀ h ∈ e.kind.ownParams,
      (h, e.group) ∈ s'.keys ∧ (s.next .params).toNat ≤ h.number.toNat)
    (hapart : (new.flatMap (·.kind.ownParams)).Nodup)
    (hdragged : ∀ h ∈ s'.dragged, h ∈ s.params.map (·.handle)) : s'.WellFormed where
  nodup t := hgrows.nodup (hs.nodup t) (hs.lt_next t)
  lt_next t _ hn := hgrows.lt_of_mem (hs.lt_next t) hn
  owned e he h hh := by
    rw [hentities] at he
    rcases List.mem_append.1 he with he | he
    · exact hkeys (hs.owned e he h hh)
    · exact (hnew e he h hh).1
  apart := by
    rw [hentities, List.flatMap_append]
    refine hs.apart.append hapart fun h hold hh => ?_
    obtain ⟨e, he, hh⟩ := List.mem_flatMap.1 hh
    obtain ⟨d, hd, hold⟩ := List.mem_flatMap.1 hold
    -- What is owned already has been given out, and what is new has not.
    obtain ⟨p, hp, hkey⟩ := List.mem_map.1 (hs.owned d hd h hold)
    have hlt := hs.lt_next .params _ (List.mem_map_of_mem hp)
    rw [(Prod.mk.inj hkey).1] at hlt
    exact absurd hlt (Nat.not_lt.2 (hnew e he h hh).2)
  dragged h hh := by
    obtain ⟨p, hp, hhandle⟩ := List.mem_map.1 (hdragged h hh)
    obtain ⟨p', hp', hkey⟩ := List.mem_map.1 (hkeys (List.mem_map_of_mem hp))
    exact List.mem_map.2 ⟨p', hp', (Prod.mk.inj hkey).1.trans hhandle⟩

/-- No entity is added, and nothing else is dragged than before. -/
theorem WellFormed.of_grows_of_eq (hs : s.WellFormed) (hgrows : Grows added s s')
    (hkeys : s.keys ⊆ s'.keys) (hentities : s'.entities = s.entities)
    (hdragged : s'.dragged ⊆ s.dragged) : s'.WellFormed :=
  hs.of_grows hgrows hkeys [] (hentities.trans (List.append_nil _).symm) nofun List.nodup_nil
    fun h hh => hs.dragged h (hdragged hh)

/-- What a call leaves untouched keeps a sketch consistent. -/
theorem WellFormed.untouched (hs : s.WellFormed) (h : Untouched g policy s s') : s'.WellFormed :=
  hs.of_grows_of_eq h.grows (fun _ hkey => by rwa [keys, h.params]) h.entities
    fun _ hh => by rwa [h.dragged] at hh

/-- A call keeps a sketch consistent, whatever it answers. -/
theorem WellFormed.answered (hs : s.WellFormed) (h : Answered g s writes answer s') :
    s'.WellFormed := by
  cases answer with
  | error e =>
    obtain ⟨_, _, _, rfl⟩ := h
    exact hs
  | ok report =>
    obtain ⟨_, _, _, huntouched, _⟩ := h
    exact hs.untouched huntouched

/-- Handles with different numbers are different. -/
theorem nodup_of_numbers {handle : β → γ} (number : γ → Nat) {entries : List β}
    (h : (entries.map fun e => number (handle e)).Nodup) : (entries.map handle).Nodup := by
  refine .of_map number ?_
  rwa [List.map_map]

/-- The parameters of a consistent sketch have different handles. -/
theorem WellFormed.nodup_handles (hs : s.WellFormed) : (s.params.map (·.handle)).Nodup :=
  nodup_of_numbers (fun h : ParamHandle => h.number.toNat) (hs.nodup .params)

/-- The entities of a consistent sketch have different handles. -/
theorem WellFormed.nodup_entities (hs : s.WellFormed) : (s.entities.map (·.handle)).Nodup :=
  nodup_of_numbers (fun h : EntityHandle => h.number.toNat) (hs.nodup .entities)

/-- The constraints of a consistent sketch have different handles. -/
theorem WellFormed.nodup_constraints (hs : s.WellFormed) : (s.constraints.map (·.handle)).Nodup :=
  nodup_of_numbers (fun h : ConstraintHandle => h.number.toNat) (hs.nodup .constraints)

/-- A parameter that no entity owns may be added. -/
theorem WellFormed.addParam (hs : s.WellFormed) (g : GroupHandle) (value : α)
    (hleft : (s.next .params).toNat + 1 < UInt32.size) : (s.addParam g value).2.WellFormed :=
  hs.of_grows_of_eq (grows_addParam g value hleft)
    (by simp [keys, Sketch.addParam]) rfl (List.Subset.refl _)

/-- A point adds two parameters to its group. -/
theorem keys_addPoint (s : Sketch α) (g : GroupHandle) (x y : α) : (s.addPoint g x y).2.keys =
    s.keys ++ [(s.nextParam, g), (⟨s.nextParam.number + 1⟩, g)] := by
  simp [keys, Sketch.addPoint, Sketch.addParam, Sketch.addEntity]

/-- A point owns its coordinates, which are new. -/
theorem WellFormed.addPoint (hs : s.WellFormed) (g : GroupHandle) (x y : α)
    (hparams : (s.next .params).toNat + 2 < UInt32.size)
    (hentities : (s.next .entities).toNat + 1 < UInt32.size) :
    (s.addPoint g x y).2.WellFormed ∧
      Grows (Operation.addPoint g x y).adds s (s.addPoint g x y).2 := by
  have hx := grows_addParam (s := s) g x (by omega)
  have hy := grows_addParam (s := (s.addParam g x).2) g y (by rw [hx.next]; exact hparams)
  have hentity := grows_addEntity (s := ((s.addParam g x).2.addParam g y).2) g
    (.point s.nextParam ⟨s.nextParam.number + 1⟩) hentities
  have hgrows : Grows (Operation.addPoint g x y).adds s (s.addPoint g x y).2 :=
    (hx.trans hy).trans hentity
  have hnext : (s.nextParam.number + 1).toNat = s.nextParam.number.toNat + 1 := hx.next .params
  refine ⟨hs.of_grows hgrows ?_
    [⟨s.nextEntity, g, .point s.nextParam ⟨s.nextParam.number + 1⟩⟩] rfl ?_ ?_ hs.dragged, hgrows⟩
  · rw [keys_addPoint]
    exact List.subset_append_left _ _
  · intro e he h hh
    rw [List.mem_singleton.1 he] at hh ⊢
    rw [keys_addPoint]
    rcases List.mem_pair.1 hh with rfl | rfl
    · exact ⟨by simp, Nat.le_refl _⟩
    · exact ⟨by simp, hnext ▸ Nat.le_succ _⟩
  · refine List.nodup_cons.2 ⟨fun hmem => ?_, List.nodup_singleton _⟩
    have hnumber : s.nextParam.number.toNat = (s.nextParam.number + 1).toNat :=
      congrArg (·.number.toNat) (List.mem_singleton.1 hmem)
    omega

/-- A circle adds one parameter to its group. -/
theorem keys_addCircle (s : Sketch α) (g : GroupHandle) (center : EntityHandle) (radius : α) :
    (s.addCircle g center radius).2.keys = s.keys ++ [(s.nextParam, g)] := by
  simp [keys, Sketch.addCircle, Sketch.addParam, Sketch.addEntity]

/-- A circle owns its radius, which is new. -/
theorem WellFormed.addCircle (hs : s.WellFormed) (g : GroupHandle) (center : EntityHandle)
    (radius : α) (hparams : (s.next .params).toNat + 1 < UInt32.size)
    (hentities : (s.next .entities).toNat + 1 < UInt32.size) :
    (s.addCircle g center radius).2.WellFormed ∧
      Grows (Operation.addCircle g center radius).adds s (s.addCircle g center radius).2 := by
  have hgrows : Grows (Operation.addCircle g center radius).adds s
      (s.addCircle g center radius).2 :=
    (grows_addParam g radius hparams).trans
      (grows_addEntity (s := (s.addParam g radius).2) g (.circle center s.nextParam) hentities)
  refine ⟨hs.of_grows hgrows ?_ [⟨s.nextEntity, g, .circle center s.nextParam⟩] rfl ?_
    (List.nodup_singleton _) hs.dragged, hgrows⟩
  · rw [keys_addCircle]
    exact List.subset_append_left _ _
  · intro e he h hh
    rw [List.mem_singleton.1 he] at hh ⊢
    rw [keys_addCircle, List.mem_singleton.1 hh]
    exact ⟨by simp, Nat.le_refl _⟩

/-- An arc owns no parameter. -/
theorem WellFormed.addArc (hs : s.WellFormed) (g : GroupHandle)
    (center start stop : EntityHandle) (hentities : (s.next .entities).toNat + 1 < UInt32.size) :
    (s.addArc g center start stop).2.WellFormed := by
  refine hs.of_grows (grows_addEntity g (.arc center start stop) hentities) (List.Subset.refl _)
    [⟨s.nextEntity, g, .arc center start stop⟩] rfl (fun e he h hh => ?_) List.nodup_nil
    hs.dragged
  rw [List.mem_singleton.1 he] at hh
  exact absurd hh List.not_mem_nil

/-- What is dragged is owned by a point. -/
theorem WellFormed.dragPoint (hs : s.WellFormed) (e : EntityHandle) :
    (s.dragPoint e).WellFormed := by
  unfold Sketch.dragPoint
  split
  · next handle group x y hentity =>
    refine hs.of_grows (.of_eq rfl rfl) (List.Subset.refl _) [] (List.append_nil _).symm nofun
      List.nodup_nil fun h hh => ?_
    obtain ⟨p, hp, hkey⟩ := List.mem_map.1 (hs.owned _ (List.mem_of_find?_eq_some hentity) h hh)
    exact List.mem_map.2 ⟨p, hp, (Prod.mk.inj hkey).1⟩
  · exact hs

/-! ## Runs of operations -/

variable [Scalar α]

/-- One operation keeps the tables consistent, and hands out the next handles. -/
theorem WellFormed.perform (hs : s.WellFormed) (op : Operation α)
    (hleft : ∀ t, (s.next t).toNat + op.adds t < UInt32.size) :
    ∃ answer s', s.perform op = .ok (answer, s') ∧ s'.WellFormed ∧ Grows op.adds s s' ∧
      ∀ c, answer = .constraint c → c.number = s.next .constraints := by
  cases op with
  | addGroup name =>
    have hgrows := grows_addGroup name (hleft .groups)
    exact ⟨_, _, rfl, hs.of_grows_of_eq hgrows (fun _ => id) rfl (fun _ => id), hgrows, nofun⟩
  | addParam g value =>
    exact ⟨_, _, rfl, hs.addParam g value (hleft .params),
      grows_addParam g value (hleft .params), nofun⟩
  | addPoint g x y =>
    obtain ⟨hwell, hgrows⟩ := hs.addPoint g x y (hleft .params) (hleft .entities)
    exact ⟨_, _, rfl, hwell, hgrows, nofun⟩
  | addCircle g center radius =>
    obtain ⟨hwell, hgrows⟩ := hs.addCircle g center radius (hleft .params) (hleft .entities)
    exact ⟨_, _, rfl, hwell, hgrows, nofun⟩
  | addArc g center start stop =>
    exact ⟨_, _, rfl, hs.addArc g center start stop (hleft .entities),
      grows_addEntity g _ (hleft .entities), nofun⟩
  | addConstraint g kind =>
    have hgrows := grows_addConstraint g kind (hleft .constraints)
    refine ⟨_, _, rfl, hs.of_grows_of_eq hgrows (fun _ => id) rfl (fun _ => id), hgrows, ?_⟩
    rintro c ⟨⟩
    rfl
  | setReference c reference =>
    have hgrows : Grows 0 s (s.setReference c reference) := grows_updateConstraint c fun _ => rfl
    exact ⟨_, _, rfl, hs.of_grows_of_eq hgrows (fun _ => id) rfl (fun _ => id), hgrows, nofun⟩
  | setLabel c value =>
    have hgrows : Grows 0 s (s.setLabel c value) := grows_updateConstraint c fun _ => rfl
    exact ⟨_, _, rfl, hs.of_grows_of_eq hgrows (fun _ => id) rfl (fun _ => id), hgrows, nofun⟩
  | removeConstraint c =>
    have hgrows : Grows 0 s (s.removeConstraint c) := grows_removeConstraint c
    exact ⟨_, _, rfl, hs.of_grows_of_eq hgrows (fun _ => id) rfl (fun _ => id), hgrows, nofun⟩
  | dragPoint e => exact ⟨_, _, rfl, hs.dragPoint e, grows_dragPoint e, nofun⟩
  | stopDragging =>
    have hgrows : Grows 0 s s.stopDragging := .of_eq rfl rfl
    exact ⟨_, _, rfl, hs.of_grows_of_eq hgrows (fun _ => id) rfl nofun, hgrows, nofun⟩
  | setParam h value =>
    have hgrows : Grows 0 s (s.setParam h value) := grows_updateParam h fun _ => rfl
    have hkeys : (s.setParam h value).keys = s.keys :=
      map_updateFirst (f := fun p : SketchParam α => { p with value }) (fun _ => rfl) _
    exact ⟨_, _, rfl, hs.of_grows_of_eq hgrows (fun _ => (hkeys ▸ id)) rfl (fun _ => id), hgrows,
      nofun⟩
  | setPolicy g policy =>
    have hgrows : Grows 0 s (s.setPolicy g policy) := grows_updateGroup g fun _ => rfl
    exact ⟨_, _, rfl, hs.of_grows_of_eq hgrows (fun _ => id) rfl (fun _ => id), hgrows, nofun⟩
  | solveGroup g options watch =>
    obtain ⟨out, s', _, hrun, hanswered⟩ := exists_solveGroup hs.nodup_handles g options watch
    refine ⟨.report out.result, s', ?_, hs.answered hanswered, hanswered.grows, nofun⟩
    simp only [Sketch.perform, hrun, bind, Except.bind]
    rfl
  | checkGroup g findFree watch =>
    obtain ⟨out, s', _, hrun, hanswered, _⟩ :=
      exists_checkGroup hs.nodup_handles g findFree watch
    refine ⟨.report out.result, s', ?_, hs.answered hanswered, hanswered.grows, nofun⟩
    simp only [Sketch.perform, hrun, bind, Except.bind]
    rfl

/-- So does a run of operations: by induction on what is left to do. -/
theorem WellFormed.performAll : ∀ (ops : List (Operation α)) {s : Sketch α}, s.WellFormed →
    (∀ t, (s.next t).toNat + additions ops t < UInt32.size) →
    ∃ answers s', s.performAll ops = .ok (answers, s') ∧ s'.WellFormed ∧
      Grows (additions ops) s s' ∧
      ∀ c, .constraint c ∈ answers → (s.next .constraints).toNat ≤ c.number.toNat
  | [], s, hs, _ => ⟨[], s, rfl, hs, .of_eq rfl rfl, nofun⟩
  | op :: ops, s, hs, hleft => by
    have hsum : additions (op :: ops) = op.adds + additions ops := List.sum_cons ..
    rw [hsum] at hleft ⊢
    have hfirst : ∀ t, (s.next t).toNat + op.adds t < UInt32.size := fun t =>
      Nat.lt_of_le_of_lt (by simp) (hleft t)
    obtain ⟨answer, s₁, hperform, hs₁, hgrows, hfresh⟩ := hs.perform op hfirst
    have hrest : ∀ t, (s₁.next t).toNat + additions ops t < UInt32.size := fun t => by
      rw [hgrows.next, Nat.add_assoc]
      exact hleft t
    obtain ⟨answers, s', hrun, hs', hgrows', hfresh'⟩ := hs₁.performAll ops hrest
    refine ⟨answer :: answers, s', ?_, hs', hgrows.trans hgrows', fun c hc => ?_⟩
    · simp only [Sketch.performAll, hperform, hrun, bind, Except.bind]
      rfl
    · rcases List.mem_cons.1 hc with hanswer | hc
      · exact Nat.le_of_eq (congrArg UInt32.toNat (hfresh c hanswer.symm)).symm
      · refine Nat.le_trans ?_ (hfresh' c hc)
        rw [hgrows.next]
        exact Nat.le_add_right ..

/-- Two runs of operations, the second from where the first has ended, are one run. -/
theorem performAll_append : ∀ {ops ops' : List (Operation α)} {s s' s'' : Sketch α}
    {answers answers' : List Answer}, s.performAll ops = .ok (answers, s') →
      s'.performAll ops' = .ok (answers', s'') →
      s.performAll (ops ++ ops') = .ok (answers ++ answers', s'')
  | [], _, _, _, _, _, _, h, h' => by
    cases h
    exact h'
  | op :: ops, ops', s, s', s'', answers, answers', h, h' => by
    obtain ⟨⟨answer, s₁⟩, hperform, h⟩ := bind_eq_ok.1 h
    obtain ⟨⟨rest, s₂⟩, hrest, h⟩ := bind_eq_ok.1 h
    cases h
    have ih := performAll_append hrest h'
    simp only [List.cons_append, performAll, hperform, ih, bind, Except.bind]
    rfl

omit [Scalar α] in
/-- A constraint is in the table if its number is. -/
theorem mem_numbers_constraints {c : ConstraintHandle} :
    c.number.toNat ∈ s.numbers .constraints ↔ c ∈ s.constraints.map (·.handle) := by
  constructor
  · intro hc
    obtain ⟨k, hk, hnumber⟩ := List.mem_map.1 hc
    have hhandle : k.handle = c := congrArg ConstraintHandle.mk (UInt32.toNat_inj.1 hnumber)
    exact List.mem_map.2 ⟨k, hk, hhandle⟩
  · intro hc
    obtain ⟨k, hk, rfl⟩ := List.mem_map.1 hc
    exact List.mem_map.2 ⟨k, hk, rfl⟩

omit [Scalar α] in
/-- A constraint that has been removed is not in the table. -/
theorem not_mem_removeConstraint (s : Sketch α) (c : ConstraintHandle) :
    c ∉ (s.removeConstraint c).constraints.map (·.handle) := by
  simp [removeConstraint]

/-- Whatever operations are performed on an empty sketch, there is an answer to each, and the tables
are consistent. If a constraint is removed on the way, its handle is neither answered nor in the
table again. -/
theorem performAll_wellFormed (settings : Settings α) (ops : List (Operation α))
    (hfew : ∀ t, additions ops t < 2 ^ 32 - 1) :
    ∃ answers s, (Sketch.empty settings).performAll ops = .ok (answers, s) ∧ s.WellFormed ∧
      ∀ before c after, ops = before ++ .removeConstraint c :: after →
        ∃ answers₁ s₁ answers₂,
          (Sketch.empty settings).performAll before = .ok (answers₁, s₁) ∧
          answers = answers₁ ++ .done :: answers₂ ∧
          (c ∈ s₁.constraints.map (·.handle) →
            .constraint c ∉ answers₂ ∧ c ∉ s.constraints.map (·.handle)) := by
  have hempty := WellFormed.empty settings
  have hnext : ∀ t, ((Sketch.empty settings).next t).toNat = 1 := by rintro (_ | _) <;> rfl
  have hroom : ∀ {n : Nat}, n < 2 ^ 32 - 1 → 1 + n < UInt32.size := fun hn => by
    have hsize : UInt32.size = 2 ^ 32 := rfl
    omega
  obtain ⟨answers, s, hrun, hs, _, _⟩ :=
    hempty.performAll ops fun t => by rw [hnext]; exact hroom (hfew t)
  refine ⟨answers, s, hrun, hs, ?_⟩
  rintro before c after rfl
  -- The run before the removal, the removal and the run after it are the whole run.
  have hsum : ∀ t, additions (before ++ .removeConstraint c :: after) t =
      additions before t + additions after t := fun t => by simp [additions, Operation.adds]
  obtain ⟨answers₁, s₁, hbefore, hs₁, hgrows₁, _⟩ :=
    hempty.performAll before fun t => by
      have hlt := hroom (hfew t)
      rw [hsum] at hlt
      rw [hnext]
      omega
  have hgrows₂ : Grows 0 s₁ (s₁.removeConstraint c) := grows_removeConstraint c
  have hs₂ : (s₁.removeConstraint c).WellFormed :=
    hs₁.of_grows_of_eq hgrows₂ (fun _ => id) rfl (fun _ => id)
  obtain ⟨answers₂, s', hafter, _, hgrows, hfresh⟩ :=
    hs₂.performAll after fun t => by
      have hlt := hroom (hfew t)
      rw [hsum] at hlt
      rw [hgrows₂.next, hgrows₁.next, hnext, Pi.zero_apply]
      omega
  have hrest : s₁.performAll (.removeConstraint c :: after) = .ok (.done :: answers₂, s') := by
    simp only [Sketch.performAll, Sketch.perform, hafter, bind, Except.bind, pure, Except.pure]
  obtain ⟨rfl, rfl⟩ := Prod.mk.inj (Except.ok.inj
    (hrun.symm.trans (performAll_append hbefore hrest)))
  refine ⟨answers₁, s₁, answers₂, hbefore, rfl, fun hc => ⟨fun hanswer => ?_, fun hmem => ?_⟩⟩
  · exact absurd (hs₁.lt_next .constraints _ (mem_numbers_constraints.2 hc))
      (Nat.not_lt.2 (hfresh c hanswer))
  · rcases List.mem_append.1 ((hgrows.numbers .constraints).subset
      (mem_numbers_constraints.2 hmem)) with hold | hnew
    · exact not_mem_removeConstraint s₁ c (mem_numbers_constraints.1 hold)
    · exact absurd (hs₁.lt_next .constraints _ (mem_numbers_constraints.2 hc))
        (Nat.not_lt.2 (List.mem_range'_1.1 hnew).1)

/-- The rank of a matrix is taken to be the number of its different rows. -/
def byRows : Settings (Exact ℚ) :=
  { Settings.rational with rankOf := fun A => A.toRows.dedup.length }

/-- A point that is first locked in two places and then in one, next to a circle, is dragged and
solved for. -/
def relocked : List (Operation (Exact ℚ)) :=
  [.addGroup "locked", .addPoint ⟨1⟩ (.number 0) (.number 0),
    .addConstraint ⟨1⟩ (.lock ⟨1⟩ (.number 1) (.number 2)),
    .addConstraint ⟨1⟩ (.lock ⟨1⟩ (.number 3) (.number 4)),
    .solveGroup ⟨1⟩ {} .still, .removeConstraint ⟨2⟩, .addCircle ⟨1⟩ ⟨1⟩ (.number 5),
    .addConstraint ⟨1⟩ (.diameter ⟨2⟩ (.number 6)), .dragPoint ⟨1⟩,
    .solveGroup ⟨1⟩ {} .still, .checkGroup ⟨1⟩ true .still]

/-- The second constraint is removed, and the third one does not get its handle. -/
theorem performAll_relocked : (∀ t, additions relocked t < 2 ^ 32 - 1) ∧
    ∃ answers₁ s₁ answers₂ s,
      (Sketch.empty byRows).performAll (relocked.take 5) = .ok (answers₁, s₁) ∧
      s₁.constraints.map (·.handle) = [⟨1⟩, ⟨2⟩] ∧
      (Sketch.empty byRows).performAll relocked = .ok (answers₁ ++ .done :: answers₂, s) ∧
      s.WellFormed ∧ .constraint ⟨2⟩ ∉ answers₂ ∧ s.constraints.map (·.handle) = [⟨1⟩, ⟨3⟩] ∧
      s.dragged = [⟨1⟩, ⟨2⟩] ∧ s.params.map (·.value) = [.number 1, .number 2, .number 3] := by
  have hfew : ∀ t, additions relocked t < 2 ^ 32 - 1 := by rintro (_ | _) <;> decide
  have hlocked : ((Sketch.empty byRows).performAll (relocked.take 5)).toOption.map
      (fun out => out.2.constraints.map (·.handle)) = some [⟨1⟩, ⟨2⟩] := by decide +kernel
  have hsolved : ((Sketch.empty byRows).performAll relocked).toOption.map (fun out =>
      (out.2.constraints.map (·.handle), out.2.dragged, out.2.params.map (·.value))) =
      some ([⟨1⟩, ⟨3⟩], [⟨1⟩, ⟨2⟩], [.number 1, .number 2, .number 3]) := by decide +kernel
  obtain ⟨answers, s, hrun, hs, hremoved⟩ := performAll_wellFormed byRows relocked hfew
  obtain ⟨answers₁, s₁, answers₂, hbefore, rfl, hgone⟩ :=
    hremoved (relocked.take 5) ⟨2⟩ (relocked.drop 6) rfl
  rw [hbefore] at hlocked
  rw [hrun] at hsolved
  simp only [Except.toOption, Option.map_some, Option.some.injEq, Prod.mk.injEq] at hlocked hsolved
  obtain ⟨hconstraints, hdragged, hvalues⟩ := hsolved
  have hmem : ⟨2⟩ ∈ s₁.constraints.map (·.handle) := by
    rw [hlocked]
    decide
  exact ⟨hfew, answers₁, s₁, answers₂, s, hbefore, hlocked, hrun, hs, (hgone hmem).1, hconstraints,
    hdragged, hvalues⟩

end

end Sketch

end SketchSolver
