/-!
# Partitions

A partition of the numbers below some bound into classes, refined downwards: classes are only ever
joined. Every number points to a member of its class, and the number that points to itself stands
for the class. Looking up the representative shortens the way to it for later look-ups, so the
look-up returns the partition together with the answer.
-/

namespace SketchSolver

/-- A partition of the numbers below `parents.length`. -/
structure Partition where
  /-- What each number points to. -/
  parents : List Nat
deriving DecidableEq, Repr

namespace Partition

/-- The partition of the numbers below `n` into classes of one member. -/
def discrete (n : Nat) : Partition :=
  ⟨List.range n⟩

/-- How many numbers are partitioned. -/
def size (p : Partition) : Nat :=
  p.parents.length

/-- What a number points to; a number out of bounds points to itself. -/
def parent (p : Partition) (i : Nat) : Nat :=
  p.parents.getD i i

/-- Follows the pointers from `i` for at most `steps` steps, each of which makes the number at hand
point past its next one and goes on from there. -/
def follow : (steps : Nat) → Partition → (i : Nat) → Nat × Partition
  | 0, p, i => (i, p)
  | steps + 1, p, i =>
    let next := p.parent i
    if next = i then (i, p)
    else
      let second := p.parent next
      follow steps ⟨p.parents.set i second⟩ second

/-- The representative of the class of `i`. No way to a representative is longer than there are
numbers. -/
def find (p : Partition) (i : Nat) : Nat × Partition :=
  follow p.size p i

/-- Joins the classes of `a` and `b`; false if they are one class already. -/
def union (p : Partition) (a b : Nat) : Bool × Partition :=
  let (ra, p) := p.find a
  let (rb, p) := p.find b
  if ra = rb then (false, p) else (true, ⟨p.parents.set ra rb⟩)

/-- `find` for a number that may be out of bounds. -/
def find? (p : Partition) (i : Nat) : Option (Nat × Partition) :=
  if i < p.size then some (p.find i) else none

/-- `union` for numbers that may be out of bounds. -/
def union? (p : Partition) (a b : Nat) : Option (Bool × Partition) :=
  if a < p.size ∧ b < p.size then some (p.union a b) else none

/-- The representative of every number, from zero on. -/
def representatives (p : Partition) : List Nat :=
  ((List.range p.size).foldl (fun (roots, p) i =>
    let (root, p) := p.find i
    (roots ++ [root], p)) (([] : List Nat), p)).1

end Partition

end SketchSolver
