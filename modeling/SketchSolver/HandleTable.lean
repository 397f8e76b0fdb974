import SketchSolver.Handle

/-!
# Tables by handle

A table of values by the handle of a parameter, in ascending order of the handles, and the change
of the first entry of a list that is looked for.
-/

namespace SketchSolver

/-- Values by handle. -/
abbrev HandleTable (β : Type u) := List (ParamHandle × β)

/-- The table with a value for a handle, in place of the one it may have had. -/
def HandleTable.insert (h : ParamHandle) (value : β) : HandleTable β → HandleTable β
  | [] => [(h, value)]
  | (k, v) :: rest =>
    if h.number < k.number then (h, value) :: (k, v) :: rest
    else if h = k then (h, value) :: rest
    else (k, v) :: HandleTable.insert h value rest

/-- The list with the first element that satisfies `p` changed. -/
def updateFirst (p : β → Bool) (f : β → β) : List β → List β
  | [] => []
  | x :: rest => if p x then f x :: rest else x :: updateFirst p f rest

end SketchSolver
