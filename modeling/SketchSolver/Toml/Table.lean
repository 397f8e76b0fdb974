import SketchSolver.Toml.Value

/-!
# Tables

What the statements of a configuration text add up to. A name may be given a value once, and a
table may have one header; a table that was written as a whole, in braces, takes nothing more. A
name with dots leads into a table that names with dots have made. On its way it passes tables
without a header of their own, and of tables of one name the last one.
-/

namespace SketchSolver.Toml

/-- A table of the kind may be entered, by a name with dots if `dotted` and under a header
otherwise; `last` tells whether it is the one that is extended, and not one on the way. -/
def TableKind.isOpen (dotted last : Bool) : TableKind → Bool
  | .inline => false
  | .dotted => true
  | .implicit => !(dotted && last)
  | .header => !dotted

namespace Entries

/-- The entries with the value of a name changed; none if the change fails. -/
def alter? (name : String) (f : Option Value → Option Value) : Entries → Option Entries
  | [] => (f none).map fun v => [(name, v)]
  | (k, v) :: rest =>
    if k = name then (f (some v)).map fun v => (k, v) :: rest
    else (alter? name f rest).map ((k, v) :: ·)

/-- The entries with the table at the end of a path changed. Tables that are missing on the way are
made, and of tables of one name the last one is entered. -/
def extend? (dotted : Bool) (f : Entries → Option Entries) :
    (path : List String) → Entries → Option Entries
  | [], es => f es
  | name :: path, es =>
    es.alter? name fun
      | none =>
        (extend? dotted f path []).map (.table (if dotted then .dotted else .implicit))
      | some (.table kind sub) =>
        if kind.isOpen dotted path.isEmpty then (extend? dotted f path sub).map (.table kind)
        else none
      | some (.tables elements) =>
        match elements.getLast? with
        | some last =>
          if dotted && path.isEmpty then none
          else (extend? dotted f path last).map fun last => .tables (elements.dropLast ++ [last])
        | none => none
      | some _ => none

/-- The entries with the value at the end of a path changed. -/
def alterAt? (dotted : Bool) (f : Option Value → Option Value) (path : List String)
    (es : Entries) : Option Entries :=
  match path.getLast? with
  | none => none
  | some name => es.extend? dotted (alter? name f) path.dropLast

/-- The entries with a value for a path that has none. -/
def insert? (path : List String) (value : Value) (es : Entries) : Option Entries :=
  es.alterAt? true (fun present => if present.isNone then some value else none) path

/-- The entries with a table that has its header now. -/
def openHeader? (path : List String) (es : Entries) : Option Entries :=
  es.alterAt? false
    (fun
      | none => some (.table .header [])
      | some (.table .implicit sub) => some (.table .header sub)
      | some _ => none)
    path

/-- The entries with one more table of a name. -/
def openElement? (path : List String) (es : Entries) : Option Entries :=
  es.alterAt? false
    (fun
      | none => some (.tables [[]])
      | some (.tables elements) => some (.tables (elements ++ [[]]))
      | some _ => none)
    path

/-- The entries after more statements, where pairs belong to the table at the path `current`. -/
def addStatements? : (current : List String) → List Statement → Entries → Option Entries
  | _, [], es => some es
  | current, .pair path value :: rest, es => do
    addStatements? current rest (← es.extend? false (insert? path value) current)
  | _, .header path :: rest, es => do
    addStatements? path rest (← es.openHeader? path)
  | _, .element path :: rest, es => do
    addStatements? path rest (← es.openElement? path)

/-- The entries that the statements of a text add up to. -/
def ofStatements? (statements : List Statement) : Option Entries :=
  addStatements? [] statements []

/-- The entries of a table in braces. -/
def ofPairs? (pairs : List (List String × Value)) : Option Entries :=
  ofStatements? (pairs.map fun (path, value) => .pair path value)

end Entries

end SketchSolver.Toml
