/-!
# Configuration values

The values of a configuration text in the TOML format, and the statements that such a text consists
of.
-/

namespace SketchSolver.Toml

/-- How a table came into being, which decides what may be added to it later. -/
inductive TableKind where
  /-- Written in braces: nothing may be added. -/
  | inline
  /-- By a name with dots in a pair: it may not get a header. -/
  | dotted
  /-- As a part of a longer header: it may get a header of its own, and pairs only under that. -/
  | implicit
  /-- By its header: pairs are added under the header only. -/
  | header
deriving DecidableEq, Repr

/-- A value. -/
inductive Value where
  | string (text : String)
  | integer (n : Int)
  | float (x : Float)
  | boolean (b : Bool)
  /-- A date, a time or both. What it denotes is of no interest here. -/
  | dateTime
  | array (elements : List Value)
  | table (kind : TableKind) (entries : List (String × Value))
  /-- Tables of one name, each with a header of its own. -/
  | tables (elements : List (List (String × Value)))
deriving Repr

/-- The names of a table with their values, in the order in which they were written. -/
abbrev Entries := List (String × Value)

/-- A line of a configuration text, or several lines that belong together. A name with dots is a
list of names. -/
inductive Statement where
  /-- `path = value` -/
  | pair (path : List String) (value : Value)
  /-- `[path]` -/
  | header (path : List String)
  /-- `[[path]]` -/
  | element (path : List String)
deriving Repr

end SketchSolver.Toml
