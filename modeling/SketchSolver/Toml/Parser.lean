import SketchSolver.Toml.Quoted
import SketchSolver.Toml.Table

/-!
# Reading a configuration text

A text is read into its statements (`statements?`), and the statements are added up (`parse?`).
Values nest, so their readers take a bound on the number of nested readings; the length of the text
is one. Brackets and braces nest to a limited depth (`maxDepth`), and names with dots have a limited
number of parts; a text beyond these limits is malformed.
-/

namespace SketchSolver.Toml

/-- How deep brackets and braces may nest, and how many parts a name with dots may have. -/
def maxDepth : Nat := 80

/-! ## Names -/

/-- The character may stand in a name without quotes. -/
def isNameChar (c : Char) : Bool :=
  c.isAlphanum || c == '_' || c == '-'

/-- A name in front of a text. -/
def name? : List Char → Option (String × List Char)
  | '"' :: rest => (basic? rest).map fun (text, rest) => (String.ofList text, rest)
  | '\'' :: rest => (literal? rest).map fun (text, rest) => (String.ofList text, rest)
  | text =>
    let name := text.takeWhile isNameChar
    if name.isEmpty then none else some (String.ofList name, text.dropWhile isNameChar)

/-- A name with dots in front of a text, with the blanks around it, if it has no more parts than
given. -/
def pathOf? : (parts : Nat) → List Char → Option (List String × List Char)
  | 0, _ => none
  | parts + 1, text => do
    let (name, text) ← name? (skipBlanks text)
    match skipBlanks text with
    | '.' :: rest =>
      let (path, rest) ← pathOf? parts rest
      some (name :: path, rest)
    | rest => some ([name], rest)

/-- A name with dots in front of a text, with the blanks around it. -/
def path? (text : List Char) : Option (List String × List Char) :=
  pathOf? maxDepth text

/-! ## Values -/

/-- A quoted text in front of a text. -/
def quoted? : List Char → Option (List Char × List Char)
  | '"' :: '"' :: '"' :: rest => multilineBasic? false (skipLineBreak rest)
  | '"' :: rest => basic? rest
  | '\'' :: '\'' :: '\'' :: rest => multilineLiteral? (skipLineBreak rest)
  | '\'' :: rest => literal? rest
  | _ => none

mutual

/-- A value in front of a text; `depth` more brackets and braces may be open in it. -/
def value? : (fuel depth : Nat) → List Char → Option (Value × List Char)
  | 0, _, _ => none
  | fuel + 1, depth, text =>
    match depth, text with
    | depth + 1, '[' :: rest => do
      let (elements, rest) ← elements? fuel depth rest
      some (.array elements, rest)
    | depth + 1, '{' :: rest => do
      let (pairs, rest) ← pairs? fuel depth rest
      let entries ← Entries.ofPairs? pairs
      some (.table .inline entries, rest)
    | _, '"' :: _ | _, '\'' :: _ => do
      let (quoted, rest) ← quoted? text
      some (.string (String.ofList quoted), rest)
    | _, _ => do
      let (run, rest) := splitScalar text
      let value ← scalar? run
      some (value, rest)

/-- The elements of an array and its closing bracket, in front of a text. A comma may follow the
last element. -/
def elements? : (fuel depth : Nat) → List Char → Option (List Value × List Char)
  | 0, _, _ => none
  | fuel + 1, depth, text => do
    match ← skipLines? false text with
    | ']' :: rest => some ([], rest)
    | text =>
      let (value, rest) ← value? fuel depth text
      match ← skipLines? false rest with
      | ']' :: rest => some ([value], rest)
      | ',' :: rest =>
        let (values, rest) ← elements? fuel depth rest
        some (value :: values, rest)
      | _ => none

/-- The pairs of a table in braces and its closing brace, in front of a text. A comma may follow the
last pair, and lines may end anywhere but within a name. -/
def pairs? : (fuel depth : Nat) → List Char → Option (List (List String × Value) × List Char)
  | 0, _, _ => none
  | fuel + 1, depth, text => do
    match ← skipLines? false text with
    | '}' :: rest => some ([], rest)
    | text =>
      let (path, text) ← path? text
      let text ← dropChar? '=' (← skipLines? false text)
      let (value, text) ← value? fuel depth (← skipLines? false text)
      match ← skipLines? false text with
      | '}' :: rest => some ([(path, value)], rest)
      | ',' :: rest =>
        let (pairs, rest) ← pairs? fuel depth rest
        some ((path, value) :: pairs, rest)
      | _ => none

end

/-! ## Statements -/

/-- A statement in front of a text, without the end of its line. -/
def statement? (text : List Char) : Option (Statement × List Char) :=
  match text with
  | '[' :: '[' :: rest => do
    let (path, rest) ← path? rest
    let rest ← dropChar? ']' rest
    let rest ← dropChar? ']' rest
    some (.element path, rest)
  | '[' :: rest => do
    let (path, rest) ← path? rest
    let rest ← dropChar? ']' rest
    some (.header path, rest)
  | _ => do
    let (path, rest) ← path? text
    let rest ← dropChar? '=' rest
    let (value, rest) ← value? text.length maxDepth (skipBlanks rest)
    some (.pair path value, rest)

/-- The statements of a text, each on lines of its own. -/
def statements? : (fuel : Nat) → List Char → Option (List Statement)
  | 0, _ => none
  | fuel + 1, text => do
    match ← skipLines? false text with
    | [] => some []
    | text =>
      let (statement, rest) ← statement? text
      let rest ← endOfLine? false rest
      let statements ← statements? fuel rest
      some (statement :: statements)

/-- The entries of a configuration text; none if it is malformed. A byte order mark in front of it
is passed over. -/
def parse? (text : String) : Option Entries :=
  let chars :=
    match text.toList with
    | '\ufeff' :: rest => rest
    | chars => chars
  (statements? (chars.length + 1) chars).bind Entries.ofStatements?

end SketchSolver.Toml
