import SketchSolver.Toml.Number

/-!
# Quoted text, blanks and comments

The four kinds of quoted text. Double quotes admit escapes and single quotes do not; three quotes of
either kind admit line breaks, which belong to the text as they are written. Each reader takes what
follows the opening quotes, and answers the text together with what follows the closing ones.
-/

namespace SketchSolver.Toml

/-- The character may stand in a comment or in quotes: any but control characters, and a tab. -/
def isTextChar (c : Char) : Bool :=
  c == '\t' || 32 ≤ c.toNat && c.toNat != 127

/-- A blank within a line. -/
def isBlank (c : Char) : Bool :=
  c == ' ' || c == '\t'

/-- What follows the blanks in front of a text. -/
def skipBlanks (text : List Char) : List Char :=
  text.dropWhile isBlank

/-- What follows blanks, comments and line breaks; `comment` tells whether the text begins within a
comment. -/
def skipLines? : (comment : Bool) → List Char → Option (List Char)
  | _, [] => some []
  | _, '\n' :: rest => skipLines? false rest
  | _, '\r' :: '\n' :: rest => skipLines? false rest
  | true, c :: rest => if isTextChar c then skipLines? true rest else none
  | false, c :: rest =>
    if isBlank c then skipLines? false rest
    else if c == '#' then skipLines? true rest
    else some (c :: rest)

/-- What follows the end of a line, before which only blanks and a comment may stand. -/
def endOfLine? : (comment : Bool) → List Char → Option (List Char)
  | _, [] => some []
  | _, '\n' :: rest => some rest
  | _, '\r' :: '\n' :: rest => some rest
  | true, c :: rest => if isTextChar c then endOfLine? true rest else none
  | false, c :: rest =>
    if isBlank c then endOfLine? false rest
    else if c == '#' then endOfLine? true rest
    else none

/-! ## Escapes -/

/-- The character that a letter behind a backslash stands for. -/
def escaped? : Char → Option Char
  | 'b' => some '\x08'
  | 'e' => some '\x1b'
  | 't' => some '\t'
  | 'n' => some '\n'
  | 'f' => some '\x0c'
  | 'r' => some '\r'
  | '"' => some '"'
  | '\\' => some '\\'
  | _ => none

/-- The character with the number written by hexadecimal digits. -/
def codePoint? (digits : List Char) : Option Char :=
  let n := numeral 16 digits
  if digits.all (digitValue · < 16) && (n < 0xD800 || 0xE000 ≤ n && n ≤ 0x10FFFF) then
    some (Char.ofNat n)
  else none

/-- A text with a character in front. -/
def prepend (c : Char) : List Char × List Char → List Char × List Char
  | (text, rest) => (c :: text, rest)

/-! ## Within a line -/

/-- The text up to a double quote. -/
def basic? : List Char → Option (List Char × List Char)
  | [] => none
  | '"' :: rest => some ([], rest)
  | '\\' :: 'x' :: a :: b :: rest => do
    let x ← codePoint? [a, b]
    (basic? rest).map (prepend x)
  | '\\' :: 'u' :: a :: b :: c :: d :: rest => do
    let x ← codePoint? [a, b, c, d]
    (basic? rest).map (prepend x)
  | '\\' :: 'U' :: a :: b :: c :: d :: e :: f :: g :: h :: rest => do
    let x ← codePoint? [a, b, c, d, e, f, g, h]
    (basic? rest).map (prepend x)
  | '\\' :: c :: rest => do
    let x ← escaped? c
    (basic? rest).map (prepend x)
  | c :: rest => if isTextChar c then (basic? rest).map (prepend c) else none

/-- The text up to a single quote. -/
def literal? : List Char → Option (List Char × List Char)
  | [] => none
  | '\'' :: rest => some ([], rest)
  | c :: rest => if isTextChar c then (literal? rest).map (prepend c) else none

/-! ## Over several lines -/

/-- A text without a line break in front. -/
def skipLineBreak : List Char → List Char
  | '\n' :: rest => rest
  | '\r' :: '\n' :: rest => rest
  | text => text

/-- Only blanks stand before the end of the line. -/
def isBlankLine (text : List Char) : Bool :=
  match skipBlanks text with
  | '\n' :: _ => true
  | '\r' :: '\n' :: _ => true
  | _ => false

/-- The text up to three double quotes. Two more of them may belong to the text. A backslash at the
end of a line leaves out all blanks and line breaks that follow; `skipping` tells whether the text
begins with such ones. -/
def multilineBasic? : (skipping : Bool) → List Char → Option (List Char × List Char)
  | _, [] => none
  | true, ' ' :: rest => multilineBasic? true rest
  | true, '\t' :: rest => multilineBasic? true rest
  | true, '\n' :: rest => multilineBasic? true rest
  | true, '\r' :: '\n' :: rest => multilineBasic? true rest
  | _, '"' :: '"' :: '"' :: '"' :: '"' :: rest => some (['"', '"'], rest)
  | _, '"' :: '"' :: '"' :: '"' :: rest => some (['"'], rest)
  | _, '"' :: '"' :: '"' :: rest => some ([], rest)
  | _, '\\' :: 'x' :: a :: b :: rest => do
    let x ← codePoint? [a, b]
    (multilineBasic? false rest).map (prepend x)
  | _, '\\' :: 'u' :: a :: b :: c :: d :: rest => do
    let x ← codePoint? [a, b, c, d]
    (multilineBasic? false rest).map (prepend x)
  | _, '\\' :: 'U' :: a :: b :: c :: d :: e :: f :: g :: h :: rest => do
    let x ← codePoint? [a, b, c, d, e, f, g, h]
    (multilineBasic? false rest).map (prepend x)
  | _, '\\' :: c :: rest =>
    if isBlankLine (c :: rest) then multilineBasic? true (c :: rest)
    else do
      let x ← escaped? c
      (multilineBasic? false rest).map (prepend x)
  | _, '\n' :: rest => (multilineBasic? false rest).map (prepend '\n')
  | _, '\r' :: '\n' :: rest =>
    (multilineBasic? false rest).map fun read => prepend '\r' (prepend '\n' read)
  | _, c :: rest => if isTextChar c then (multilineBasic? false rest).map (prepend c) else none

/-- The text up to three single quotes. Two more of them may belong to the text. -/
def multilineLiteral? : List Char → Option (List Char × List Char)
  | [] => none
  | '\'' :: '\'' :: '\'' :: '\'' :: '\'' :: rest => some (['\'', '\''], rest)
  | '\'' :: '\'' :: '\'' :: '\'' :: rest => some (['\''], rest)
  | '\'' :: '\'' :: '\'' :: rest => some ([], rest)
  | '\n' :: rest => (multilineLiteral? rest).map (prepend '\n')
  | '\r' :: '\n' :: rest =>
    (multilineLiteral? rest).map fun read => prepend '\r' (prepend '\n' read)
  | c :: rest => if isTextChar c then (multilineLiteral? rest).map (prepend c) else none

end SketchSolver.Toml
