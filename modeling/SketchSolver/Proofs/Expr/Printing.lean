import SketchSolver.Expr.Printer
import SketchSolver.Proofs.Decimal.Doubles

/-!
# Telling expressions apart by their texts

The text of an expression can be read back in one way only (`Expr.text_unambiguous`), if numbers
are legible (`IsLegible`), as doubles are (`isLegible_text`).

What stands in front of the first blank or parenthesis of a text, if anything, is a parameter, a
number or the name of an operation, and the texts of two expressions are the same only if these
words are (`Expr.write_inj_firstWord`). Squares, negations and operations of two operands have no
such word. They are told by what follows their first operand (`Expr.write_inj`), except that the
minus of a negation might be taken for the sign of a number. Then what follows that number would
follow the operand of the negation (`Expr.eq_of_minus`), and nothing but a parenthesis does.
-/

namespace SketchSolver

/-! ## Words -/

/-- A run of characters of a kind goes no further than to the beginning of the text. -/
def Stops (p : Char → Bool) (rest : List Char) : Prop :=
  ∀ c ∈ rest.head?, p c = false

/-- A run stops at a character of another kind. -/
theorem stops_cons {p : Char → Bool} {c : Char} {rest : List Char} (hc : p c = false) :
    Stops p (c :: rest) := by
  intro d hd
  obtain rfl := Option.some.inj hd
  exact hc

/-- A run that stops where the next text begins is all that is taken. -/
theorem takeWhile_append_of_stops {p : Char → Bool} {w r : List Char}
    (hw : ∀ c ∈ w, p c = true) (hr : Stops p r) : (w ++ r).takeWhile p = w := by
  have hnil : r.takeWhile p = [] := by
    cases r with
    | nil => rfl
    | cons c r => exact List.takeWhile_cons_of_neg (by simp [hr c rfl])
  rw [List.takeWhile_append_of_pos hw, hnil, List.append_nil]

/-- Where a run of characters of a kind ends can be seen in the text. -/
theorem append_inj_of_stops {p : Char → Bool} {v w r s : List Char} (hv : ∀ c ∈ v, p c = true)
    (hw : ∀ c ∈ w, p c = true) (hr : Stops p r) (hs : Stops p s) (h : v ++ r = w ++ s) :
    v = w ∧ r = s := by
  have heq : v = w := by
    rw [← takeWhile_append_of_stops hv hr, h, takeWhile_append_of_stops hw hs]
  exact ⟨heq, List.append_cancel_left (heq ▸ h)⟩

/-- The character is neither a blank nor a parenthesis. -/
def isWordChar (c : Char) : Bool :=
  c != ' ' && c != '(' && c != ')'

/-! ## Digits -/

/-- The digits of a number are its digits to the base of ten. -/
theorem digits_eq_toDigits (n : Nat) : digits n = Nat.toDigits 10 n := by
  rw [digits, Nat.toString_eq_ofList_toDigits, String.toList_ofList]

/-- The text of a natural number consists of digits. -/
theorem isDigit_of_mem_digits {n : Nat} {c : Char} (hc : c ∈ digits n) : c.isDigit = true :=
  Nat.isDigit_of_mem_toDigits (by decide) (by decide) (digits_eq_toDigits n ▸ hc)

/-- Natural numbers are told by their digits. -/
theorem digits_injective {m n : Nat} (h : digits m = digits n) : m = n := by
  rw [digits_eq_toDigits, digits_eq_toDigits] at h
  rw [← @Nat.ofDigitChars_ten_toDigits m, h, Nat.ofDigitChars_ten_toDigits]

/-- The end of the digits of a number can be seen in the text. -/
theorem digits_append_inj {m n : Nat} {r s : List Char} (hr : Stops Char.isDigit r)
    (hs : Stops Char.isDigit s) (h : digits m ++ r = digits n ++ s) :
    digits m = digits n ∧ r = s :=
  append_inj_of_stops (fun _ => isDigit_of_mem_digits) (fun _ => isDigit_of_mem_digits) hr hs h

/-- A parameter is told by the number of its handle. -/
theorem eq_of_digits {g g' : ParamHandle} (h : digits g.number.toNat = digits g'.number.toNat) :
    g = g' := by
  obtain ⟨n⟩ := g
  obtain ⟨n'⟩ := g'
  exact congrArg ParamHandle.mk (UInt32.toNat_inj.1 (digits_injective h))

/-- A digit is part of a word. -/
theorem isWordChar_of_isDigit {c : Char} (hc : c.isDigit = true) : isWordChar c = true := by
  simp only [isWordChar, Bool.and_eq_true, bne_iff_ne]
  refine ⟨⟨?_, ?_⟩, ?_⟩ <;> rintro rfl <;> cases hc

/-! ## Numbers -/

/-- What is asked of the text of a number: it is a word, it begins as no parameter and no operation
does, and numbers that differ have texts that differ, unless both are undefined. -/
structure IsLegible [Scalar α] (number : α → List Char) : Prop where
  word (x : α) : ∀ c ∈ number x, c ≠ ' ' ∧ c ≠ '(' ∧ c ≠ ')'
  head (x : α) : ∃ c ∈ (number x).head?, c.isDigit = true ∨ c = '-' ∨ c = 'N' ∨ c = 'i'
  injective (x y : α) : number x = number y →
    x = y ∨ Scalar.isUndefined x = true ∧ Scalar.isUndefined y = true

/-- Doubles are legible. -/
theorem isLegible_text : IsLegible Decimal.text where
  word x c hc := by
    rcases Decimal.isDigit_or_of_mem_text hc with hdigit | hmem
    · refine ⟨?_, ?_, ?_⟩ <;> rintro rfl <;> cases hdigit
    · refine ⟨?_, ?_, ?_⟩ <;> rintro rfl <;> revert hmem <;> decide
  head := Decimal.head_text
  injective _ _ h := .inl (Decimal.text_injective h)

/-! ## Texts of expressions -/

/-- Operations are told by their first words, but for the negation and the square. -/
theorem UnaryOp.eq_or_of_firstWord {op op' : UnaryOp}
    (h : op.opening.takeWhile isWordChar = op'.opening.takeWhile isWordChar) :
    op = op' ∨ op = .neg ∧ op' = .square ∨ op = .square ∧ op' = .neg := by
  cases op <;> cases op' <;> revert h <;> decide

/-- The negation and the square begin with their parentheses. -/
theorem UnaryOp.eq_neg_or_square {op : UnaryOp} (h : op.opening.takeWhile isWordChar = []) :
    op = .neg ∨ op = .square := by
  cases op <;> revert h <;> decide

/-- Operations of two operands are told by their signs. -/
theorem BinaryOp.sign_append_inj {op op' : BinaryOp} {r s : List Char}
    (h : op.sign ++ r = op'.sign ++ s) : op = op' ∧ r = s := by
  revert h
  cases op <;> cases op' <;> simp [sign]

/-- What follows the left operand of an operation does not follow the operand of an operation of
one. -/
theorem BinaryOp.sign_append_ne (op : BinaryOp) (op' : UnaryOp) (r s : List Char) :
    op.sign ++ r ≠ op'.closing ++ s := by
  cases op <;> cases op' <;> exact nofun

namespace Expr

/-- One tree, but for its constants, of which those at one place are related. -/
inductive Matches (same : α → α → Prop) : Expr α → Expr α → Prop where
  | param (h : ParamHandle) : Matches same (.param h) (.param h)
  | slot (h : ParamHandle) (position : Nat) : Matches same (.slot h position) (.slot h position)
  | const {x y : α} (hxy : same x y) : Matches same (.const x) (.const y)
  | unary (op : UnaryOp) {e e' : Expr α} (he : Matches same e e') :
      Matches same (.unary op e) (.unary op e')
  | binary (op : BinaryOp) {l r l' r' : Expr α} (hl : Matches same l l')
      (hr : Matches same r r') : Matches same (.binary op l r) (.binary op l' r')

/-- Trees that match up to a relation of their constants match up to a coarser one. -/
theorem Matches.mono {same same' : α → α → Prop} (hsame : ∀ x y, same x y → same' x y)
    {a b : Expr α} (h : a.Matches same b) : a.Matches same' b := by
  induction h with
  | param h => exact .param h
  | slot h position => exact .slot h position
  | const hxy => exact .const (hsame _ _ hxy)
  | unary op _ ih => exact .unary op ih
  | binary op _ _ ihl ihr => exact .binary op ihl ihr

/-- What the text of an expression has in front of the first blank or parenthesis. -/
def firstWord (number : α → List Char) : Expr α → List Char
  | .param h => 'p' :: digits h.number.toNat
  | .slot h position => 'p' :: (digits h.number.toNat ++ '@' :: digits position)
  | .const c => number c
  | .unary op _ => op.opening.takeWhile isWordChar
  | .binary .. => []

/-- What follows the first word of an expression with `rest` behind it. -/
def afterWord (number : α → List Char) : Expr α → (rest : List Char) → List Char
  | .param _, rest | .slot .., rest | .const _, rest => rest
  | .unary op e, rest => op.opening.dropWhile isWordChar ++ e.write number (op.closing ++ rest)
  | .binary op l r, rest => '(' :: l.write number (op.sign ++ r.write number (')' :: rest))

/-- A text that may follow an operand: it is empty, or goes on with a blank or a closing
parenthesis. -/
def FollowsOperand (rest : List Char) : Prop :=
  ∀ c ∈ rest.head?, c = ' ' ∨ c = ')'

/-- An operand may end the text. -/
theorem followsOperand_nil : FollowsOperand [] := by
  intro c hc
  cases hc

/-- The sign of an operation may follow its left operand. -/
theorem followsOperand_sign (op : BinaryOp) (rest : List Char) :
    FollowsOperand (op.sign ++ rest) := by
  intro c hc
  cases op <;> exact .inl (Option.some.inj hc).symm

/-- What closes an operation may follow its operand. -/
theorem followsOperand_closing (op : UnaryOp) (rest : List Char) :
    FollowsOperand (op.closing ++ rest) := by
  intro c hc
  cases op <;> exact .inr (Option.some.inj hc).symm

/-- What follows an operand does not make a square of a negation. -/
theorem FollowsOperand.square_closing_ne {r : List Char} (hr : FollowsOperand r) (s : List Char) :
    UnaryOp.square.closing ++ s ≠ UnaryOp.neg.closing ++ r := by
  intro h
  obtain rfl := (List.cons.inj h).2
  rcases hr '^' rfl with hc | hc <;> cases hc

/-- A word stops where an operand does. -/
theorem FollowsOperand.stops {rest : List Char} (h : FollowsOperand rest) :
    Stops isWordChar rest := by
  intro c hc
  rcases h c hc with rfl | rfl <;> rfl

section
variable {number : α → List Char} {a b e : Expr α} {r s : List Char}

/-- The text of an expression is its first word and what follows this word. -/
theorem write_eq (e : Expr α) (rest : List Char) :
    e.write number rest = e.firstWord number ++ e.afterWord number rest := by
  cases e with
  | param _ | slot _ _ | const _ | binary _ _ _ => simp [write, firstWord, afterWord]
  | unary op e =>
    rw [firstWord, afterWord, ← List.append_assoc, List.takeWhile_append_dropWhile, write]

variable (number) in
/-- Behind the first word an operation goes on with its opening parenthesis. -/
theorem afterWord_cases (e : Expr α) (rest : List Char) :
    e.operands = [] ∧ e.afterWord number rest = rest ∨
      e.operands ≠ [] ∧ ∃ t, e.afterWord number rest = '(' :: t := by
  cases e with
  | param _ | slot _ _ | const _ => exact .inl ⟨rfl, rfl⟩
  | unary op e => cases op <;> exact .inr ⟨nofun, _, rfl⟩
  | binary op l r => exact .inr ⟨nofun, _, rfl⟩

/-- The first word of an expression stops where the rest of its text begins. -/
theorem stops_afterWord (hr : FollowsOperand r) :
    Stops isWordChar (e.afterWord number r) := by
  rcases e.afterWord_cases number r with ⟨_, heq⟩ | ⟨_, t, heq⟩ <;> rw [heq]
  · exact hr.stops
  · exact stops_cons rfl

/-- What follows an operand is no opening parenthesis. -/
theorem FollowsOperand.operands_eq_nil (hr : FollowsOperand r) (h : e.afterWord number s = r) :
    e.operands = [] ∧ r = s := by
  rcases e.afterWord_cases number s with ⟨he, heq⟩ | ⟨_, t, heq⟩
  · exact ⟨he, h.symm.trans heq⟩
  · rcases hr '(' (by rw [← h, heq]; rfl) with hc | hc <;> cases hc

variable [Scalar α] (hnumber : IsLegible number)
include hnumber

/-- The first word of an expression has neither blanks nor parentheses in it. -/
theorem isWordChar_of_mem_firstWord {c : Char} (hc : c ∈ e.firstWord number) :
    isWordChar c = true := by
  cases e with
  | param h =>
    rcases List.mem_cons.1 hc with rfl | hc
    · rfl
    · exact isWordChar_of_isDigit (isDigit_of_mem_digits hc)
  | slot h position =>
    rcases List.mem_cons.1 hc with rfl | hc
    · rfl
    · rcases List.mem_append.1 hc with hc | hc
      · exact isWordChar_of_isDigit (isDigit_of_mem_digits hc)
      · rcases List.mem_cons.1 hc with rfl | hc
        · rfl
        · exact isWordChar_of_isDigit (isDigit_of_mem_digits hc)
  | const x => simpa [isWordChar, and_assoc] using hnumber.word x c hc
  | unary op e => exact List.all_eq_true.1 List.all_takeWhile c hc
  | binary op l r => cases hc

/-- Texts of two expressions with something behind them are the same only if they have the same
first word, and the same behind it. -/
theorem write_inj_firstWord (hr : FollowsOperand r) (hs : FollowsOperand s)
    (h : a.write number r = b.write number s) :
    a.firstWord number = b.firstWord number ∧ a.afterWord number r = b.afterWord number s := by
  rw [write_eq, write_eq b] at h
  exact append_inj_of_stops (fun c => isWordChar_of_mem_firstWord hnumber)
    (fun c => isWordChar_of_mem_firstWord hnumber) (stops_afterWord hr) (stops_afterWord hs) h

/-- The text of a number is not that of a parameter. -/
theorem number_ne_cons_p (x : α) (w : List Char) : number x ≠ 'p' :: w := by
  intro h
  obtain ⟨c, hc, hstart⟩ := hnumber.head x
  rw [h] at hc
  obtain rfl := Option.some.inj hc
  revert hstart
  decide

/-- What is no operation is told by its text, a number as far as numbers are told by theirs. -/
theorem matches_of_firstWord (ha : a.operands = []) (hb : b.operands = [])
    (h : a.firstWord number = b.firstWord number) :
    a.Matches (fun x y => number x = number y) b := by
  cases a with
  | param g =>
    cases b with
    | param g' =>
      obtain rfl := eq_of_digits (List.cons.inj h).2
      exact .param g
    | slot g' position' =>
      exact nomatch (digits_append_inj (r := []) nofun (stops_cons rfl)
        ((List.append_nil _).trans (List.cons.inj h).2)).2
    | const y => exact absurd h.symm (number_ne_cons_p hnumber y _)
    | unary _ _ | binary _ _ _ => cases hb
  | slot g position =>
    cases b with
    | param g' =>
      exact nomatch (digits_append_inj (s := []) (stops_cons rfl) nofun
        ((List.cons.inj h).2.trans (List.append_nil _).symm)).2
    | slot g' position' =>
      obtain ⟨hg, hposition⟩ :=
        digits_append_inj (stops_cons rfl) (stops_cons rfl) (List.cons.inj h).2
      obtain rfl := eq_of_digits hg
      obtain rfl := digits_injective (List.cons.inj hposition).2
      exact .slot g position
    | const y => exact absurd h.symm (number_ne_cons_p hnumber y _)
    | unary _ _ | binary _ _ _ => cases hb
  | const x =>
    cases b with
    | param _ | slot _ _ => exact absurd h (number_ne_cons_p hnumber x _)
    | const y => exact .const h
    | unary _ _ | binary _ _ _ => cases hb
  | unary _ _ | binary _ _ _ => cases ha

/-! ## Reading a text back -/

/-- A minus in front of an operand is read as the sign of a number only if what follows the operand
follows the number. -/
theorem eq_of_minus (hr : FollowsOperand r) (hs : FollowsOperand s)
    (h : '-' :: e.write number r = b.write number s) : r = s := by
  have hstart : ('-' :: e.firstWord number) ++ e.afterWord number r =
      b.firstWord number ++ b.afterWord number s := by
    rw [← write_eq, ← h, write_eq e r, List.cons_append]
  have hword : ∀ c ∈ '-' :: e.firstWord number, isWordChar c = true :=
    List.forall_mem_cons.2 ⟨rfl, fun c => isWordChar_of_mem_firstWord hnumber⟩
  obtain ⟨hfirst, hafter⟩ := append_inj_of_stops hword
    (fun c => isWordChar_of_mem_firstWord hnumber) (stops_afterWord hr) (stops_afterWord hs) hstart
  cases b with
  | const x => exact (hs.operands_eq_nil hafter).2.symm
  | unary op _ => cases op <;> cases hfirst
  | param _ | slot _ _ | binary _ _ _ => cases hfirst

/-- A negation is not read as an operation whose first operand has a minus in front, since what
stands behind the operands is not the same. -/
theorem afterWord_neg_ne (hs : FollowsOperand s) (hne : s ≠ UnaryOp.neg.closing ++ r) :
    (Expr.unary .neg e).afterWord number r ≠ '(' :: b.write number s := by
  intro h
  exact hne (eq_of_minus hnumber (followsOperand_closing .neg r) hs (List.cons.inj h).2).symm

/-- An expression is told by its text where that ends or goes on as behind an operand, and so is
what goes on. The induction is on one of the expressions, for anything behind it. -/
theorem write_inj (hr : FollowsOperand r) (hs : FollowsOperand s)
    (h : a.write number r = b.write number s) :
    a.Matches (fun x y => number x = number y) b ∧ r = s := by
  induction a generalizing b r s with
  | param _ | slot _ _ | const _ =>
    obtain ⟨hfirst, hafter⟩ := write_inj_firstWord hnumber hr hs h
    obtain ⟨hb, heq⟩ := hr.operands_eq_nil hafter.symm
    exact ⟨matches_of_firstWord hnumber rfl hb hfirst, heq⟩
  | unary op e ih =>
    obtain ⟨hfirst, hafter⟩ := write_inj_firstWord hnumber hr hs h
    cases b with
    | param _ | slot _ _ | const _ => exact nomatch (hs.operands_eq_nil hafter).1
    | unary op' e' =>
      rcases UnaryOp.eq_or_of_firstWord hfirst with rfl | ⟨rfl, rfl⟩ | ⟨rfl, rfl⟩
      · obtain ⟨he, hclosing⟩ := ih (followsOperand_closing op r) (followsOperand_closing op s)
          (List.append_cancel_left hafter)
        exact ⟨.unary op he, List.append_cancel_left hclosing⟩
      · exact absurd hafter (afterWord_neg_ne hnumber (followsOperand_closing .square s)
          (hr.square_closing_ne s))
      · exact absurd hafter.symm (afterWord_neg_ne hnumber (followsOperand_closing .square r)
          (hs.square_closing_ne r))
    | binary op' l' m' =>
      have hsign := followsOperand_sign op' (m'.write number (')' :: s))
      rcases UnaryOp.eq_neg_or_square hfirst with rfl | rfl
      · exact absurd hafter (afterWord_neg_ne hnumber hsign (op'.sign_append_ne _ _ _))
      · have hrest := (ih (followsOperand_closing .square r) hsign (List.cons.inj hafter).2).2
        exact absurd hrest.symm (op'.sign_append_ne _ _ _)
  | binary op l m ihl ihm =>
    obtain ⟨hfirst, hafter⟩ := write_inj_firstWord hnumber hr hs h
    have hsign := followsOperand_sign op (m.write number (')' :: r))
    cases b with
    | param _ | slot _ _ | const _ => exact nomatch (hs.operands_eq_nil hafter).1
    | unary op' e' =>
      rcases UnaryOp.eq_neg_or_square hfirst.symm with rfl | rfl
      · exact absurd hafter.symm (afterWord_neg_ne hnumber hsign (op.sign_append_ne _ _ _))
      · have hrest := (ihl hsign (followsOperand_closing .square s) (List.cons.inj hafter).2).2
        exact absurd hrest (op.sign_append_ne _ _ _)
    | binary op' l' m' =>
      obtain ⟨hl, hbehind⟩ := ihl hsign (followsOperand_sign op' _) (List.cons.inj hafter).2
      obtain ⟨rfl, hsecond⟩ := BinaryOp.sign_append_inj hbehind
      obtain ⟨hm, hend⟩ :=
        ihm (followsOperand_closing .neg r) (followsOperand_closing .neg s) hsecond
      exact ⟨.binary op hl hm, (List.cons.inj hend).2⟩

end

/-- Expressions whose texts are the same are the same tree, where undefined constants count as the
same. -/
theorem text_unambiguous [Scalar α] {number : α → List Char} (hnumber : IsLegible number)
    {a b : Expr α} (h : a.text number = b.text number) :
    a.Matches (fun x y => x = y ∨ Scalar.isUndefined x = true ∧ Scalar.isUndefined y = true) b := by
  have hwrite : a.write number [] = b.write number [] := String.ofList_injective h
  exact (write_inj hnumber followsOperand_nil followsOperand_nil hwrite).1.mono
    fun x y => hnumber.injective x y

/-- A quotient and a root that are undefined have one text, and so have expressions that differ in
these only. -/
theorem text_unambiguous_undefined :
    let a : Expr Float := .unary .square (.binary .sub (.const (0 / 0)) (.const (-5)))
    let b : Expr Float := .unary .square (.binary .sub (.const (Float.sqrt (-1))) (.const (-5)))
    a.text Decimal.text = "((NaN - -5))^2" ∧ b.text Decimal.text = "((NaN - -5))^2" ∧ a.Matches
      (fun x y => x = y ∨ Scalar.isUndefined x = true ∧ Scalar.isUndefined y = true) b := by
  intro a b
  have ha : a.text Decimal.text = "((NaN - -5))^2" := by decide +kernel
  have hb : b.text Decimal.text = "((NaN - -5))^2" := by decide +kernel
  exact ⟨ha, hb, text_unambiguous isLegible_text (ha.trans hb.symm)⟩

end Expr

end SketchSolver
