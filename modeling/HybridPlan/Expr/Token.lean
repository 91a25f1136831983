import HybridPlan.Expr.Basic
import HybridPlan.Source.Message

set_option autoImplicit false

/-! # Tokens of the expression language

A text is read from left to right. Spaces, tabs and carriage returns separate tokens; every other
character must belong to a token, and a number or a word is as long as the text allows. Each token
keeps the byte range that it covers. -/

namespace HybridPlan

inductive Token where
  | num (magnitude : Decimal.Magnitude)
  | ident (name : String)
  | leftParen
  | rightParen
  | comma
  | op (op : ArithOp)
  | compare (op : Comparison)
  | word (c : Connective)
  deriving DecidableEq

/-- A token with the bytes that it covers, from `start` up to and without `stop`. -/
structure Lexeme where
  token : Token
  start : Nat
  stop : Nat
  deriving DecidableEq

/-! ## Faults -/

/-- What can be expected where something else is found. -/
inductive Expectation where
  | expression
  | closing
  | closingOrComma
  | operatorOrEnd
  deriving DecidableEq, Repr

def Expectation.text : Expectation → String
  | expression => "an expression"
  | closing => "`)`"
  | closingOrComma => "`)` or `,`"
  | operatorOrEnd => "an operator or the end of the expression"

/-- Why a text is no expression. -/
inductive ParseFault where
  | unexpectedCharacter
  | malformedNumber
  /-- A single `=`. -/
  | loneEquals
  | expected (what : Expectation)
  | unexpectedEnd (what : Expectation)
  | chainedComparison
  | unknownFunction
  | wrongArity (f : Func) (given : Nat)
  deriving DecidableEq, Repr

def ParseFault.text : ParseFault → String
  | unexpectedCharacter => "unexpected character"
  | malformedNumber => "malformed number"
  | loneEquals => "expected `==` for an equality"
  | expected what => "expected " ++ what.text
  | unexpectedEnd what => "unexpected end of expression, expected " ++ what.text
  | chainedComparison => "chained comparisons are not supported"
  | unknownFunction => "unknown function"
  | wrongArity f given => s!"`{f.name}` expects {f.arity} argument(s), got {given}"

/-- A fault with the bytes at which it was found. -/
structure ParseError where
  fault : ParseFault
  start : Nat
  stop : Nat
  deriving DecidableEq, Repr

/-- The bytes of the source at which the fault was found. -/
def ParseError.span (source : Source) (e : ParseError) : Span := ⟨source, e.start, e.stop⟩

def ParseError.message (source : Source) (e : ParseError) : Message :=
  .about ⟨source, e.start, e.stop⟩ e.fault.text

/-- The message about the fault, if the fault was found in a range of the source. -/
def ParseError.message? (source : Source) (e : ParseError) : Option Message :=
  Message.about? (e.span source) e.fault.text

/-! ## Lexical classes -/

namespace Token

def isSpace (c : Char) : Bool := c = ' ' || c = '\t' || c = '\r'

def isNumberChar (c : Char) : Bool := c.isDigit || c = '.'

def isWordStart (c : Char) : Bool := c.isAlpha || c = '_'

def isWordChar (c : Char) : Bool := c.isAlphanum || c = '_'

/-- The length of the exponent at the start of a text: `e` or `E`, an optional sign, and at least
one digit. -/
def exponentLength : List Char → Nat
  | [] => 0
  | c :: r =>
    if c = 'e' || c = 'E' then
      let sign := if r.head?.any (fun s => s = '+' || s = '-') then 1 else 0
      let digits := ((r.drop sign).takeWhile Char.isDigit).length
      if digits = 0 then 0 else 1 + sign + digits
    else 0

/-- The length of the longest number at the start of a text. -/
def numberLength (cs : List Char) : Nat :=
  (cs.takeWhile isNumberChar).length + exponentLength (cs.dropWhile isNumberChar)

/-- The token that a word is: a connective or an identifier. -/
def ofWord (w : String) : Token :=
  if w = "and" then word .and else if w = "or" then word .or else ident w

/-- The token that starts with the character `c`, which `r` follows, and the number of characters
that it takes from `r`; or the fault found there and the number of further characters that belong
to it. -/
def first (c : Char) (r : List Char) : Except (ParseFault × Nat) (Token × Nat) :=
  match c with
  | '(' => .ok (leftParen, 0)
  | ')' => .ok (rightParen, 0)
  | ',' => .ok (comma, 0)
  | '+' => .ok (op .add, 0)
  | '-' => .ok (op .sub, 0)
  | '/' => .ok (op .div, 0)
  | '^' => .ok (op .pow, 0)
  | '*' => .ok (if r.head? = some '*' then (op .pow, 1) else (op .mul, 0))
  | '<' => .ok (if r.head? = some '=' then (compare .le, 1) else (compare .lt, 0))
  | '>' => .ok (if r.head? = some '=' then (compare .ge, 1) else (compare .gt, 0))
  | '=' => if r.head? = some '=' then .ok (compare .eq, 1) else .error (.loneEquals, 0)
  | c =>
    if isNumberChar c then
      let n := numberLength (c :: r)
      match Decimal.readDecimal? ((c :: r).take n) with
      | some m => .ok (num m, n - 1)
      | none => .error (.malformedNumber, n - 1)
    else if isWordStart c then
      let w := r.takeWhile isWordChar
      .ok (ofWord (String.ofList (c :: w)), w.length)
    else .error (.unexpectedCharacter, 0)

end Token

/-- The tokens of a text that starts at the given byte. -/
def Lexeme.scan (start : Nat) : List Char → Except ParseError (List Lexeme)
  | [] => .ok []
  | c :: r =>
    if Token.isSpace c then scan (start + 1) r
    else match Token.first c r with
      | .ok (token, n) => do
        let stop := start + c.utf8Size + Text.byteSize (r.take n)
        let rest ← scan stop (r.drop n)
        return ⟨token, start, stop⟩ :: rest
      | .error (fault, n) =>
        .error ⟨fault, start, start + c.utf8Size + Text.byteSize (r.take n)⟩
termination_by cs => cs.length
decreasing_by
  · exact Nat.lt_succ_self _
  · rw [List.length_drop]
    exact Nat.lt_succ_of_le (Nat.sub_le _ _)

end HybridPlan
