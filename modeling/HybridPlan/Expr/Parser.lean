import HybridPlan.Expr.Arena
import HybridPlan.Expr.Token

set_option autoImplicit false

/-! # Parsing of expressions

The grammar, loosest level first:

    disjunction := conjunction ("or" conjunction)*
    conjunction := comparison ("and" comparison)*
    comparison  := sum (("<" | "<=" | ">" | ">=" | "==") sum)?
    sum         := product (("+" | "-") product)*
    product     := unary (("*" | "/") unary)*
    unary       := ("-" | "+") unary | power
    power       := atom (("**" | "^") unary)?
    atom        := NUMBER | IDENT | IDENT "(" disjunction ("," disjunction)* ")"
                 | "(" disjunction ")"

A power binds more tightly than a sign before it and associates to the right; sums and products
associate to the left; a comparison cannot be compared again. The expression is built while the
text is read, so a text that is refused has added to the arena what was complete before the
fault. -/

namespace HybridPlan

/-- The arena being filled and the tokens that are left. -/
structure ParserState (α : Type) [Scalar α] where
  arena : Arena α
  rest : List Lexeme

abbrev Parser (α : Type) [Scalar α] := ExceptT ParseError (StateM (ParserState α))

/-- A level of the grammar. -/
inductive Level where
  | disjunction
  | conjunction
  | comparison
  | sum
  | product
  | unary
  | power
  | atom
  deriving DecidableEq

/-- The number of levels. -/
def Level.count : Nat := 8

/-- The byte range of the text that is parsed. -/
structure ParserInput where
  source : Source
  start : Nat
  stop : Nat

namespace Parser

variable {α : Type} [Scalar α]

def build {ι : Type} (b : Build α ι) : Parser α ι :=
  (modifyGet fun ⟨arena, rest⟩ =>
    let (i, arena) := b.run arena
    (i, ⟨arena, rest⟩) : StateM (ParserState α) ι)

/-- The next token. -/
def peek? : Parser α (Option Token) := return (← get).rest.head?.map (·.token)

/-- Skips the next token. -/
def advance : Parser α Unit := modify fun ⟨arena, rest⟩ => ⟨arena, rest.tail⟩

/-- Refuses the text at a token. -/
def failAt {ι : Type} (l : Lexeme) (fault : ParseFault) : Parser α ι :=
  throw ⟨fault, l.start, l.stop⟩

/-- The last byte of the input: where its end is reported. -/
def lastByte (input : ParserInput) : Nat := max input.stop (input.start + 1) - 1

/-- Refuses the text at the next token, or at its end. -/
def unexpected {ι : Type} (input : ParserInput) (what : Expectation) : Parser α ι := do
  match (← get).rest with
  | l :: _ => failAt l (.expected what)
  | [] => throw ⟨.unexpectedEnd what, lastByte input, lastByte input + 1⟩

/-- Skips the given token, which must come next. -/
def expect (input : ParserInput) (t : Token) (what : Expectation) : Parser α Unit := do
  if (← peek?) = some t then advance else unexpected input what

/-- Further items, each after a separator; at most `n` of them. -/
def more (separator : Token) (item : Parser α ExprId) : Nat → Parser α (List ExprId)
  | 0 => return []
  | n + 1 => do
    if (← peek?) = some separator then
      advance
      let x ← item
      return x :: (← more separator item n)
    else return []

/-- One or more items with separators between them. -/
def separated (separator : Token) (item : Parser α ExprId) : Parser α (List ExprId) := do
  let x ← item
  return x :: (← more separator item (← get).rest.length)

/-- Further operands of left-associative operators, each combined with what precedes it; at most
`n` of them. -/
def chain (ops : List ArithOp) (item : Parser α ExprId) : Nat → ExprId → Parser α ExprId
  | 0, x => return x
  | n + 1, x => do
    match ← peek? with
    | some (.op op) =>
      if ops.contains op then
        advance
        let y ← item
        let z ← build (Build.arith op x y)
        chain ops item n z
      else return x
    | _ => return x

/-- Operands with left-associative operators between them. -/
def leftAssociative (ops : List ArithOp) (item : Parser α ExprId) : Parser α ExprId := do
  let x ← item
  chain ops item (← get).rest.length x

/-- An atom, given how to parse a disjunction. -/
def atom (input : ParserInput) (disjunction : Parser α ExprId) : Parser α ExprId := do
  match (← get).rest with
  | [] => unexpected input .expression
  | l :: _ =>
    match l.token with
    | .num m => do
      advance
      build (Build.num (Scalar.ofNumeral ⟨false, m⟩))
    | .leftParen => do
      advance
      let e ← disjunction
      expect input .rightParen .closing
      return e
    | .ident name => do
      advance
      if (← peek?) = some .leftParen then
        match Func.ofName? name with
        | none => failAt l .unknownFunction
        | some f => do
          advance
          let args ← separated .comma disjunction
          expect input .rightParen .closingOrComma
          if args.length = f.arity then build (Build.call f args)
          else failAt l (.wrongArity f args.length)
      else build (Build.sym ⟨name, some ⟨input.source, l.start, l.stop⟩⟩)
    | _ => unexpected input .expression

/-- Parses the given level, calling at most `depth` levels below it. -/
def level (input : ParserInput) : Nat → Level → Parser α ExprId
  | 0, _ => unexpected input .expression
  | depth + 1, .disjunction => do
    let items ← separated (.word .or) (level input depth .conjunction)
    build (Build.join .or items)
  | depth + 1, .conjunction => do
    let items ← separated (.word .and) (level input depth .comparison)
    build (Build.join .and items)
  | depth + 1, .comparison => do
    let x ← level input depth .sum
    match ← peek? with
    | some (.compare op) => do
      advance
      let y ← level input depth .sum
      match (← get).rest with
      | ⟨.compare _, start, stop⟩ :: _ => throw ⟨.chainedComparison, start, stop⟩
      | _ => build (Build.compare op x y)
    | _ => return x
  | depth + 1, .sum => leftAssociative [.add, .sub] (level input depth .product)
  | depth + 1, .product => leftAssociative [.mul, .div] (level input depth .unary)
  | depth + 1, .unary => do
    match ← peek? with
    | some (.op .sub) => do
      advance
      let x ← level input depth .unary
      build (Build.neg x)
    | some (.op .add) => do
      advance
      level input depth .unary
    | _ => level input depth .power
  | depth + 1, .power => do
    let x ← level input depth .atom
    if (← peek?) = some (.op .pow) then
      advance
      let y ← level input depth .unary
      build (Build.pow x y)
    else return x
  | depth + 1, .atom => atom input (level input depth .disjunction)

/-- Parses a whole text. Every token can be followed by one descent through all levels. -/
def whole (input : ParserInput) : Parser α ExprId := do
  let depth := Level.count * ((← get).rest.length + 1)
  let e ← level input depth .disjunction
  if (← get).rest.isEmpty then return e else unexpected input .operatorOrEnd

end Parser

namespace Build

variable {α : Type} [Scalar α]

/-- Runs a parser on tokens. -/
def parseTokens (p : Parser α ExprId) (tokens : List Lexeme) : Attempt α ParseError ExprId :=
  ExceptT.mk <| modifyGet fun arena =>
    let (r, s) := p.run.run ⟨arena, tokens⟩
    (r, s.arena)

/-- Adds the expression written in a byte range of a source. -/
def parseRange (source : Source) (start stop : Nat) : Attempt α ParseError ExprId := do
  let text := Text.slice source.text.toList start stop
  let tokens ← (Lexeme.scan start text : Except ParseError (List Lexeme))
  parseTokens (Parser.whole ⟨source, start, stop⟩) tokens

/-- Adds the expression that a text writes. -/
def parse (text : String) : Attempt α ParseError ExprId :=
  parseRange ⟨text, none⟩ 0 text.utf8ByteSize

end Build

end HybridPlan
