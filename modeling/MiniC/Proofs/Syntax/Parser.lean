import MiniC.Proofs.Syntax.Tree

/-!
# From lexemes to trees

A parser reads the lexemes of a source and builds its tree. It looks at nothing but tokens: whether
a name is bound, what type an operand has and whether a region is full is not its business. Nesting
is bounded as it is for compilation.
-/

namespace MiniC.Syntax

/-- The token that is looked at and the lexemes behind it. -/
structure Stream where
  current : Token
  rest : List Lexeme

abbrev Parser := StateT Stream Option

namespace Parser

section Steps

variable {α β : Type} (st : Stream)

@[simp] theorem bind_apply (x : Parser α) (f : α → Parser β) :
    (x >>= f) st = (x st).bind fun p => f p.1 p.2 := rfl

@[simp] theorem map_apply (f : α → β) (x : Parser α) :
    (f <$> x) st = (x st).map fun p => (f p.1, p.2) := by
  show (x st).bind _ = _
  cases x st <;> rfl

@[simp] theorem pure_apply (a : α) : (pure a : Parser α) st = some (a, st) := rfl

@[simp] theorem failure_apply : (failure : Parser α) st = none := rfl

end Steps

def current : Parser Token := fun st => some (st.current, st)

@[simp] theorem current_apply (st : Stream) : current st = some (st.current, st) := rfl

/-- Moves to the next token. At the end there is nothing to move to. -/
def advance : Parser Unit := fun st =>
  match st.rest with
  | [] => some ((), st)
  | lexeme :: rest =>
    match lexeme.token with
    | .ok token => some ((), ⟨token, rest⟩)
    | .error _ => none

def expect (token : Token) : Parser Unit := do
  if (← current) = token then advance else failure

def skipOver (token : Token) : Parser Unit := do
  if (← current) = token then advance

def loop {α : Type} (more : Token → Bool) (body : α → Parser α) : Nat → α → Parser α
  | 0, a => pure a
  | fuel + 1, a => do
    if more (← current) then loop more body fuel (← body a) else pure a

/-- Runs `body` while the current token is one that `more` accepts. -/
def whileToken {α : Type} (more : Token → Bool) (body : α → Parser α) (a : α) : Parser α :=
  fun st => loop more body (st.rest.length + 1) a st

/-- Collects what `item` yields while the current token is one that `more` accepts. -/
def collect {α : Type} (more : Token → Bool) (item : Parser α) : Parser (List α) :=
  whileToken more (fun items => do return items ++ [← item]) []

/-! ## Types -/

def baseType? : Parser (Option CType) := do
  match ← current with
  | .keyword .intKw => do
    advance
    return some .int
  | .keyword .charKw => do
    advance
    return some .char
  | _ => return none

def baseType : Parser CType := do return (← baseType?).getD .int

def pointerLevels (type : CType) : Parser CType :=
  whileToken (· = .binary .mul) (fun type => do advance; return type.pointerTo) type

/-! ## Expressions -/

/-- The operator that is the current token, behind the operand `left`. -/
def operator (sub : Prec → Parser Expr) (left : Expr) : Parser Expr := do
  let token ← current
  advance
  match token with
  | .assign => return .assign left (← sub .assign)
  | .question => do
    let yes ← sub .assign
    expect .colon
    return .cond left yes (← sub .cond)
  | .orElse => return .shortCircuit .ifNonzero left (← sub Prec.orElse.tighter)
  | .andAlso => return .shortCircuit .ifZero left (← sub Prec.andAlso.tighter)
  | .binary op => return .binary op left (← sub op.prec.tighter)
  | .increment => return .postStep .add .sub left
  | .decrement => return .postStep .sub .add left
  | .leftBracket => do
    let position ← sub .assign
    expect .rightBracket
    return .index left position
  | _ => failure

def isText : Token → Bool
  | .string _ => true
  | _ => false

/-- One string literal behind those already read. -/
def literal (read : List UInt8) : Parser (List UInt8) := do
  match ← current with
  | .string bytes => do
    advance
    return read ++ bytes
  | _ => do
    advance
    return read

/-- Adjacent string literals. -/
def text : Parser Expr := do
  return .text (← whileToken isText literal [])

def sizeOf : Parser Expr := do
  advance
  expect .leftParen
  let type ← pointerLevels (← baseType)
  expect .rightParen
  return .sizeOf type

/-- One argument of a call. -/
def argument (sub : Prec → Parser Expr) : Parser Expr := do
  let arg ← sub .assign
  skipOver .comma
  return arg

def call (sub : Prec → Parser Expr) (id : SymbolId) : Parser Expr := do
  advance
  let args ← collect (· ≠ .rightParen) (argument sub)
  advance
  return .call id args

def parenthesised (sub : Prec → Parser Expr) : Parser Expr := do
  advance
  match ← baseType? with
  | some base => do
    let type ← pointerLevels base
    expect .rightParen
    return .cast type (← sub .primary)
  | none => do
    let inner ← sub .assign
    expect .rightParen
    return .paren inner

/-- An operator in front of an operand. -/
def inFront (sub : Prec → Parser Expr) (build : Expr → Expr) : Parser Expr := do
  advance
  return build (← sub .primary)

def negation (sub : Prec → Parser Expr) : Parser Expr := do
  advance
  match ← current with
  | .number n => do
    advance
    return .negative n
  | _ => return .negate (← sub .primary)

def unary (sub : Prec → Parser Expr) : Parser Expr := do
  match ← current with
  | .number n => do
    advance
    return .number n
  | .string _ => text
  | .keyword .sizeofKw => sizeOf
  | .ident id => do
    advance
    if (← current) = .leftParen then call sub id else return .name id
  | .leftParen => parenthesised sub
  | .binary .mul => inFront sub .deref
  | .binary .and => inFront sub .addressOf
  | .bang => inFront sub (.withConstant .eq 0)
  | .tilde => inFront sub (.withConstant .xor (-1))
  | .binary .add => inFront sub .plus
  | .binary .sub => negation sub
  | .increment => inFront sub (.preStep .add)
  | .decrement => inFront sub (.preStep .sub)
  | _ => failure

def expr : Nat → Prec → Parser Expr
  | 0, _ => failure
  | levels + 1, prec => do
    let first ← unary (expr levels)
    whileToken (fun token => prec ≤ token.prec) (operator (expr levels)) first

/-! ## Statements -/

def condition (sub : Prec → Parser Expr) : Parser Expr := do
  expect .leftParen
  let test ← sub .assign
  expect .rightParen
  return test

def ifStmt (sub : Prec → Parser Expr) (body : Parser Stmt) : Parser Stmt := do
  advance
  let test ← condition sub
  let yes ← body
  if (← current) = .keyword .elseKw then
    advance
    return .ifElse test yes (← body)
  else return .ifThen test yes

def whileStmt (sub : Prec → Parser Expr) (body : Parser Stmt) : Parser Stmt := do
  advance
  let test ← condition sub
  return .whileLoop test (← body)

def returnStmt (sub : Prec → Parser Expr) : Parser Stmt := do
  advance
  if (← current) ≠ .semicolon then
    let value ← sub .assign
    expect .semicolon
    return .ret (some value)
  else
    expect .semicolon
    return .ret none

/-- Statements up to the closing brace. -/
def statements (body : Parser Stmt) : Parser (List Stmt) :=
  collect (· ≠ .rightBrace) (do
    if (← current) = .eof then failure
    body)

def statement (sub : Prec → Parser Expr) (body : Parser Stmt) : Parser Stmt := do
  match ← current with
  | .keyword .ifKw => ifStmt sub body
  | .keyword .whileKw => whileStmt sub body
  | .keyword .returnKw => returnStmt sub
  | .leftBrace => do
    advance
    let body ← statements body
    advance
    return .block body
  | .semicolon => do
    advance
    return .empty
  | _ => do
    let e ← sub .assign
    expect .semicolon
    return .expr e

def stmt : Nat → Parser Stmt
  | 0 => failure
  | levels + 1 => statement (expr levels) (stmt levels)

/-! ## Declarations -/

/-- The value behind the name of an enumerator, which is `next` if none is written. -/
def enumeratorValue (next : Word) : Parser Word := do
  if (← current) = .assign then
    advance
    match ← current with
    | .number n => do
      advance
      return n
    | _ => failure
  else return next

/-- One enumerator behind the constants already read, with the value that it has if none is written.
-/
def enumerator (read : List Item × Word) : Parser (List Item × Word) := do
  match ← current with
  | .ident id => do
    advance
    let value ← enumeratorValue read.2
    skipOver .comma
    return (read.1 ++ [.constant id value], value + 1)
  | _ => failure

/-- The braces of an enumeration, without which nothing is declared. -/
def enumeratorList : Parser (List Item) := do
  if (← current) = .leftBrace then
    advance
    let read ← whileToken (· ≠ .rightBrace) enumerator ([], 0)
    advance
    return read.1
  else return []

def enumeration : Parser (List Item) := do
  advance
  if (← current) ≠ .leftBrace then advance
  enumeratorList

/-- A name behind its pointer stars. -/
def namedVariable (base : CType) : Parser Variable := do
  let type ← pointerLevels base
  match ← current with
  | .ident id => do
    advance
    skipOver .comma
    return ⟨type, id⟩
  | _ => failure

def parameter : Parser Variable := do namedVariable (← baseType)

/-- The declarations at the start of a function. -/
def localVariables : Parser (List Variable) :=
  whileToken (fun token => token = .keyword .intKw ∨ token = .keyword .charKw) (fun read => do
    let base ← baseType
    let more ← collect (· ≠ .semicolon) (namedVariable base)
    advance
    return read ++ more) []

/-- A function from its opening parenthesis up to its closing brace. -/
def functionDefinition (id : SymbolId) (type : CType) : Parser Item := do
  advance
  let params ← collect (· ≠ .rightParen) parameter
  advance
  if (← current) ≠ .leftBrace then failure
  advance
  let locals ← localVariables
  return .function id type params locals (← statements (stmt Compile.maxNesting))

def declarator (base : CType) : Parser Item := do
  let type ← pointerLevels base
  match ← current with
  | .ident id => do
    advance
    let item ← if (← current) = .leftParen then functionDefinition id type
      else pure (.globalVar type id)
    skipOver .comma
    return item
  | _ => failure

def declaration : Parser (List Item) := do
  let (constants, base) ← if (← current) = .keyword .enumKw then do
      let constants ← enumeration
      pure (constants, .int)
    else do
      let base ← baseType
      pure ([], base)
  let items ← collect (fun token => token ≠ .semicolon ∧ token ≠ .rightBrace) (declarator base)
  advance
  return constants ++ items

def items : Parser (List Item) := do
  advance
  whileToken (· ≠ .eof) (fun read => do return read ++ (← declaration)) []

end Parser

/-- The names that a source declares, in order, if it can be read. -/
def parse (lexemes : List Lexeme) : Option (List Item) :=
  (Parser.items ⟨.eof, lexemes⟩).map (·.1)

/-- The tree of a source, with the numbers that its names have in a table of the given capacity. -/
def ofSource (source : List UInt8) (limits : Limits) : Option (List Item) :=
  parse (Lexer.ofSource source (SymbolTable.builtin limits.symbols.toNat)).lexemes.1

/-- The names of a source, before anything is declared. -/
def names (source : List UInt8) (limits : Limits) : SymbolTable :=
  (Lexer.ofSource source (SymbolTable.builtin limits.symbols.toNat)).lexemes.2

end MiniC.Syntax
