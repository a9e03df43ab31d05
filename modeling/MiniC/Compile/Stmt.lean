import MiniC.Compile.Expr

/-!
# Compiling statements

Statements nest like expressions: a statement is compiled with the compilers for the expressions and
statements one level deeper.
-/

namespace MiniC.Compile

/-- `(expression)` behind `if` or `while`. -/
def condition (sub : Prec → CompileM CType) : CompileM Unit := do
  expect .leftParen .openParenExpected
  let _ ← sub .assign
  expect .rightParen .closeParenExpected

/-- Moves over the semicolon that ends a statement. -/
def semicolon : CompileM Unit := do expect .semicolon (.semicolonExpected (← currentName))

/-- `if (condition) yes` with an optional `else no`. -/
def ifStmt (sub : Prec → CompileM CType) (body : CompileM Unit) : CompileM Unit := do
  advance
  condition sub
  let skipYes ← emit (.branch .ifZero 0)
  body
  if (← current) = .keyword .elseKw then
    let skipNo ← emit (.branch .always 0)
    patch skipYes
    advance
    body
    patch skipNo
  else patch skipYes

/-- `while (condition) body`. -/
def whileStmt (sub : Prec → CompileM CType) (body : CompileM Unit) : CompileM Unit := do
  advance
  let start ← here
  condition sub
  let done ← emit (.branch .ifZero 0)
  body
  let _ ← emit (.branch .always (UInt64.ofNat start))
  patch done

/-- `return` with an optional expression. -/
def returnStmt (sub : Prec → CompileM CType) : CompileM Unit := do
  advance
  if (← current) ≠ .semicolon then
    let _ ← sub .assign
  let _ ← emit .leave
  semicolon

/-- Statements up to the closing brace, which stays the current token. -/
def statements (body : CompileM Unit) : CompileM Unit :=
  whileToken (· ≠ .rightBrace) (fun _ => do
    if (← current) = .eof then fail .unexpectedEof
    body) ()

/-- Compiles the statement that begins with the current token. -/
def statement (sub : Prec → CompileM CType) (body : CompileM Unit) : CompileM Unit := do
  match ← current with
  | .keyword .ifKw => ifStmt sub body
  | .keyword .whileKw => whileStmt sub body
  | .keyword .returnKw => returnStmt sub
  | .leftBrace => do
    advance
    statements body
    advance
  | .semicolon => advance
  | _ => do
    let _ ← sub .assign
    semicolon

/-- Compiles a statement with the given number of nesting levels left. -/
def stmt : Nat → CompileM Unit
  | 0 => fail (.nestingTooDeep maxNesting)
  | levels + 1 => statement (expr levels) (stmt levels)

end MiniC.Compile
