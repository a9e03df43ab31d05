import MiniC.Proofs.Compiling.Steps

/-!
# Compiling as a plan that is carried out step by step

Compilation counts its loops and its nesting down, so that it ends whatever the source is. Here it
is written once more with neither count. A plan is a sequence of short actions, with loops and calls
by name, and a machine carries it out step by step: a loop whose condition holds goes through its
body and comes back, and a call goes on with the body of the procedure, one level deeper, unless the
nesting is at its bound already. Nothing in this makes a run end.

A plan has the name of the action that it is another form of. What an action does without a loop or
a call is a single action of the plan.
-/

namespace MiniC.Compile

/-- The procedures that statements and expressions are compiled by. They call one another. -/
inductive Procedure : Type → Type
  | expr (prec : Prec) : Procedure CType
  | stmt : Procedure Unit

/-- The loops of the grammar, with the type of what they carry from one round to the next. -/
inductive Loop : Type → Type
  | stars : Loop CType
  | strings : Loop Unit
  | arguments : Loop Nat
  | operators (prec : Prec) : Loop CType
  | statements : Loop Unit
  | enumerators : Loop Word
  | parameters : Loop Word
  | locals (base : CType) : Loop Word
  | localLines : Loop Word
  | declarators (base : CType) : Loop Unit
  | declarations : Loop Unit

/-- The tokens at which a loop goes on. -/
def Loop.more {β : Type} : Loop β → Token → Bool
  | stars => (· = .binary .mul)
  | strings => fun | .string _ => true | _ => false
  | arguments | parameters => (· ≠ .rightParen)
  | operators prec => fun token => prec ≤ token.prec
  | statements | enumerators => (· ≠ .rightBrace)
  | locals _ => (· ≠ .semicolon)
  | localLines => fun token => token = .keyword .intKw ∨ token = .keyword .charKw
  | declarators _ => fun token => token ≠ .semicolon ∧ token ≠ .rightBrace
  | declarations => (· ≠ .eof)

/-- What is still to be done for a result. -/
inductive Plan (α : Type) : Type 1
  | done (a : α)
  /-- An action, and what follows it. -/
  | act {β : Type} (x : CompileM β) (rest : β → Plan α)
  | call {β : Type} (p : Procedure β) (rest : β → Plan α)
  /-- The end of the innermost call. -/
  | leave (rest : Plan α)
  | loop {β : Type} (l : Loop β) (b : β) (rest : β → Plan α)

namespace Plan

variable {α β γ : Type}

def bind : Plan α → (α → Plan β) → Plan β
  | done a, f => f a
  | act x rest, f => act x fun b => (rest b).bind f
  | call p rest, f => call p fun b => (rest b).bind f
  | leave rest, f => leave (rest.bind f)
  | loop l b rest, f => loop l b fun b => (rest b).bind f

instance : Monad Plan where
  pure := done
  bind := bind

instance : MonadLift CompileM Plan := ⟨fun x => act x done⟩

/-! ## Expressions -/

def expr (prec : Prec) : Plan CType := call (.expr prec) done

def stmt : Plan Unit := call .stmt done

def repeated (l : Loop β) (b : β) : Plan β := loop l b done

def pointerLevels (type : CType) : Plan CType := repeated .stars type

def assignment (left : CType) : Plan CType := do
  match ← loadToPush with
  | none => fail (.badLvalue .assignment)
  | some _ =>
    let _ ← expr .assign
    let _ ← emit (.store left.width)
    return left

def conditional : Plan CType := do
  let skipYes ← emit (.branch .ifZero 0)
  let _ ← expr .assign
  expect .colon .colonExpected
  let skipNo ← emit (.branch .always 0)
  patch skipYes
  let type ← expr .cond
  patch skipNo
  return type

def shortCircuit (condition : Branch) (prec : Prec) : Plan CType := do
  let skip ← emit (.branch condition 0)
  let _ ← expr prec.tighter
  patch skip
  return .int

def addition (left : CType) : Plan CType := do
  let _ ← emit .push
  let _ ← expr Prec.sum.tighter
  emitAll (addOffset left .add)
  return left

def subtraction (left : CType) : Plan CType := do
  let _ ← emit .push
  let right ← expr Prec.sum.tighter
  if left.scales ∧ left = right then
    emitAll (.binary .sub :: scale .div)
    return .int
  else
    emitAll (addOffset left .sub)
    return left

def arithmetic (op : BinOp) : Plan CType := do
  let _ ← emit .push
  let _ ← expr op.prec.tighter
  let _ ← emit (.binary op)
  return .int

def indexing (left : CType) : Plan CType := do
  let _ ← emit .push
  let _ ← expr .assign
  expect .rightBracket .closeBracketExpected
  match left.deref? with
  | none => fail .pointerExpected
  | some element =>
    emitAll (addOffset left .add ++ [.load element.width])
    return element

def operator (left : CType) : Plan CType := do
  let token ← current
  advance
  match token with
  | .assign => assignment left
  | .question => conditional
  | .orElse => shortCircuit .ifNonzero .orElse
  | .andAlso => shortCircuit .ifZero .andAlso
  | .binary .add => addition left
  | .binary .sub => subtraction left
  | .binary op => arithmetic op
  | .increment => postStep left .add .sub
  | .decrement => postStep left .sub .add
  | .leftBracket => indexing left
  | token => fail (.badExpression token.text)

def stringLiterals : Plan CType := do
  let address ← dataAddress
  repeated .strings ()
  alignData
  let _ ← emit (.imm address)
  return CType.char.pointerTo

def sizeOf : Plan CType := do
  advance
  expect .leftParen .sizeofOpenParen
  let type ← pointerLevels (← baseType)
  expect .rightParen .sizeofCloseParen
  let _ ← emit (.imm (Word.ofNat type.size))
  return .int

def invoke (id : SymbolId) : Plan CType := do
  advance
  let count ← repeated .arguments 0
  advance
  invocation id count

def parenthesised : Plan CType := do
  advance
  match ← baseType? with
  | some base =>
    let type ← pointerLevels base
    expect .rightParen .badCast
    let _ ← expr .primary
    return type
  | none =>
    let type ← expr .assign
    expect .rightParen .closeParenExpected
    return type

def dereference : Plan CType := do
  advance
  match (← expr .primary).deref? with
  | none => fail .badDereference
  | some target =>
    let _ ← emit (.load target.width)
    return target

def addressOf : Plan CType := do
  advance
  let type ← expr .primary
  if ← dropLoad then return type.pointerTo else fail .badAddressOf

def withConstant (op : BinOp) (constant : Word) : Plan CType := do
  advance
  let _ ← expr .primary
  emitAll [.push, .imm constant, .binary op]
  return .int

def negation : Plan CType := do
  advance
  match ← current with
  | .number n => do
    let _ ← emit (.imm (-n))
    advance
  | _ => do
    emitAll [.imm (-1), .push]
    let _ ← expr .primary
    let _ ← emit (.binary .mul)
  return .int

def preStep (op : BinOp) : Plan CType := do
  advance
  let type ← expr .primary
  match ← loadToPush with
  | none => fail (.badLvalue .preIncrement)
  | some width =>
    emitAll (stepBy type width op)
    return type

def unary : Plan CType := do
  match ← current with
  | .eof => fail .unexpectedEof
  | .number n => do
    advance
    let _ ← emit (.imm n)
    return .int
  | .string _ => stringLiterals
  | .keyword .sizeofKw => sizeOf
  | .ident id => do
    advance
    if (← current) = .leftParen then invoke id else variableUse id
  | .leftParen => parenthesised
  | .binary .mul => dereference
  | .binary .and => addressOf
  | .bang => withConstant .eq 0
  | .tilde => withConstant .xor (-1)
  | .binary .add => do
    advance
    let _ ← expr .primary
    return .int
  | .binary .sub => negation
  | .increment => preStep .add
  | .decrement => preStep .sub
  | token => fail (.badExpression token.text)

/-! ## Statements -/

def condition : Plan Unit := do
  expect .leftParen .openParenExpected
  let _ ← expr .assign
  expect .rightParen .closeParenExpected

def ifStmt : Plan Unit := do
  advance
  condition
  let skipYes ← emit (.branch .ifZero 0)
  stmt
  if (← current) = .keyword .elseKw then
    let skipNo ← emit (.branch .always 0)
    patch skipYes
    advance
    stmt
    patch skipNo
  else patch skipYes

def whileStmt : Plan Unit := do
  advance
  let start ← here
  condition
  let done ← emit (.branch .ifZero 0)
  stmt
  let _ ← emit (.branch .always (UInt64.ofNat start))
  patch done

def returnStmt : Plan Unit := do
  advance
  if (← current) ≠ .semicolon then
    let _ ← expr .assign
  let _ ← emit .leave
  semicolon

def statement : Plan Unit := do
  match ← current with
  | .keyword .ifKw => ifStmt
  | .keyword .whileKw => whileStmt
  | .keyword .returnKw => returnStmt
  | .leftBrace => do
    advance
    repeated .statements ()
    advance
  | .semicolon => advance
  | _ => do
    let _ ← expr .assign
    semicolon

/-! ## Declarations -/

def enumerator (next : Word) : Plan Word := do
  match ← current with
  | .ident id => do
    advance
    let value ← if (← current) = .assign then do
        advance
        match ← current with
        | .number n => do
          advance
          pure n
        | _ => fail .badEnumInitializer
      else pure next
    defineGlobal id ⟨.constant, .int, value⟩
    skipOver .comma
    return value + 1
  | _ => fail .badEnumIdentifier

def enumeration : Plan Unit := do
  advance
  if (← current) ≠ .leftBrace then advance
  if (← current) = .leftBrace then
    advance
    let _ ← repeated .enumerators 0
    advance

def parameter (slot : Word) : Plan Word := do
  let type ← pointerLevels (← baseType)
  match ← current with
  | .ident id => do
    declare id type slot .duplicateParameter
    advance
    skipOver .comma
    return slot + 1
  | _ => fail .badParameterDeclaration

def localVariable (base : CType) (slot : Word) : Plan Word := do
  let type ← pointerLevels base
  match ← current with
  | .ident id => do
    declare id type (slot + 1) .duplicateLocal
    advance
    skipOver .comma
    return slot + 1
  | _ => fail .badLocalDeclaration

def functionDefinition (id : SymbolId) (type : CType) : Plan Unit := do
  let start ← here
  modify fun s =>
    { s with symbols := (s.symbols.define? id ⟨.function, type, Word.ofNat start⟩).getD s.symbols }
  advance
  modify fun s => { s with symbols := s.symbols.openScope }
  let slot ← repeated .parameters 0
  advance
  if (← current) ≠ .leftBrace then fail .badFunctionDefinition
  let frame := slot + 1
  modify fun s => { s with frame }
  advance
  let last ← repeated .localLines frame
  let _ ← emit (.enter (last - frame))
  repeated .statements ()
  let _ ← emit .leave
  modify fun s => { s with symbols := s.symbols.closeScope }

def declarator (base : CType) : Plan Unit := do
  let type ← pointerLevels base
  match ← current with
  | .ident id => do
    advance
    if (← current) = .leftParen then functionDefinition id type else globalVariable id type
    skipOver .comma
  | _ => fail .badGlobalDeclaration

def declaration : Plan Unit := do
  let base ← if (← current) = .keyword .enumKw then do
      enumeration
      pure .int
    else baseType
  repeated (.declarators base) ()
  advance

def program : Plan Program := do
  advance
  repeated .declarations ()
  finish

end Plan

/-- What a procedure does. -/
def Procedure.body {β : Type} : Procedure β → Plan β
  | expr prec => do Plan.repeated (.operators prec) (← Plan.unary)
  | stmt => Plan.statement

/-- What a loop does in one round. -/
def Loop.body {β : Type} : Loop β → β → Plan β
  | stars, type => do
    advance
    return type.pointerTo
  | strings, _ => do
    match ← current with
    | .string bytes => storeData bytes
    | _ => pure ()
    advance
  | arguments, count => do
    let _ ← Plan.expr .assign
    let _ ← emit .push
    skipOver .comma
    return count + 1
  | operators _, left => Plan.operator left
  | statements, _ => do
    if (← current) = .eof then fail .unexpectedEof
    Plan.stmt
  | enumerators, next => Plan.enumerator next
  | parameters, slot => Plan.parameter slot
  | locals base, slot => Plan.localVariable base slot
  | localLines, slot => do
    let slot ← Plan.repeated (.locals (← baseType)) slot
    advance
    return slot
  | declarators base, _ => Plan.declarator base
  | declarations, _ => Plan.declaration

/-! ## Carrying out a plan -/

abbrev Outcome (α : Type) := EStateM.Result CompileError State α

/-- A plan that is being carried out, with the number of calls that are open. -/
structure Config (α : Type) where
  depth : Nat
  plan : Plan α
  state : State

namespace Config

variable {α : Type}

/-- One step, which ends the run or leads on. -/
def step (c : Config α) : Outcome α ⊕ Config α :=
  match c.plan with
  | .done a => .inl (.ok a c.state)
  | .act x rest =>
    match x c.state with
    | .ok b s => .inr ⟨c.depth, rest b, s⟩
    | .error e s => .inl (.error e s)
  | .call p rest =>
    if c.depth < maxNesting then .inr ⟨c.depth + 1, p.body >>= fun b => .leave (rest b), c.state⟩
    else .inl (.error ⟨c.state.line, .nestingTooDeep maxNesting⟩ c.state)
  | .leave rest => .inr ⟨c.depth - 1, rest, c.state⟩
  | .loop l b rest =>
    if l.more c.state.current then .inr ⟨c.depth, l.body b >>= fun b => .loop l b rest, c.state⟩
    else .inr ⟨c.depth, rest b, c.state⟩

/-- Where a run is after a number of steps, or how it has ended within them. -/
def run : Nat → Config α → Outcome α ⊕ Config α
  | 0, c => .inr c
  | steps + 1, c =>
    match c.step with
    | .inl outcome => .inl outcome
    | .inr c => c.run steps

end Config

end MiniC.Compile
