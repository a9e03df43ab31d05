import MiniC.Compile.State

/-!
# Compiling expressions

The code of an expression leaves its value in the accumulator; compiling it returns the type of the
value. Operators are compiled by precedence climbing. An operand is compiled one nesting level
deeper than the operator, and the number of levels is bounded, so every function here takes the
compiler for the next deeper level as its first argument.
-/

namespace MiniC

/-- How tightly an operator binds, the loosest first. -/
inductive Prec where
  | none
  | assign
  | cond
  | orElse
  | andAlso
  | bitOr
  | bitXor
  | bitAnd
  | equality
  | relational
  | shift
  | sum
  | product
  | primary
  deriving DecidableEq, Repr

namespace Prec

def rank : Prec → Nat
  | none => 0
  | assign => 1
  | cond => 2
  | orElse => 3
  | andAlso => 4
  | bitOr => 5
  | bitXor => 6
  | bitAnd => 7
  | equality => 8
  | relational => 9
  | shift => 10
  | sum => 11
  | product => 12
  | primary => 13

instance : LE Prec := ⟨fun p q => p.rank ≤ q.rank⟩

instance (p q : Prec) : Decidable (p ≤ q) := inferInstanceAs (Decidable (p.rank ≤ q.rank))

/-- The next tighter level. -/
def tighter : Prec → Prec
  | none => assign
  | assign => cond
  | cond => orElse
  | orElse => andAlso
  | andAlso => bitOr
  | bitOr => bitXor
  | bitXor => bitAnd
  | bitAnd => equality
  | equality => relational
  | relational => shift
  | shift => sum
  | sum => product
  | product => primary
  | primary => primary

end Prec

def BinOp.prec : BinOp → Prec
  | or => .bitOr
  | xor => .bitXor
  | and => .bitAnd
  | eq | ne => .equality
  | lt | gt | le | ge => .relational
  | shl | shr => .shift
  | add | sub => .sum
  | mul | div | mod => .product

/-- The level of a token as an operator behind an operand; one that is no such operator has none. -/
def Token.prec : Token → Prec
  | assign => .assign
  | question => .cond
  | orElse => .orElse
  | andAlso => .andAlso
  | binary op => op.prec
  | increment | decrement | leftBracket => .primary
  | _ => .none

namespace Compile

/-- How many levels statements and expressions may nest. -/
def maxNesting : Nat := 256

/-- The instructions that multiply or divide the accumulator by the word size. -/
def scale (op : BinOp) : List Instr := [.push, .imm (Word.ofNat wordSize), .binary op]

/-- The instructions that add an offset in the accumulator to the address on the stack. -/
def addOffset (type : CType) (op : BinOp) : List Instr :=
  (if type.scales then scale .mul else []) ++ [.binary op]

/-! ## Operators behind an operand -/

/-- `left = right`. The address of the left side stays on the stack. -/
def assignment (sub : Prec → CompileM CType) (left : CType) : CompileM CType := do
  match ← loadToPush with
  | none => fail (.badLvalue .assignment)
  | some _ =>
    let _ ← sub .assign
    let _ ← emit (.store left.width)
    return left

/-- `left ? yes : no`. The type is that of the last part. -/
def conditional (sub : Prec → CompileM CType) : CompileM CType := do
  let skipYes ← emit (.branch .ifZero 0)
  let _ ← sub .assign
  expect .colon .colonExpected
  let skipNo ← emit (.branch .always 0)
  patch skipYes
  let type ← sub .cond
  patch skipNo
  return type

/-- `left || right` or `left && right`: the left value stands where the branch is taken. -/
def shortCircuit (sub : Prec → CompileM CType) (condition : Branch) (prec : Prec) :
    CompileM CType := do
  let skip ← emit (.branch condition 0)
  let _ ← sub prec.tighter
  patch skip
  return .int

/-- `left + right`. Integers added to a pointer count what it points to. -/
def addition (sub : Prec → CompileM CType) (left : CType) : CompileM CType := do
  let _ ← emit .push
  let _ ← sub Prec.sum.tighter
  emitAll (addOffset left .add)
  return left

/-- `left - right`. The difference of two pointers of one type counts what they point to. -/
def subtraction (sub : Prec → CompileM CType) (left : CType) : CompileM CType := do
  let _ ← emit .push
  let right ← sub Prec.sum.tighter
  if left.scales ∧ left = right then
    emitAll (.binary .sub :: scale .div)
    return .int
  else
    emitAll (addOffset left .sub)
    return left

/-- Any other binary operator, on integers. -/
def arithmetic (sub : Prec → CompileM CType) (op : BinOp) : CompileM CType := do
  let _ ← emit .push
  let _ ← sub op.prec.tighter
  let _ ← emit (.binary op)
  return .int

/-- The instructions that change a variable by one step, with its address on the stack. -/
def stepBy (type : CType) (width : Width) (op : BinOp) : List Instr :=
  [.load width, .push, .imm type.step, .binary op, .store type.width]

/-- `left++` or `left--`. The old value is recovered by undoing the step. -/
def postStep (left : CType) (apply undo : BinOp) : CompileM CType := do
  match ← loadToPush with
  | none => fail (.badLvalue .postIncrement)
  | some width =>
    emitAll (stepBy left width apply ++ [.push, .imm left.step, .binary undo])
    return left

/-- `left[index]`. -/
def indexing (sub : Prec → CompileM CType) (left : CType) : CompileM CType := do
  let _ ← emit .push
  let _ ← sub .assign
  expect .rightBracket .closeBracketExpected
  match left.deref? with
  | none => fail .pointerExpected
  | some element =>
    emitAll (addOffset left .add ++ [.load element.width])
    return element

/-- Compiles the operator that is the current token, behind an operand of type `left`. -/
def operator (sub : Prec → CompileM CType) (left : CType) : CompileM CType := do
  let token ← current
  advance
  match token with
  | .assign => assignment sub left
  | .question => conditional sub
  | .orElse => shortCircuit sub .ifNonzero .orElse
  | .andAlso => shortCircuit sub .ifZero .andAlso
  | .binary .add => addition sub left
  | .binary .sub => subtraction sub left
  | .binary op => arithmetic sub op
  | .increment => postStep left .add .sub
  | .decrement => postStep left .sub .add
  | .leftBracket => indexing sub left
  | token => fail (.badExpression token.text)

/-! ## Operands -/

/-- Moves over adjacent string literals and keeps them as one text in the data segment. -/
def stringLiterals : CompileM CType := do
  let address ← dataAddress
  whileToken (fun | .string _ => true | _ => false) (fun _ => do
    match ← current with
    | .string bytes => storeData bytes
    | _ => pure ()
    advance) ()
  alignData
  let _ ← emit (.imm address)
  return CType.char.pointerTo

/-- `sizeof (type)`. -/
def sizeOf : CompileM CType := do
  advance
  expect .leftParen .sizeofOpenParen
  let type ← pointerLevels (← baseType)
  expect .rightParen .sizeofCloseParen
  let _ ← emit (.imm (Word.ofNat type.size))
  return .int

/-- Compiles arguments up to the closing parenthesis, pushes each, and returns their number. -/
def arguments (sub : Prec → CompileM CType) : CompileM Nat :=
  whileToken (· ≠ .rightParen) (fun count => do
    let _ ← sub .assign
    let _ ← emit .push
    skipOver .comma
    return count + 1) 0

/-- The instruction that calls what a name is bound to. -/
def callInstr? (binding : Binding) (frame : Word) : Option Instr :=
  match binding.kind with
  | .service s => some (.service s)
  | .function => some (.call binding.value.toUInt64)
  | .globalVar => some (.callCell binding.value)
  | .localVar => some (.callSlot (frame - binding.value))
  | _ => none

/-- `name(arguments)`, from the opening parenthesis on. -/
def call (sub : Prec → CompileM CType) (id : SymbolId) : CompileM CType := do
  advance
  let count ← arguments sub
  advance
  let s ← get
  let binding := s.symbols.binding id
  match callInstr? binding s.frame with
  | none => fail (.badFunctionCall (s.symbols.name id))
  | some i =>
    let _ ← emit i
    if count ≠ 0 then
      let _ ← emit (.adjust (Word.ofNat count))
    return binding.type

/-- A name that is not called: a constant, or a variable that is loaded. A function's name loads
from its start, as a variable would. -/
def variableUse (id : SymbolId) : CompileM CType := do
  let s ← get
  let binding := s.symbols.binding id
  match binding.kind with
  | .constant => do
    let _ ← emit (.imm binding.value)
    return .int
  | .localVar => do
    emitAll [.lea (s.frame - binding.value), .load binding.type.width]
    return binding.type
  | .globalVar | .function => do
    emitAll [.imm binding.value, .load binding.type.width]
    return binding.type
  | _ => fail (.undefinedVariable (s.symbols.name id))

/-- A cast or an expression in parentheses. -/
def parenthesised (sub : Prec → CompileM CType) : CompileM CType := do
  advance
  match ← baseType? with
  | some base =>
    let type ← pointerLevels base
    expect .rightParen .badCast
    let _ ← sub .primary
    return type
  | none =>
    let type ← sub .assign
    expect .rightParen .closeParenExpected
    return type

/-- `*operand`. -/
def dereference (sub : Prec → CompileM CType) : CompileM CType := do
  advance
  match (← sub .primary).deref? with
  | none => fail .badDereference
  | some target =>
    let _ ← emit (.load target.width)
    return target

/-- `&operand`. The load that ends the operand's code is removed, which leaves the address. -/
def addressOf (sub : Prec → CompileM CType) : CompileM CType := do
  advance
  let type ← sub .primary
  if ← dropLoad then return type.pointerTo else fail .badAddressOf

/-- `!operand` and `~operand`: the operand, then an operation with a constant. -/
def withConstant (sub : Prec → CompileM CType) (op : BinOp) (constant : Word) :
    CompileM CType := do
  advance
  let _ ← sub .primary
  emitAll [.push, .imm constant, .binary op]
  return .int

/-- `-operand`: a number is negated at once, anything else is multiplied by minus one. -/
def negation (sub : Prec → CompileM CType) : CompileM CType := do
  advance
  match ← current with
  | .number n => do
    let _ ← emit (.imm (-n))
    advance
  | _ => do
    emitAll [.imm (-1), .push]
    let _ ← sub .primary
    let _ ← emit (.binary .mul)
  return .int

/-- `++operand` or `--operand`. -/
def preStep (sub : Prec → CompileM CType) (op : BinOp) : CompileM CType := do
  advance
  let type ← sub .primary
  match ← loadToPush with
  | none => fail (.badLvalue .preIncrement)
  | some width =>
    emitAll (stepBy type width op)
    return type

/-- Compiles an operand with the operators in front of it. -/
def unary (sub : Prec → CompileM CType) : CompileM CType := do
  match ← current with
  | .eof => fail .unexpectedEof
  | .number n => do
    advance
    let _ ← emit (.imm n)
    return .int
  | .string _ => stringLiterals
  | .keyword .sizeofKw => sizeOf
  | .ident id => do
    advance
    if (← current) = .leftParen then call sub id else variableUse id
  | .leftParen => parenthesised sub
  | .binary .mul => dereference sub
  | .binary .and => addressOf sub
  | .bang => withConstant sub .eq 0
  | .tilde => withConstant sub .xor (-1)
  | .binary .add => do
    advance
    let _ ← sub .primary
    return .int
  | .binary .sub => negation sub
  | .increment => preStep sub .add
  | .decrement => preStep sub .sub
  | token => fail (.badExpression token.text)

/-- Compiles an expression of operators that bind at least as tightly as `prec`, with the given
number of nesting levels left. -/
def expr : Nat → Prec → CompileM CType
  | 0, _ => fail (.nestingTooDeep maxNesting)
  | levels + 1, prec => do
    let type ← unary (expr levels)
    whileToken (fun token => prec ≤ token.prec) (operator (expr levels)) type

end Compile

end MiniC
