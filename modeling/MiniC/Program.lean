import MiniC.Compile.Stmt

/-!
# Programs

A program is the code, the data segment and the symbol table that compiling a source yields. A
source is a sequence of declarations: enumerations, global variables and functions.
-/

namespace MiniC

structure Program where
  code : Array Instr
  data : Array UInt8
  symbols : SymbolTable
  deriving DecidableEq, Repr

/-- The code as the words that encode it. -/
def Program.words (p : Program) : List Word := Instr.encodeAll p.code.toList

namespace Compile

/-- Sets the file-level binding of a name, which a keyword or service refuses. -/
def defineGlobal (id : SymbolId) (binding : Binding) : CompileM Unit := do
  let s ← get
  match s.symbols.define? id binding with
  | some symbols => set { s with symbols }
  | none => fail (.duplicateGlobal (s.symbols.name id))

/-- One enumerator with an optional value; the next one follows on. -/
def enumerator (next : Word) : CompileM Word := do
  match ← current with
  | .ident id => do
    advance
    let value ← if (← current) = .assign then do
        advance
        match ← current with
        | .number n => do
          advance
          pure n
        | _ => fail .badEnumInitializer
      else pure next
    defineGlobal id ⟨.constant, .int, value⟩
    skipOver .comma
    return value + 1
  | _ => fail .badEnumIdentifier

/-- `enum` with an optional name. Without braces behind it nothing is declared. -/
def enumeration : CompileM Unit := do
  advance
  if (← current) ≠ .leftBrace then advance
  if (← current) = .leftBrace then
    advance
    let _ ← whileToken (· ≠ .rightBrace) enumerator 0
    advance

/-- A global variable: a word of zeros in the data segment. -/
def globalVariable (id : SymbolId) (type : CType) : CompileM Unit := do
  defineGlobal id ⟨.globalVar, type, ← dataAddress⟩
  storeData (List.replicate wordSize 0)

/-- Binds a name in the scope of the function, unless it is bound there already. -/
def declare (id : SymbolId) (type : CType) (slot : Word) (duplicate : String → Reason) :
    CompileM Unit := do
  let s ← get
  match s.symbols.declareLocal? id type slot with
  | some symbols => set { s with symbols }
  | none => fail (duplicate (s.symbols.name id))

/-- One parameter, with the slot that it takes; the next one takes the slot behind it. -/
def parameter (slot : Word) : CompileM Word := do
  let type ← pointerLevels (← baseType)
  match ← current with
  | .ident id => do
    declare id type slot .duplicateParameter
    advance
    skipOver .comma
    return slot + 1
  | _ => fail .badParameterDeclaration

/-- One local variable, with the slot last taken, and the slot that it takes. -/
def localVariable (base : CType) (slot : Word) : CompileM Word := do
  let type ← pointerLevels base
  match ← current with
  | .ident id => do
    declare id type (slot + 1) .duplicateLocal
    advance
    skipOver .comma
    return slot + 1
  | _ => fail .badLocalDeclaration

/-- The declarations at the start of a function, from the slot last taken on. -/
def localVariables (slot : Word) : CompileM Word :=
  whileToken (fun token => token = .keyword .intKw ∨ token = .keyword .charKw) (fun slot => do
    let slot ← whileToken (· ≠ .semicolon) (localVariable (← baseType)) slot
    advance
    return slot) slot

/-- A function, from its opening parenthesis up to its closing brace, which stays the current token.
A service keeps its meaning, though the code is compiled. -/
def functionDefinition (id : SymbolId) (type : CType) : CompileM Unit := do
  let start ← here
  modify fun s =>
    { s with symbols := (s.symbols.define? id ⟨.function, type, Word.ofNat start⟩).getD s.symbols }
  advance
  modify fun s => { s with symbols := s.symbols.openScope }
  let slot ← whileToken (· ≠ .rightParen) parameter 0
  advance
  if (← current) ≠ .leftBrace then fail .badFunctionDefinition
  -- The slot between the parameters and the locals is the frame pointer's own.
  let frame := slot + 1
  modify fun s => { s with frame }
  advance
  let last ← localVariables frame
  let _ ← emit (.enter (last - frame))
  statements (stmt maxNesting)
  let _ ← emit .leave
  modify fun s => { s with symbols := s.symbols.closeScope }

/-- One name of a declaration: a function or a global variable. -/
def declarator (base : CType) : CompileM Unit := do
  let type ← pointerLevels base
  match ← current with
  | .ident id => do
    advance
    if (← current) = .leftParen then functionDefinition id type else globalVariable id type
    skipOver .comma
  | _ => fail .badGlobalDeclaration

/-- A declaration, which ends with a semicolon or with the brace of a function. -/
def declaration : CompileM Unit := do
  let base ← if (← current) = .keyword .enumKw then do
      enumeration
      pure .int
    else baseType
  whileToken (fun token => token ≠ .semicolon ∧ token ≠ .rightBrace) (fun _ => declarator base) ()
  advance

/-- A whole source, which must define the entry point. -/
def program : CompileM Program := do
  advance
  whileToken (· ≠ .eof) (fun _ => declaration) ()
  let s ← get
  listBefore (s.line + 1)
  if (s.symbols.binding SymbolTable.entry).kind = .function then
    return ⟨s.code, s.data, s.symbols⟩
  else fail .mainNotDefined

/-- The state before the first token. -/
def start (source : List UInt8) (limits : Limits) (listing : Option Sink) : State :=
  let (lexemes, symbols) :=
    (Lexer.ofSource source (SymbolTable.builtin limits.symbols.toNat)).lexemes
  { current := .eof
    line := 1
    rest := .ofList lexemes
    symbols
    code := #[]
    words := 0
    data := #[]
    frame := 0
    limits
    listing := listing.map fun out => ⟨source, 1, 0, out⟩ }

end Compile

namespace Program

def compile (source : List UInt8) (limits : Limits) : Except CompileError Program :=
  match Compile.program (Compile.start source limits none) with
  | .ok p _ => .ok p
  | .error e _ => .error e

/-- Compiles a source and writes its listing to a sink, which is returned with all that was written
before an error. -/
def compileListed (source : List UInt8) (limits : Limits) (out : Sink) :
    Except CompileError Program × Sink :=
  let sink (s : Compile.State) : Sink :=
    match s.listing with
    | some l => l.out
    | none => out
  match Compile.program (Compile.start source limits (some out)) with
  | .ok p s => (.ok p, sink s)
  | .error e s => (.error e, sink s)

end Program

end MiniC
