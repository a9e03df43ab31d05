import MiniC.Lexeme
import MiniC.Limits
import MiniC.Memory
import MiniC.Sink

/-!
# The state of a compilation

Compilation is one pass over the lexemes of a source that emits instructions as it goes. The state
holds the token that is looked at and those behind it, the three regions that are being filled, and
the listing where one is asked for.
-/

namespace MiniC

/-- A listing in progress: every source line, each followed by the instructions that were emitted
since the line before. -/
structure Listing where
  /-- The source from the next line on. -/
  rest : List UInt8
  /-- The number of the next line. -/
  line : Nat
  /-- How many instructions have been listed. -/
  listed : Nat
  out : Sink

namespace Compile

structure State where
  current : Token
  /-- The line that reading has reached. -/
  line : Nat
  /-- The lexemes behind the current token. At the end of the source there are none. -/
  rest : Lexemes
  symbols : SymbolTable
  code : Array Instr
  /-- Words that the code takes. -/
  words : Nat
  data : Array UInt8
  /-- The slot number that the frame pointer stands for in the current function. -/
  frame : Word
  limits : Limits
  listing : Option Listing

end Compile

abbrev CompileM := EStateM CompileError Compile.State

namespace Listing

/-- The first line with its newline, and the lines behind it. -/
def splitLine (source : List UInt8) : List UInt8 × List UInt8 :=
  let line := source.takeWhile (· ≠ Byte.newline)
  match source.dropWhile (· ≠ Byte.newline) with
  | [] => (line, [])
  | newline :: rest => (line ++ [newline], rest)

/-- A numbered source line and the instructions behind it. -/
def block (number : Nat) (line : List UInt8) (code : List Instr) : String :=
  let newline := if line.getLast? = some Byte.newline then "" else "\n"
  number.repr ++ ": " ++ Utf8.decode line ++ newline ++ Instr.listing code

/-- The listing after one more line, with the text that was written for it. -/
def record (l : Listing) (text rest : List UInt8) (listed : Nat) : Listing :=
  ⟨rest, l.line + 1, listed, l.out.write text⟩

end Listing

namespace Compile

def fail {α : Type} (reason : Reason) : CompileM α := do throw ⟨(← get).line, reason⟩

/-! ## Tokens -/

/-- Lists at most `count` source lines. All instructions that are not listed yet go with the first
of them, so those that are listed must be a part of the code. -/
def listLines : Nat → CompileM Unit
  | 0 => pure ()
  | count + 1 => do
    let s ← get
    match s.listing with
    | none => pure ()
    | some l =>
      if l.rest.isEmpty then pure ()
      else
        let number := l.line
        let (line, rest) := Listing.splitLine l.rest
        if l.listed ≤ s.code.size then
          let text := Utf8.encode (Listing.block number line (s.code.extract l.listed).toList)
          let accepted := l.out.accepts text
          modify fun s => { s with listing := s.listing.map (·.record text rest s.code.size) }
          if accepted then listLines count
          else throw ⟨number, .listing Sink.failure⟩
        else throw ⟨number, .listingAhead l.listed s.code.size⟩

/-- Lists the source lines before `line`. -/
def listBefore (line : Nat) : CompileM Unit := do
  match (← get).listing with
  | none => pure ()
  | some l => listLines (line - l.line)

def current : CompileM Token := do return (← get).current

/-- Moves to the next token. -/
def advance : CompileM Unit := do
  let s ← get
  match s.rest.next? with
  | none => pure ()
  | some (lexeme, rest) =>
    match lexeme.token with
    | .error reason => throw ⟨lexeme.line, reason⟩
    | .ok token =>
      set { s with current := token, line := lexeme.line, rest }
      listBefore lexeme.line

/-- Moves over the given token, which must be the current one. -/
def expect (token : Token) (reason : Reason) : CompileM Unit := do
  if (← current) = token then advance else fail reason

/-- Moves over the given token if it is the current one. -/
def skipOver (token : Token) : CompileM Unit := do
  if (← current) = token then advance

/-- Runs `body` at most `fuel` times, while the current token is one that `more` accepts. -/
def loop {α : Type} (more : Token → Bool) (body : α → CompileM α) : Nat → α → CompileM α
  | 0, a => pure a
  | fuel + 1, a => do
    if more (← current) then loop more body fuel (← body a) else pure a

/-- Runs `body` while the current token is one that `more` accepts. Every round that succeeds moves
over a token, so the number of tokens left bounds the rounds. -/
def whileToken {α : Type} (more : Token → Bool) (body : α → CompileM α) (a : α) : CompileM α := do
  loop more body ((← get).rest.count + 1) a

/-- How messages call the current token: an identifier by its name. -/
def currentName : CompileM String := do
  let s ← get
  match s.current with
  | .ident id => return s.symbols.name id
  | token => return token.text

/-! ## Code -/

/-- The index of the next instruction. -/
def here : CompileM Nat := do return (← get).code.size

/-- Appends an instruction and returns its index. -/
def emit (i : Instr) : CompileM Nat := do
  let s ← get
  if s.words + i.words ≤ s.limits.code.toNat then
    let index := s.code.size
    modify fun s => { s with code := s.code.push i, words := s.words + i.words }
    return index
  else fail (.capacityExceeded .code s.limits.code.toNat)

def emitAll : List Instr → CompileM Unit
  | [] => pure ()
  | i :: rest => do
    let _ ← emit i
    emitAll rest

/-- A branch with another target; any other instruction stays as it is. -/
def retarget (target : UInt64) : Instr → Instr
  | .branch condition _ => .branch condition target
  | i => i

/-- Makes the branch at an index lead to the next instruction. -/
def patch (index : Nat) : CompileM Unit :=
  modify fun s =>
    { s with code := s.code.modify index (retarget (UInt64.ofNat s.code.size)) }

/-- Where the last instruction is a load, makes it a push, so that the address stays on the stack to
be stored to. -/
def loadToPush : CompileM (Option Width) := do
  match (← get).code.back? with
  | some (.load width) =>
    modify fun s => { s with code := s.code.pop.push .push }
    return some width
  | _ => return none

/-- Removes the last instruction where it is a load, and says whether it was. -/
def dropLoad : CompileM Bool := do
  match (← get).code.back? with
  | some (.load _) =>
    modify fun s => { s with code := s.code.pop, words := s.words - 1 }
    return true
  | _ => return false

/-! ## Data -/

/-- The address of the next byte of the data segment. -/
def dataAddress : CompileM Word := do return Word.ofNat (dataBase + (← get).data.size)

def storeData (bytes : List UInt8) : CompileM Unit := do
  let s ← get
  if s.data.size + bytes.length ≤ s.limits.data.toNat then
    modify fun s => { s with data := s.data ++ bytes }
  else fail (.capacityExceeded .data s.limits.data.toNat)

/-- Fills up to the next word with at least one zero, which ends a string. -/
def alignData : CompileM Unit := do
  storeData (List.replicate (wordSize - (← get).data.size % wordSize) 0)

/-! ## Types -/

/-- Moves over `int`, `char` or `void`, if there is one. -/
def baseType? : CompileM (Option CType) := do
  match ← current with
  | .keyword .intKw => do
    advance
    return some .int
  | .keyword .charKw => do
    advance
    return some .char
  | _ => return none

/-- A base type, which is `int` where none is written. -/
def baseType : CompileM CType := do return (← baseType?).getD .int

/-- Moves over stars, each of which makes a pointer. -/
def pointerLevels (type : CType) : CompileM CType :=
  whileToken (· = .binary .mul) (fun type => do advance; return type.pointerTo) type

end Compile

end MiniC
