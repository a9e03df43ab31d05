import MiniC.Descriptors
import MiniC.Format
import MiniC.Memory.Heap
import MiniC.Sink
import MiniC.SymbolTable.Describe

/-!
# The machine

The accumulator holds the value of the last expression. The stack pointer is at the top of the
stack, which grows downwards. The frame pointer is at the word that keeps the caller's frame
pointer; the return address is the word above it and the arguments are above that.
-/

namespace MiniC

structure Machine where
  acc : Word
  sp : Word
  bp : Word
  /-- The index of the next instruction. -/
  pc : Nat
  /-- How many instructions have been fetched. -/
  cycle : Nat
  memory : Memory
  files : Descriptors
  out : Sink

/-- Why a machine does not go on. -/
inductive Stop where
  | exited (status : Word)
  | faulted (fault : Fault)
  /-- The number of steps that was allowed is used up. -/
  | outOfFuel
  deriving DecidableEq, Repr

/-- What a machine runs: its code, the names in it, and whether each instruction is traced. -/
structure Loaded where
  code : Array Instr
  symbols : SymbolTable
  trace : Bool

/-- An action of the machine. What it changed before it stopped stays changed. -/
abbrev Exec := EStateM Stop Machine

namespace Machine

def fault {α : Type} (f : Fault) : Exec α := throw (.faulted f)

def ofExcept {α : Type} : Except Fault α → Exec α
  | .ok a => pure a
  | .error f => fault f

def setAcc (value : Word) : Exec Unit := modify fun s => { s with acc := value }

/-- Writes to the sink. -/
def emit (bytes : List UInt8) : Exec Unit := fun s =>
  let accepted := s.out.accepts bytes
  let s := { s with out := s.out.write bytes }
  if accepted then .ok () s else .error (.faulted (.output Sink.failure)) s

/-! ## Memory -/

def loadWord (address : Word) : Exec Word := do ofExcept ((← get).memory.loadWord address)

def loadByte (address : Word) : Exec Word := do ofExcept ((← get).memory.loadByte address)

/-- Changes the memory by an access that may fail. -/
@[inline]
def changeMemory (access : Memory.Access Unit) : Exec Unit := fun s =>
  match access s.memory with
  | .ok _ memory => .ok () { s with memory }
  | .error f memory => .error (.faulted f) { s with memory }

/-- Changes the memory by a request that always has an answer. -/
@[inline]
def askMemory {α : Type} (request : Memory → α × Memory) : Exec α := fun s =>
  let (answer, memory) := request s.memory
  .ok answer { s with memory }

/-! ## The stack -/

/-- Fails where the stack pointer is below the stack. -/
def checkStack : Exec Unit := do
  let s ← get
  if s.sp < Word.ofNat s.memory.stackBase then fault (.stackOverflow s.memory.stackSize)

/-- The address `count` words above an address. -/
def wordsAbove (address count : Word) : Word := address + count * Word.ofNat wordSize

def push (value : Word) : Exec Unit := do
  modify fun s => { s with sp := wordsAbove s.sp (-1) }
  checkStack
  changeMemory (Memory.storeWord (← get).sp value)

def pop : Exec Word := do
  let value ← loadWord (← get).sp
  modify fun s => { s with sp := wordsAbove s.sp 1 }
  return value

/-- The word `n` words above the top of the stack. The last argument of a call is at the top. -/
def stackArg (n : Word) : Exec Word := do loadWord (wordsAbove (← get).sp n)

end Machine

end MiniC
