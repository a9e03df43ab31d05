import MiniC.Backtrace

/-!
# Running

One step fetches an instruction, traces it where that is asked for, and executes it. A run is a
sequence of steps that ends when one of them stops the machine or when the fuel is used up. The fuel
bounds the steps and the lines of a stack trace alike.
-/

namespace MiniC

/-- The value of a binary operation. Division by zero is ruled out before. -/
def BinOp.apply (op : BinOp) (left right : Word) : Word :=
  let truth (b : Bool) : Word := if b then 1 else 0
  match op with
  | or => left ||| right
  | xor => left ^^^ right
  | and => left &&& right
  | eq => truth (left = right)
  | ne => truth (left ≠ right)
  | lt => truth (left < right)
  | gt => truth (left > right)
  | le => truth (left ≤ right)
  | ge => truth (left ≥ right)
  | shl => left <<< right
  | shr => left >>> right
  | add => left + right
  | sub => left - right
  | mul => left * right
  | div => left / right
  | mod => left % right

/-- Whether the operation divides by its right operand. -/
def BinOp.divides : BinOp → Bool
  | div | mod => true
  | _ => false

namespace Machine

/-! ## Instructions -/

def jump (target : Nat) : Exec Unit := modify fun s => { s with pc := target }

/-- Pushes the return address and jumps. -/
def call (target : Nat) : Exec Unit := do
  push (Word.ofNat (← get).pc)
  jump target

def branch (condition : Branch) (target : Nat) : Exec Unit := do
  match condition with
  | .always => jump target
  | .ifZero => if (← get).acc = 0 then jump target
  | .ifNonzero => if (← get).acc ≠ 0 then jump target

/-- Opens a frame: keeps the caller's frame pointer and makes room for locals. -/
def enter (slots : Word) : Exec Unit := do
  push (← get).bp
  modify fun s => { s with bp := s.sp, sp := wordsAbove s.sp (-slots) }
  checkStack

/-- Closes the frame and returns to the caller. -/
def leave : Exec Unit := do
  modify fun s => { s with sp := s.bp }
  let caller ← pop
  modify fun s => { s with bp := caller }
  let returnAddress ← pop
  jump returnAddress.toUnsigned

def load (width : Width) : Exec Unit := do
  let address := (← get).acc
  match width with
  | .word => setAcc (← loadWord address)
  | .byte => setAcc (← loadByte address)

/-- Stores the accumulator at the address on the stack. A byte that is stored is also what the
accumulator holds then. -/
def store (width : Width) : Exec Unit := do
  let address ← pop
  let value := (← get).acc
  match width with
  | .word => changeMemory (Memory.storeWord address value)
  | .byte =>
    changeMemory (Memory.storeByte address value)
    setAcc (Word.ofByte value.lowByte)

def binary (op : BinOp) : Exec Unit := do
  let left ← pop
  let s ← get
  if op.divides ∧ s.acc = 0 then fault (.divisionByZero (s.pc - 1))
  setAcc (op.apply left s.acc)

/-! ## Services -/

def openFile : Exec Unit := do
  let address ← stackArg 1
  let path ← ofExcept ((← get).memory.cstring address)
  let flags ← stackArg 0
  modify fun s =>
    let (fd, files) := s.files.openPath path flags
    { s with acc := fd, files }

/-- Reads from a file into memory. The whole buffer has to lie in memory, also where less is read.
-/
def fillBuffer : Exec Unit := do
  let fd ← stackArg 2
  let buffer ← stackArg 1
  let length ← stackArg 0
  if length < 0 then setAcc (-1)
  else
    let _ ← ofExcept ((← get).memory.index buffer length.toUInt64)
    let (bytes?, files) := (← get).files.read fd length.toUInt64.toNat
    modify fun s => { s with files }
    match bytes? with
    | none => setAcc (-1)
    | some bytes =>
      changeMemory (Memory.write buffer bytes)
      setAcc (Word.ofNat bytes.length)

def closeFile : Exec Unit := do
  let fd ← stackArg 0
  modify fun s =>
    let (result, files) := s.files.close fd
    { s with acc := result, files }

/-- How many arguments a format may use. -/
def maxFormatArgs : Nat := 6

/-- The number of words that the next instruction drops, which is the number of arguments of the
call. -/
def argumentCount (loaded : Loaded) (pc : Nat) : Word :=
  match loaded.code[pc]? with
  | some (.adjust count) => count
  | _ => 0

/-- Reads the words `count - 2`, `count - 3`, … above the top of the stack. -/
def formatArgs (count : Word) : Exec (List Word) :=
  let used := (min count (Word.ofNat (maxFormatArgs + 1))).toInt.toNat - 1
  (List.range used).mapM fun k => stackArg (count - 2 - Word.ofNat k)

/-- Writes formatted text. The first argument is the format. -/
def printf (loaded : Loaded) : Exec Unit := do
  let count := argumentCount loaded (← get).pc
  if count = 0 then setAcc 0
  else
    let address ← stackArg (count - 1)
    let args ← formatArgs count
    let bytes ← ofExcept ((← get).memory.cstring address)
    let text ← ofExcept (format (← get).memory bytes args)
    emit text
    setAcc (Word.ofNat text.length)

def stackTrace (loaded : Loaded) (fuel : Nat) : Exec Unit := fun s =>
  match Backtrace.print loaded.symbols s.memory fuel s.pc s.bp s.out with
  | .ok _ out => .ok () { s with out }
  | .error stop out => .error stop { s with out }

def service (loaded : Loaded) (fuel : Nat) : Service → Exec Unit
  | .fileOpen => openFile
  | .fileRead => fillBuffer
  | .fileClose => closeFile
  | .printf => printf loaded
  | .malloc => do
    let size ← stackArg 0
    setAcc (← askMemory (·.malloc size))
  | .realloc => do
    let address ← stackArg 1
    let size ← stackArg 0
    setAcc (← askMemory (·.realloc address size))
  | .free => do
    let address ← stackArg 0
    let _ ← askMemory (·.free address)
  | .memset => do
    let dest ← stackArg 2
    let value ← stackArg 1
    let length ← stackArg 0
    changeMemory (Memory.fill dest value.lowByte length)
    setAcc dest
  | .memcmp => do
    let left ← stackArg 2
    let right ← stackArg 1
    let length ← stackArg 0
    setAcc (← ofExcept ((← get).memory.compare left right length))
  | .memcpy => do
    let dest ← stackArg 2
    let source ← stackArg 1
    let length ← stackArg 0
    changeMemory (Memory.copy dest source length)
    setAcc dest
  | .stacktrace => stackTrace loaded fuel
  | .exit => do throw (.exited (← stackArg 0))

/-! ## Steps and runs -/

/-- Executes an instruction that has been fetched. -/
def execute (loaded : Loaded) (fuel : Nat) : Instr → Exec Unit
  | .lea offset => do setAcc (wordsAbove (← get).bp offset)
  | .imm value => setAcc value
  | .branch condition target => branch condition target.toNat
  | .call target => call target.toNat
  | .callCell address => do call (← loadWord address).toUnsigned
  | .callSlot offset => do call (← loadWord (wordsAbove (← get).bp offset)).toUnsigned
  | .enter slots => enter slots
  | .adjust count => modify fun s => { s with sp := wordsAbove s.sp count }
  | .leave => leave
  | .load width => load width
  | .store width => store width
  | .push => do push (← get).acc
  | .binary op => binary op
  | .service s => service loaded fuel s

def step (loaded : Loaded) (fuel : Nat) : Exec Unit := do
  let s ← get
  match loaded.code[s.pc]? with
  | none => fault (.unknownInstruction s.pc s.cycle)
  | some i =>
    modify fun s => { s with pc := s.pc + 1, cycle := s.cycle + 1 }
    if loaded.trace then emit (Utf8.encode (i.traceRow (s.cycle + 1) ++ "\n"))
    execute loaded fuel i

/-- Runs until the machine stops, for at most `fuel` steps. -/
def run (loaded : Loaded) : Nat → Machine → Stop × Machine
  | 0, s => (.outOfFuel, s)
  | fuel + 1, s =>
    match step loaded fuel s with
    | .ok _ s => run loaded fuel s
    | .error stop s => (stop, s)

end Machine

end MiniC
