import MiniC.Machine.Step
import MiniC.Program

/-!
# Starting a program

The arguments of a program are put on the heap, each as a text that ends with a NUL, and then a
vector of their addresses that ends with zero. The entry point is called with their number and the
vector. It returns to two instructions behind the code that exit with the accumulator as status.
-/

namespace MiniC

namespace Program

/-- The code with the exit sequence behind it. -/
def load (p : Program) (trace : Bool) : Loaded :=
  ⟨p.code ++ #[.push, .service .exit], p.symbols, trace⟩

end Program

namespace Machine

/-- More steps than any run takes: at a thousand million a second they last for a century. -/
def plenty : Nat := 0x4000000000000000

/-- A machine with nothing on its stack. -/
def idle (data : Array UInt8) (limits : Limits) (files : Descriptors) (out : Sink) : Machine :=
  let memory := Memory.ofData data limits
  { acc := 0
    sp := Word.ofNat memory.stackTop
    bp := Word.ofNat memory.stackTop
    pc := 0
    cycle := 0
    memory
    files
    out }

/-- A heap block for the program's arguments. -/
def reserve (size : Nat) : Exec Word := do
  let address ← askMemory (·.malloc (Word.ofNat size))
  if address = 0 then fault (.outOfMemory size)
  return address

/-- Puts an argument on the heap. The block's last bytes stay zero and end the text. -/
def placeArgument (arg : String) : Exec Word := do
  let bytes := Utf8.encode arg
  let address ← reserve (bytes.length + 1)
  changeMemory (Memory.write address bytes)
  return address

/-- Puts words at an address, one after the other. -/
def storeWords (address : Word) : List Word → Exec Unit
  | [] => pure ()
  | w :: rest => do
    changeMemory (Memory.storeWord address w)
    storeWords (wordsAbove address 1) rest

/-- Puts the arguments on the heap and returns the address of their vector. -/
def placeArguments (args : List String) : Exec Word := do
  let addresses ← args.mapM placeArgument
  let vector ← reserve ((args.length + 1) * wordSize)
  storeWords vector (addresses ++ [0])
  return vector

/-- Calls the entry point with the arguments, to return to `exitIndex`. -/
def start (symbols : SymbolTable) (exitIndex : Nat) (args : List String) : Exec Unit := do
  let vector ← placeArguments args
  push (Word.ofNat args.length)
  push vector
  push (Word.ofNat exitIndex)
  jump (symbols.binding SymbolTable.entry).value.toUnsigned

end Machine

namespace Program

/-- A machine that is about to execute the first instruction of the entry point. -/
def start (p : Program) (limits : Limits) (args : List String) (files : Descriptors) (out : Sink) :
    EStateM.Result Stop Machine Unit :=
  Machine.start p.symbols p.code.size args (Machine.idle p.data limits files out)

/-- Runs a program from its entry point. -/
def run (p : Program) (limits : Limits) (args : List String) (trace : Bool) (files : Descriptors)
    (out : Sink) (fuel : Nat) : Stop × Machine :=
  match p.start limits args files out with
  | .ok _ s => s.run (p.load trace) fuel
  | .error stop s => (stop, s)

end Program

end MiniC
