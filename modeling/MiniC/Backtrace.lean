import MiniC.Machine

/-!
# Stack traces

A stack trace names the functions of the open frames, the innermost first, each indented one column
more. It follows the frame pointers and return addresses that the stack keeps, and ends at the entry
point. The program can overwrite what it follows, so the number of lines is bounded by a fuel
argument.
-/

namespace MiniC

/-- The function whose code an index lies in: the one that starts nearest at or before it. -/
def SymbolTable.functionAround? (t : SymbolTable) : Nat → Option SymbolId
  | 0 => t.functionAt? 0
  | index + 1 =>
    match t.functionAt? (index + 1) with
    | some id => some id
    | none => t.functionAround? index

namespace Backtrace

/-- The line about a function at the given depth. -/
def line (symbols : SymbolTable) (depth : Nat) (id : SymbolId) : List UInt8 :=
  List.replicate depth ' '.toUInt8 ++ Utf8.encode (symbols.describe id ++ "\n")

/-- Writes the lines from a frame outwards, up to a frame of the function `entry`. The index is that
of an instruction of the frame's function. -/
def walk (symbols : SymbolTable) (entry : SymbolId) (memory : Memory) :
    Nat → (index : Nat) → (bp : Word) → (depth : Nat) → EStateM Stop Sink Unit
  | 0, _, _, _ => throw .outOfFuel
  | fuel + 1, index, bp, depth =>
    match symbols.functionAround? index with
    | none => pure ()
    | some id => do
      let bytes := line symbols depth id
      let accepted := (← get).accepts bytes
      modify (·.write bytes)
      if !accepted then throw (.faulted (.output Sink.failure))
      if id = entry then pure ()
      else
        match memory.loadWord (Machine.wordsAbove bp 1), memory.loadWord bp with
        | .ok returnAddress, .ok caller =>
          if returnAddress ≤ 0 then pure ()
          else walk symbols entry memory fuel (returnAddress.toInt.toNat - 1) caller (depth + 1)
        | .error f, _ => throw (.faulted f)
        | _, .error f => throw (.faulted f)

/-- The trace of a machine whose next instruction has the given index, up to a frame of the function
`entry`. -/
def printUpTo (symbols : SymbolTable) (entry : SymbolId) (memory : Memory) (fuel pc : Nat)
    (bp : Word) : EStateM Stop Sink Unit :=
  match pc with
  | 0 => pure ()
  | index + 1 => walk symbols entry memory fuel index bp 0

/-- The trace up to the entry point of the program. -/
def print (symbols : SymbolTable) (memory : Memory) (fuel pc : Nat) (bp : Word) :
    EStateM Stop Sink Unit :=
  printUpTo symbols SymbolTable.entry memory fuel pc bp

end Backtrace

end MiniC
