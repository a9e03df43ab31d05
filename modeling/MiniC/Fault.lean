import MiniC.Word

/-!
# Why a run fails
-/

namespace MiniC

inductive Fault where
  /-- No instruction stands at the index that the machine reached. -/
  | unknownInstruction (pc cycle : Nat)
  /-- An access of the given length touches a byte outside memory. -/
  | segfault (address : Word) (length : Nat)
  | stackOverflow (capacity : Nat)
  | divisionByZero (pc : Nat)
  /-- The program's arguments do not fit the heap. -/
  | outOfMemory (requested : Nat)
  /-- A width or precision of a format is past what is allowed. -/
  | fieldTooWide (width : Nat)
  /-- The output could not be written, for the given cause. -/
  | output (cause : String)
  deriving DecidableEq, Repr

def Fault.message : Fault → String
  | unknownInstruction pc cycle =>
    "unknown instruction at " ++ pc.repr ++ "! cycle = " ++ cycle.repr
  | segfault address length =>
    "segmentation fault: " ++ length.repr ++ " byte(s) at " ++ address.hex
  | stackOverflow capacity => "stack overflow: " ++ capacity.repr ++ " byte stack exhausted"
  | divisionByZero pc => "division by zero at instruction " ++ pc.repr
  | outOfMemory requested =>
    "could not allocate " ++ requested.repr ++ " bytes for program arguments"
  | fieldTooWide width => "printf field of " ++ width.repr ++ " characters is too wide"
  | output cause => "output error: " ++ cause

end MiniC
