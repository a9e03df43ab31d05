import MiniC.Word

/-!
# Types of the source language

A type is a base, `char` or `int`, under some number of pointer levels. `void` is another spelling
of `char`. Only a plain `char` is kept in one byte; everything else takes a word.
-/

namespace MiniC

inductive Base where
  | char
  | int
  deriving DecidableEq, Repr

structure CType where
  base : Base
  levels : Nat
  deriving DecidableEq, Repr

namespace CType

def char : CType := ⟨.char, 0⟩

def int : CType := ⟨.int, 0⟩

def pointerTo (t : CType) : CType := { t with levels := t.levels + 1 }

/-- What a pointer points to. -/
def deref? (t : CType) : Option CType :=
  match t.levels with
  | 0 => none
  | n + 1 => some { t with levels := n }

def isPointer (t : CType) : Bool := t.levels != 0

/-- How an object of the type is loaded and stored. -/
def width (t : CType) : Width := if t = char then .byte else .word

/-- Bytes that an object of the type takes. -/
def size (t : CType) : Nat :=
  match t.width with
  | .byte => 1
  | .word => wordSize

/-- A pointer to anything but `char` counts in words, so integers added to it are scaled. -/
def scales (t : CType) : Bool :=
  match t.deref? with
  | none => false
  | some target => target.width = .word

/-- What `++` adds. -/
def step (t : CType) : Word := if t.scales then Word.ofNat wordSize else 1

/-- A number for the type: the base is its parity and each pointer level adds two. -/
def code (t : CType) : Nat :=
  2 * t.levels + match t.base with
    | .char => 0
    | .int => 1

/-- The type as listings show it. The number of stars is shown modulo 16. -/
def text (t : CType) : String :=
  let base := if t = char then "char|void" else match t.base with
    | .char => "char"
    | .int => "int"
  base ++ String.ofList (List.replicate (t.levels % 16) '*')

end CType

end MiniC
