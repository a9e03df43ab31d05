import MiniC.Format.Directive
import MiniC.Memory

/-!
# Formatted text

Expands a format text with a list of words. Each directive takes its arguments from the front of the
list: one for a width and one for a precision that is given as `*`, then one for a conversion that
shows a value. An argument that is missing is zero.
-/

namespace MiniC

/-- The widest field and the largest precision. -/
def maxField : Nat := 0x100000

/-- A directive with its width and precision known. -/
structure Field where
  flags : FormatFlags
  width : Nat
  precision : Option Nat
  deriving DecidableEq, Repr

namespace Field

/-- A width or precision that is not too large. -/
def check (size : Nat) : Except Fault Nat :=
  if size ≤ maxField then .ok size else .error (.fieldTooWide size)

/-- Fills up to the width: behind the text where it is set left, with zeros between the sign and the
digits where zeros are asked for and no precision is given, else with blanks in front. -/
def pad (f : Field) (sign body : List UInt8) : List UInt8 :=
  let missing := f.width - (sign.length + body.length)
  if f.flags.left then sign ++ body ++ List.replicate missing ' '.toUInt8
  else if f.flags.zero && f.precision.isNone then
    sign ++ List.replicate missing '0'.toUInt8 ++ body
  else List.replicate missing ' '.toUInt8 ++ sign ++ body

/-- The digits of a number, with zeros in front up to the precision. Zero with precision zero has
none. -/
def digits (f : Field) (radix : Nat) (upper : Bool) (value : Nat) : List UInt8 :=
  if value = 0 ∧ f.precision = some 0 then []
  else
    let chars := Nat.toDigits radix value
    let chars := if upper then chars.map Char.toUpper else chars
    let bytes := chars.map Char.toUInt8
    List.replicate (f.precision.getD 0 - bytes.length) '0'.toUInt8 ++ bytes

def sign (f : Field) (negative : Bool) : List UInt8 :=
  if negative then ['-'.toUInt8]
  else if f.flags.plus then ['+'.toUInt8]
  else if f.flags.space then [' '.toUInt8]
  else []

def signed (f : Field) (value : Word) : List UInt8 :=
  f.pad (f.sign (value < 0)) (f.digits 10 false value.toInt.natAbs)

def unsigned (f : Field) (value : Word) : List UInt8 :=
  f.pad [] (f.digits 10 false value.toUnsigned)

def hexadecimal (f : Field) (upper : Bool) (value : Word) : List UInt8 :=
  let mark := if upper then ['0'.toUInt8, 'X'.toUInt8] else ['0'.toUInt8, 'x'.toUInt8]
  f.pad (if f.flags.alternate ∧ value ≠ 0 then mark else []) (f.digits 16 upper value.toUnsigned)

def octal (f : Field) (value : Word) : List UInt8 :=
  let digits := f.digits 8 false value.toUnsigned
  f.pad [] (if f.flags.alternate ∧ digits.head? ≠ some '0'.toUInt8 then '0'.toUInt8 :: digits
    else digits)

def pointer (f : Field) (value : Word) : List UInt8 :=
  f.pad ['0'.toUInt8, 'x'.toUInt8] (f.digits 16 false value.toUnsigned)

/-- Text is never filled with zeros. -/
def text (f : Field) (body : List UInt8) : List UInt8 :=
  { f with flags := { f.flags with zero := false } }.pad [] body

def character (f : Field) (value : Word) : List UInt8 := f.text [value.lowByte]

/-- The text at an address, cut off at the precision. -/
def string (f : Field) (m : Memory) (address : Word) : Except Fault (List UInt8) := do
  let bytes ← m.cstring address
  .ok (f.text (match f.precision with
    | some n => bytes.take n
    | none => bytes))

end Field

/-- What a conversion does with its argument. A conversion that takes none is the text it leaves. -/
inductive Conversion where
  | value (render : Field → Memory → Word → Except Fault (List UInt8))
  | plain (text : List UInt8)

namespace Conversion

/-- The conversion that a byte names. A byte that names none is shown with its `%`. -/
def ofByte (b : UInt8) : Conversion :=
  match Char.ofUInt8 b with
  | 'd' | 'i' => .value fun f _ w => .ok (f.signed w)
  | 'u' => .value fun f _ w => .ok (f.unsigned w)
  | 'x' => .value fun f _ w => .ok (f.hexadecimal false w)
  | 'X' => .value fun f _ w => .ok (f.hexadecimal true w)
  | 'o' => .value fun f _ w => .ok (f.octal w)
  | 'p' => .value fun f _ w => .ok (f.pointer w)
  | 'c' => .value fun f _ w => .ok (f.character w)
  | 's' => .value fun f m w => f.string m w
  | '%' => .plain [b]
  | _ => .plain ['%'.toUInt8, b]

end Conversion

namespace Directive

/-- The width that is meant, which sets the text left when it is taken from a negative argument, and
the arguments left. -/
def fieldWidth (d : Directive) (args : List Word) : Except Fault (Nat × Bool × List Word) := do
  match d.width with
  | .given n => .ok (← Field.check n, false, args)
  | .argument =>
    let w := args.headD 0
    .ok (← Field.check w.toInt.natAbs, w < 0, args.tail)

/-- The precision that is meant, and the arguments left. A negative argument means none. -/
def fieldPrecision (d : Directive) (args : List Word) : Except Fault (Option Nat × List Word) := do
  match d.precision with
  | none => .ok (none, args)
  | some (.given n) => .ok (some (← Field.check n), args)
  | some .argument =>
    let w := args.headD 0
    if w < 0 then .ok (none, args.tail) else .ok (some (← Field.check w.toInt.toNat), args.tail)

/-- The text of a directive, and the arguments left. -/
def render (d : Directive) (m : Memory) (args : List Word) :
    Except Fault (List UInt8 × List Word) := do
  let (width, left, args) ← d.fieldWidth args
  let (precision, args) ← d.fieldPrecision args
  let field : Field := ⟨{ d.flags with left := d.flags.left || left }, width, precision⟩
  match d.conversion with
  | none => .ok (['%'.toUInt8], args)
  | some b =>
    match Conversion.ofByte b with
    | .plain text => .ok (text, args)
    | .value convert => .ok (← convert field m (args.headD 0), args.tail)

end Directive

/-- Expands the format behind the text already made, which is kept in pieces, the last one first. -/
def formatLoop (m : Memory) : Nat → List UInt8 → List Word → List (List UInt8) →
    Except Fault (List UInt8)
  | 0, _, _, made => .ok made.reverse.flatten
  | fuel + 1, bytes, args, made =>
    match bytes with
    | [] => .ok made.reverse.flatten
    | b :: rest =>
      if Char.ofUInt8 b = '%' then do
        let (d, rest) := Directive.parse rest
        let (text, args) ← d.render m args
        formatLoop m fuel rest args (text :: made)
      else formatLoop m fuel rest args ([b] :: made)

/-- Expands a format text. Each step takes a byte of it, so its length bounds their number. -/
def format (m : Memory) (bytes : List UInt8) (args : List Word) : Except Fault (List UInt8) :=
  formatLoop m (bytes.length + 1) bytes args []

end MiniC
