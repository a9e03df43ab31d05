import MiniC.Lexeme
import MiniC.Limits

/-!
# Format directives

A format text holds plain bytes and directives. A directive starts with `%` and names flags, a
width, a precision, length letters that mean nothing here, and a conversion. Reading a directive
takes no argument and never fails.
-/

namespace MiniC

/-- A width or precision: written out, or taken from the arguments. -/
inductive FieldSize where
  | given (value : Nat)
  | argument
  deriving DecidableEq, Repr

structure FormatFlags where
  left : Bool
  plus : Bool
  space : Bool
  zero : Bool
  alternate : Bool
  deriving DecidableEq, Repr

structure Directive where
  flags : FormatFlags
  width : FieldSize
  precision : Option FieldSize
  /-- The byte that names the conversion; the format may end before it. -/
  conversion : Option UInt8
  deriving DecidableEq, Repr

namespace FormatFlags

def isFlag (b : UInt8) : Bool :=
  match Char.ofUInt8 b with
  | '-' | '+' | ' ' | '0' | '#' => true
  | _ => false

/-- The flags that occur among the bytes. -/
def ofBytes (bytes : List UInt8) : FormatFlags where
  left := bytes.contains '-'.toUInt8
  plus := bytes.contains '+'.toUInt8
  space := bytes.contains ' '.toUInt8
  zero := bytes.contains '0'.toUInt8
  alternate := bytes.contains '#'.toUInt8

end FormatFlags

namespace Directive

/-- The number that decimal digits spell. The product and the sum both saturate. -/
def decimalValue (digits : List UInt8) : UInt64 :=
  digits.foldl
    (fun value d => saturate ((saturate (value.toNat * 10)).toNat + Byte.digitValue d)) 0

/-- Reads a width or precision: `*`, or digits, of which there may be none. -/
def readSize (bytes : List UInt8) : FieldSize × List UInt8 :=
  match bytes with
  | b :: rest =>
    if Char.ofUInt8 b = '*' then (.argument, rest)
    else
      (.given (decimalValue (bytes.takeWhile Byte.isDigit)).toNat, bytes.dropWhile Byte.isDigit)
  | [] => (.given 0, [])

/-- Reads a precision where a point announces one. -/
def readPrecision (bytes : List UInt8) : Option FieldSize × List UInt8 :=
  match bytes with
  | b :: rest =>
    if Char.ofUInt8 b = '.' then
      let (size, rest) := readSize rest
      (some size, rest)
    else (none, bytes)
  | [] => (none, [])

/-- Letters that give the length of an argument. All arguments are words, so they are skipped. -/
def isLength (b : UInt8) : Bool :=
  match Char.ofUInt8 b with
  | 'l' | 'h' | 'z' => true
  | _ => false

/-- Reads a directive behind its `%`. -/
def parse (bytes : List UInt8) : Directive × List UInt8 :=
  let flags := FormatFlags.ofBytes (bytes.takeWhile FormatFlags.isFlag)
  let (width, bytes) := readSize (bytes.dropWhile FormatFlags.isFlag)
  let (precision, bytes) := readPrecision bytes
  let bytes := bytes.dropWhile isLength
  (⟨flags, width, precision, bytes.head?⟩, bytes.tail)

end Directive

end MiniC
