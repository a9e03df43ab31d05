/-!
# Machine words

The machine and its programs count in signed 64-bit words that wrap around. This module holds the
word type, its two ways into bytes (eight bytes little-endian, one byte sign-extended) and the
number texts that the other modules share.
-/

namespace MiniC

/-- A signed 64-bit word. Sums, differences and products wrap, division truncates and a shift takes
its amount modulo 64. -/
abbrev Word := Int64

/-- Bytes in a word. -/
def wordSize : Nat := 8

/-- A size in whole words. Like all sizes it is unsigned 64-bit, and a sum that is too large wraps.
-/
def align (size : UInt64) : UInt64 :=
  let word := UInt64.ofNat wordSize
  (size + (word - 1)) / word * word

/-- How many bytes a load or a store touches. -/
inductive Width where
  | byte
  | word
  deriving DecidableEq, Repr

namespace Word

/-- The word with the given unsigned value, taken modulo `2 ^ 64`. -/
def ofNat (n : Nat) : Word := Int64.ofNat n

/-- The value of a word read as unsigned. -/
def toUnsigned (w : Word) : Nat := w.toUInt64.toNat

/-- The difference of two words, if it is a word. -/
def checkedSub (v w : Word) : Option Word :=
  let difference := v - w
  -- What is subtracted is negative exactly if the result is greater, or the result has wrapped.
  if w < 0 ↔ v < difference then some difference else none

/-- A word as a size, which must not be negative. -/
def toSize? (w : Word) : Option UInt64 := if w < 0 then none else some w.toUInt64

/-- The low byte. -/
def lowByte (w : Word) : UInt8 := w.toUInt64.toUInt8

/-- A byte read as a signed number. -/
def ofByte (b : UInt8) : Word := b.toInt8.toInt64

/-- The lowest `count` bytes of a number, least significant first. -/
def lowBytes : (count n : Nat) → List UInt8
  | 0, _ => []
  | count + 1, n => UInt8.ofNat n :: lowBytes count (n / 256)

/-- The eight bytes of a word, least significant first. -/
def toBytes (w : Word) : List UInt8 := lowBytes wordSize w.toUnsigned

/-- The word whose bytes, least significant first, are the given ones. -/
def ofBytes (bytes : List UInt8) : Word :=
  ofNat (bytes.foldr (fun b n => b.toNat + 256 * n) 0)

end Word

/-- The sum of two sizes, if it is a size. -/
def checkedAdd (size more : UInt64) : Option UInt64 :=
  let sum := size + more
  if sum < size then none else some sum

/-! ## Number texts -/

/-- The digits of `n` in the given radix, lower case above nine. -/
def digits (radix n : Nat) : String := String.ofList (Nat.toDigits radix n)

/-- The digits of `n` in radix 16, upper case above nine. -/
def upperHexDigits (n : Nat) : String := String.ofList ((Nat.toDigits 16 n).map Char.toUpper)

namespace Word

/-- Decimal text with a leading minus for a negative word. -/
def decimal (w : Word) : String := w.toInt.repr

/-- The unsigned value in radix 16 after `0x`. -/
def hex (w : Word) : String := "0x" ++ digits 16 w.toUnsigned

/-- The unsigned value in radix 16 after `0x`, with upper case digits. -/
def upperHex (w : Word) : String := "0x" ++ upperHexDigits w.toUnsigned

end Word

end MiniC
