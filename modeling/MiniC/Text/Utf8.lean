/-!
# Text as bytes

Texts leave the program as UTF-8. Bytes that enter a text need not be UTF-8: each longest run of
bytes that begins a character without completing it, and each byte that begins none, becomes one
replacement character.
-/

namespace MiniC.Utf8

/-- The bytes of a text. -/
def encode (s : String) : List UInt8 := s.toByteArray.data.toList

/-- The character that stands for bytes that are no text. -/
def replacement : Char := '�'

def isContinuation (b : UInt8) : Bool := 0x80 ≤ b && b ≤ 0xBF

/-- The second bytes that may follow the first byte of a character of three or four bytes. The
bounds leave out overlong forms, surrogates and values past the last character. -/
def isSecond (first b : UInt8) : Bool :=
  if first = 0xE0 then 0xA0 ≤ b && b ≤ 0xBF
  else if first = 0xED then 0x80 ≤ b && b ≤ 0x9F
  else if first = 0xF0 then 0x90 ≤ b && b ≤ 0xBF
  else if first = 0xF4 then 0x80 ≤ b && b ≤ 0x8F
  else isContinuation b

/-- The low six bits, which a continuation byte adds to its character. -/
def payload (b : UInt8) : Nat := b.toNat % 64

/-- How many bytes a character takes that begins with the given byte, or zero if none does. -/
def lengthOf (first : UInt8) : Nat :=
  if first < 0x80 then 1
  else if 0xC2 ≤ first && first ≤ 0xDF then 2
  else if 0xE0 ≤ first && first ≤ 0xEF then 3
  else if 0xF0 ≤ first && first ≤ 0xF4 then 4
  else 0

/-- Reads one character whose first byte is given, and returns the bytes left. -/
def decodeOne (first : UInt8) (rest : List UInt8) : Char × List UInt8 :=
  match lengthOf first, rest with
  | 1, _ => (Char.ofNat first.toNat, rest)
  | 2, second :: rest' =>
    if isContinuation second then (Char.ofNat (first.toNat % 32 * 64 + payload second), rest')
    else (replacement, rest)
  | 3, second :: rest' =>
    if isSecond first second then
      match rest' with
      | third :: rest'' =>
        if isContinuation third then
          (Char.ofNat ((first.toNat % 16 * 64 + payload second) * 64 + payload third), rest'')
        else (replacement, rest')
      | [] => (replacement, [])
    else (replacement, rest)
  | 4, second :: rest' =>
    if isSecond first second then
      match rest' with
      | third :: rest'' =>
        if isContinuation third then
          match rest'' with
          | fourth :: rest''' =>
            if isContinuation fourth then
              (Char.ofNat (((first.toNat % 8 * 64 + payload second) * 64 + payload third) * 64
                + payload fourth), rest''')
            else (replacement, rest'')
          | [] => (replacement, [])
        else (replacement, rest')
      | [] => (replacement, [])
    else (replacement, rest)
  | _, _ => (replacement, rest)

/-- Reads at most `fuel` characters in front of those already read, which are kept in reverse. -/
def decodeLoop : Nat → List UInt8 → List Char → List Char
  | 0, _, read => read.reverse
  | _ + 1, [], read => read.reverse
  | fuel + 1, first :: rest, read =>
    let (c, rest) := decodeOne first rest
    decodeLoop fuel rest (c :: read)

/-- The text that the bytes spell, with replacement characters where they spell none. -/
def decode (bytes : List UInt8) : String := String.ofList (decodeLoop bytes.length bytes [])

end MiniC.Utf8
