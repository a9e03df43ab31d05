import MiniC.SymbolTable

/-!
# Reading a source into lexemes

A source is a list of bytes and ends at its first NUL. A lexeme is what one reading step yields: a
token, or the reason why none could be read, with the line that was reached. Comments run from `//`
or `#` to the end of the line. Names are entered into the symbol table as they are met.
-/

namespace MiniC

/-! ## Classes of bytes -/

namespace Byte

def isLetter (b : UInt8) : Bool :=
  let c := Char.ofUInt8 b
  c.isAlpha || c = '_'

def isDigit (b : UInt8) : Bool := (Char.ofUInt8 b).isDigit

def isNameByte (b : UInt8) : Bool := isLetter b || isDigit b

def isOctalDigit (b : UInt8) : Bool := '0'.toUInt8 ≤ b && b ≤ '7'.toUInt8

def isHexDigit (b : UInt8) : Bool :=
  isDigit b || ('a'.toUInt8 ≤ b && b ≤ 'f'.toUInt8) || ('A'.toUInt8 ≤ b && b ≤ 'F'.toUInt8)

/-- Space, tab, newline, form feed and carriage return. -/
def isBlank (b : UInt8) : Bool := b = 32 || b = 9 || b = 10 || b = 12 || b = 13

def newline : UInt8 := 10

/-- The value of a digit up to radix 16. -/
def digitValue (b : UInt8) : Nat :=
  if isDigit b then b.toNat - 48
  else if 'a'.toUInt8 ≤ b then b.toNat - 87
  else b.toNat - 55

end Byte

/-- The source still to be read, the line reached and the names met. -/
structure Lexer where
  rest : List UInt8
  line : Nat
  symbols : SymbolTable

namespace Lexer

def ofSource (source : List UInt8) (symbols : SymbolTable) : Lexer := ⟨source, 1, symbols⟩

/-- Skips blanks and comments, counting newlines. The flag says that a comment is being skipped. -/
def skip (comment : Bool) : List UInt8 → Nat → List UInt8 × Nat
  | [], line => ([], line)
  | b :: rest, line =>
    if b = Byte.newline then skip false rest (line + 1)
    else if b = 0 then (b :: rest, line)
    else if comment then skip true rest line
    else if Char.ofUInt8 b = '#' then skip true rest line
    else if Char.ofUInt8 b = '/' ∧ rest.head? = some '/'.toUInt8 then skip true rest line
    else if Byte.isBlank b then skip false rest line
    else (b :: rest, line)

/-- The value of digits in the given radix, wrapped to a word. -/
def valueOf (radix : Nat) (digits : List UInt8) : Word :=
  digits.foldl (fun n d => n * Word.ofNat radix + Word.ofNat (Byte.digitValue d)) 0

/-- Reads a number whose first digit is given: decimal, octal after `0`, hexadecimal after `0x`. -/
def number (first : UInt8) (rest : List UInt8) : Word × List UInt8 :=
  if Char.ofUInt8 first = '0' then
    match rest with
    | x :: rest' =>
      if Char.ofUInt8 x = 'x' ∨ Char.ofUInt8 x = 'X' then
        (valueOf 16 (rest'.takeWhile Byte.isHexDigit), rest'.dropWhile Byte.isHexDigit)
      else (valueOf 8 (rest.takeWhile Byte.isOctalDigit), rest.dropWhile Byte.isOctalDigit)
    | [] => (0, [])
  else (valueOf 10 (first :: rest.takeWhile Byte.isDigit), rest.dropWhile Byte.isDigit)

/-- What a byte means after a backslash. -/
def unescape (b : UInt8) : UInt8 :=
  match Char.ofUInt8 b with
  | 'n' => 10
  | 't' => 9
  | 'r' => 13
  | '0' => 0
  | _ => b

/-- Reads up to the closing quote behind the bytes already read, which are kept in reverse. A
literal that the source ends in has no value. -/
def literal (quote : UInt8) : List UInt8 → List UInt8 → Option (List UInt8) × List UInt8
  | [], _ => (none, [])
  | b :: rest, read =>
    if b = 0 then (none, b :: rest)
    else if b = quote then (some read.reverse, rest)
    else if Char.ofUInt8 b = '\\' then
      match rest with
      | [] => (none, [])
      | e :: rest' => if e = 0 then (none, rest) else literal quote rest' (unescape e :: read)
    else literal quote rest (b :: read)

/-- Operators of two bytes. -/
def pair? : Char → Char → Option Token
  | '=', '=' => some (.binary .eq)
  | '+', '+' => some .increment
  | '-', '-' => some .decrement
  | '!', '=' => some (.binary .ne)
  | '<', '=' => some (.binary .le)
  | '<', '<' => some (.binary .shl)
  | '>', '=' => some (.binary .ge)
  | '>', '>' => some (.binary .shr)
  | '|', '|' => some .orElse
  | '&', '&' => some .andAlso
  | _, _ => none

/-- Operators and delimiters of one byte. -/
def single? : Char → Option Token
  | '=' => some .assign
  | '+' => some (.binary .add)
  | '-' => some (.binary .sub)
  | '!' => some .bang
  | '<' => some (.binary .lt)
  | '>' => some (.binary .gt)
  | '|' => some (.binary .or)
  | '&' => some (.binary .and)
  | '^' => some (.binary .xor)
  | '%' => some (.binary .mod)
  | '*' => some (.binary .mul)
  | '/' => some (.binary .div)
  | '[' => some .leftBracket
  | '?' => some .question
  | '~' => some .tilde
  | ';' => some .semicolon
  | ':' => some .colon
  | ',' => some .comma
  | '(' => some .leftParen
  | ')' => some .rightParen
  | ']' => some .rightBracket
  | '\x7b' => some .leftBrace
  | '\x7d' => some .rightBrace
  | _ => none

/-- Reads an operator or delimiter whose first byte is given, the longer one where two fit. -/
def operator (first : UInt8) (rest : List UInt8) : Token × List UInt8 :=
  match rest.head?.bind fun second => pair? (Char.ofUInt8 first) (Char.ofUInt8 second) with
  | some token => (token, rest.tail)
  | none => ((single? (Char.ofUInt8 first)).getD (.illegal first), rest)

/-- The token for a name: a keyword, or an identifier with its number. -/
def nameToken (symbols : SymbolTable) (id : SymbolId) : Token :=
  match (symbols.binding id).kind with
  | .keyword k => .keyword k
  | _ => .ident id

/-- The name that the bytes spell. -/
def spelling (bytes : List UInt8) : String := String.ofList (bytes.map Char.ofUInt8)

/-- Reads one token. At the end of the source every reading yields the end again. -/
def next (lx : Lexer) : Except Reason Token × Lexer :=
  let (rest, line) := skip false lx.rest lx.line
  let lx := { lx with rest, line }
  match rest with
  | [] => (.ok .eof, lx)
  | b :: after =>
    if b = 0 then (.ok .eof, lx)
    else if Byte.isLetter b then
      let lx := { lx with rest := after.dropWhile Byte.isNameByte }
      match lx.symbols.intern (spelling (b :: after.takeWhile Byte.isNameByte)) with
      | .error reason => (.error reason, lx)
      | .ok (id, symbols) => (.ok (nameToken symbols id), { lx with symbols })
    else if Byte.isDigit b then
      let (value, rest) := number b after
      (.ok (.number value), { lx with rest })
    else if Char.ofUInt8 b = '"' then
      match literal b after [] with
      | (none, rest) => (.error .unterminatedLiteral, { lx with rest })
      | (some bytes, rest) => (.ok (.string bytes), { lx with rest })
    else if Char.ofUInt8 b = '\'' then
      match literal b after [] with
      | (none, rest) => (.error .unterminatedLiteral, { lx with rest })
      | (some bytes, rest) =>
        (.ok (.number (Word.ofNat (bytes.getLast?.getD 0).toNat)), { lx with rest })
    else
      let (token, rest) := operator b after
      (.ok token, { lx with rest })

end Lexer

/-- What one reading step yields, with the line reached by it. -/
structure Lexeme where
  line : Nat
  token : Except Reason Token

namespace Lexer

/-- Reads up to the end of the source, at most `fuel` times, behind the lexemes already read, which
are kept in reverse. -/
def collect : Nat → Lexer → List Lexeme → List Lexeme × SymbolTable
  | 0, lx, read => (read.reverse, lx.symbols)
  | fuel + 1, lx, read =>
    match lx.next with
    | (.ok .eof, lx) => ((⟨lx.line, .ok .eof⟩ :: read).reverse, lx.symbols)
    | (token, lx) => collect fuel lx (⟨lx.line, token⟩ :: read)

/-- All lexemes of a source up to its end, errors included, and the table of the names met. Every
reading but the last takes a byte, so the length of the source bounds their number. -/
def lexemes (lx : Lexer) : List Lexeme × SymbolTable := collect (lx.rest.length + 1) lx []

end Lexer

/-- Lexemes still to be looked at, with their number at hand. -/
structure Lexemes where
  items : List Lexeme
  count : Nat
  count_eq : count = items.length

namespace Lexemes

def ofList (items : List Lexeme) : Lexemes := ⟨items, items.length, rfl⟩

/-- The first lexeme and those behind it. -/
def next? : Lexemes → Option (Lexeme × Lexemes)
  | ⟨[], _, _⟩ => none
  | ⟨first :: rest, count, h⟩ => some (first, ⟨rest, count - 1, by simp [h]⟩)

end Lexemes

end MiniC
