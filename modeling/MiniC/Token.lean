import MiniC.Instr
import MiniC.Text.Utf8

/-!
# Tokens

The words of a source text. An identifier is known by its number in the symbol table, a character
literal is a number, and a string literal holds its bytes with the escapes already resolved.
-/

namespace MiniC

/-- Number of a name in the symbol table. -/
abbrev SymbolId := Nat

inductive Keyword where
  | charKw
  | elseKw
  | enumKw
  | ifKw
  | intKw
  | returnKw
  | sizeofKw
  | whileKw
  deriving DecidableEq, Repr

namespace Keyword

def name : Keyword → String
  | charKw => "char"
  | elseKw => "else"
  | enumKw => "enum"
  | ifKw => "if"
  | intKw => "int"
  | returnKw => "return"
  | sizeofKw => "sizeof"
  | whileKw => "while"

/-- Every spelling of a keyword, in the order in which the symbol table lists them. -/
def spellings : List (String × Keyword) :=
  [("char", charKw), ("else", elseKw), ("enum", enumKw), ("if", ifKw), ("int", intKw),
    ("return", returnKw), ("sizeof", sizeofKw), ("while", whileKw), ("void", charKw)]

end Keyword

inductive Token where
  /-- The end of the source. -/
  | eof
  /-- A byte that begins no token. -/
  | illegal (byte : UInt8)
  | ident (id : SymbolId)
  | number (value : Word)
  | string (bytes : List UInt8)
  | keyword (keyword : Keyword)
  | binary (op : BinOp)
  | assign
  | question
  | orElse
  | andAlso
  | increment
  | decrement
  | leftBracket
  | bang
  | tilde
  | semicolon
  | colon
  | comma
  | leftParen
  | rightParen
  | rightBracket
  | leftBrace
  | rightBrace
  deriving DecidableEq, Repr

namespace Token

/-- The token as messages show it. -/
def text : Token → String
  | eof => "EOF"
  | illegal byte => "ILLEGAL: " ++ String.singleton (Char.ofUInt8 byte)
  | ident id => "identifier #" ++ id.repr
  | number value => value.decimal
  | string bytes => "\"" ++ Utf8.decode bytes ++ "\""
  | keyword k => k.name
  | binary op => op.symbol
  | assign => "="
  | question => "?"
  | orElse => "||"
  | andAlso => "&&"
  | increment => "++"
  | decrement => "--"
  | leftBracket => "["
  | bang => "!"
  | tilde => "~"
  | semicolon => ";"
  | colon => ":"
  | comma => ","
  | leftParen => "("
  | rightParen => ")"
  | rightBracket => "]"
  | leftBrace => "\x7b"
  | rightBrace => "\x7d"

end Token

end MiniC
