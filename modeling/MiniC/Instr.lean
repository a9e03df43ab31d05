import MiniC.CType

/-!
# Instructions

The machine has an accumulator, an operand stack and a frame pointer. A binary operation takes its
left operand from the stack and its right operand from the accumulator. Branch and call targets are
indices into the list of instructions, frame offsets count words from the frame pointer.
-/

namespace MiniC

/-- Work that the machine does for a program on request. -/
inductive Service where
  | fileOpen
  | fileRead
  | fileClose
  | printf
  | malloc
  | realloc
  | free
  | memset
  | memcmp
  | memcpy
  | stacktrace
  | exit
  deriving DecidableEq, Repr

namespace Service

/-- All services in the order of their opcodes. -/
def all : List Service :=
  [.fileOpen, .fileRead, .fileClose, .printf, .malloc, .realloc, .free, .memset, .memcmp, .memcpy,
    .stacktrace, .exit]

/-- The name that a program calls the service by. -/
def name : Service → String
  | .fileOpen => "open"
  | .fileRead => "read"
  | .fileClose => "close"
  | .printf => "printf"
  | .malloc => "malloc"
  | .realloc => "realloc"
  | .free => "free"
  | .memset => "memset"
  | .memcmp => "memcmp"
  | .memcpy => "memcpy"
  | .stacktrace => "stacktrace"
  | .exit => "exit"

def mnemonic : Service → String
  | .fileOpen => "OPEN"
  | .fileRead => "READ"
  | .fileClose => "CLOS"
  | .printf => "PRTF"
  | .malloc => "MALC"
  | .realloc => "RALC"
  | .free => "FREE"
  | .memset => "MSET"
  | .memcmp => "MCMP"
  | .memcpy => "MCPY"
  | .stacktrace => "STRC"
  | .exit => "EXIT"

end Service

inductive BinOp where
  | or
  | xor
  | and
  | eq
  | ne
  | lt
  | gt
  | le
  | ge
  | shl
  | shr
  | add
  | sub
  | mul
  | div
  | mod
  deriving DecidableEq, Repr

namespace BinOp

/-- All binary operations in the order of their opcodes. -/
def all : List BinOp :=
  [.or, .xor, .and, .eq, .ne, .lt, .gt, .le, .ge, .shl, .shr, .add, .sub, .mul, .div, .mod]

def mnemonic : BinOp → String
  | .or => "OR"
  | .xor => "XOR"
  | .and => "AND"
  | .eq => "EQ"
  | .ne => "NE"
  | .lt => "LT"
  | .gt => "GT"
  | .le => "LE"
  | .ge => "GE"
  | .shl => "SHL"
  | .shr => "SHR"
  | .add => "ADD"
  | .sub => "SUB"
  | .mul => "MUL"
  | .div => "DIV"
  | .mod => "MOD"

/-- The operator as it is written in a source text. -/
def symbol : BinOp → String
  | .or => "|"
  | .xor => "^"
  | .and => "&"
  | .eq => "=="
  | .ne => "!="
  | .lt => "<"
  | .gt => ">"
  | .le => "<="
  | .ge => ">="
  | .shl => "<<"
  | .shr => ">>"
  | .add => "+"
  | .sub => "-"
  | .mul => "*"
  | .div => "/"
  | .mod => "%"

end BinOp

/-- When a branch is taken, judged by the accumulator. -/
inductive Branch where
  | always
  | ifZero
  | ifNonzero
  deriving DecidableEq, Repr

inductive Instr where
  /-- Loads the address of a frame slot. -/
  | lea (offset : Word)
  /-- Loads a constant. -/
  | imm (value : Word)
  | branch (condition : Branch) (target : UInt64)
  | call (target : UInt64)
  /-- Calls the address kept in a word of memory. -/
  | callCell (address : Word)
  /-- Calls the address kept in a frame slot. -/
  | callSlot (offset : Word)
  /-- Opens a frame with room for the given number of locals. -/
  | enter (slots : Word)
  /-- Drops words from the stack. -/
  | adjust (count : Word)
  /-- Closes the frame and returns. -/
  | leave
  | load (width : Width)
  | store (width : Width)
  | push
  | binary (op : BinOp)
  | service (service : Service)
  deriving DecidableEq, Repr

namespace Instr

def mnemonic : Instr → String
  | lea _ => "LEA"
  | imm _ => "IMM"
  | branch .always _ => "JMP"
  | call _ => "JSR"
  | callCell _ => "JSRI"
  | callSlot _ => "JSRS"
  | branch .ifZero _ => "BZ"
  | branch .ifNonzero _ => "BNZ"
  | enter _ => "ENT"
  | adjust _ => "ADJ"
  | leave => "LEV"
  | load .word => "LI"
  | load .byte => "LC"
  | store .word => "SI"
  | store .byte => "SC"
  | push => "PSH"
  | binary op => op.mnemonic
  | service s => s.mnemonic

/-- The operand word, where the instruction carries one. A target is shown as a signed word. -/
def operand? : Instr → Option Word
  | lea n | imm n | callCell n | callSlot n | enter n | adjust n => some n
  | branch _ target | call target => some target.toInt64
  | _ => none

/-- Words that the instruction takes in the code region. -/
def words (i : Instr) : Nat := if i.operand?.isSome then 2 else 1

/-- The mnemonic filled up to four columns. -/
def paddedMnemonic (i : Instr) : String :=
  i.mnemonic ++ String.ofList (List.replicate (4 - i.mnemonic.length) ' ')

/-- The instruction as one line of text. -/
def text (i : Instr) : String :=
  match i.operand? with
  | some n => i.paddedMnemonic ++ " " ++ n.decimal
  | none => i.paddedMnemonic

/-- A row of a listing: four columns of margin before the text. -/
def row (i : Instr) : String := "    " ++ i.text

/-- Rows of a listing, each ended by a newline. -/
def listing (code : List Instr) : String := String.join (code.map fun i => i.row ++ "\n")

/-- The row that a traced run writes before it executes the instruction. -/
def traceRow (cycle : Nat) (i : Instr) : String := cycle.repr ++ "> " ++ i.text

end Instr

end MiniC
