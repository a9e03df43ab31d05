import MiniC.Instr

/-!
# Word encoding of code

An instruction is written as its opcode, followed by its operand word where it carries one. Opcodes
0 to 9 take an operand, 10 to 43 stand alone and every other word is no opcode.
-/

namespace MiniC

/-- Why a stream of words is no code, with the position of the word at fault. -/
inductive DecodeError where
  | unknownOpcode (opcode : Word) (position : Nat)
  | missingOperand (mnemonic : String) (position : Nat)
  deriving DecidableEq, Repr

namespace DecodeError

def message : DecodeError → String
  | unknownOpcode opcode position =>
    "unknown instruction = " ++ opcode.decimal ++ " at word " ++ position.repr
  | missingOperand mnemonic position =>
    "missing operand for " ++ mnemonic ++ " at word " ++ position.repr

end DecodeError

/-- The opcode of the first service; the others follow in order. -/
def Service.firstOpcode : Nat := 32

def Service.opcode (s : Service) : Nat := Service.firstOpcode + Service.all.idxOf s

/-- The opcode of the first binary operation; the others follow in order. -/
def BinOp.firstOpcode : Nat := 16

def BinOp.opcode (op : BinOp) : Nat := BinOp.firstOpcode + BinOp.all.idxOf op

namespace Instr

def opcode : Instr → Nat
  | lea _ => 0
  | imm _ => 1
  | branch .always _ => 2
  | call _ => 3
  | callCell _ => 4
  | callSlot _ => 5
  | branch .ifZero _ => 6
  | branch .ifNonzero _ => 7
  | enter _ => 8
  | adjust _ => 9
  | leave => 10
  | load .word => 11
  | load .byte => 12
  | store .word => 13
  | store .byte => 14
  | push => 15
  | binary op => op.opcode
  | service s => s.opcode

def encode (i : Instr) : List Word := Word.ofNat i.opcode :: i.operand?.toList

def encodeAll (code : List Instr) : List Word := code.flatMap encode

/-- The instruction with an opcode that takes an operand. -/
def withOperand? : Nat → Option (Word → Instr)
  | 0 => some lea
  | 1 => some imm
  | 2 => some fun n => branch .always n.toUInt64
  | 3 => some fun n => call n.toUInt64
  | 4 => some callCell
  | 5 => some callSlot
  | 6 => some fun n => branch .ifZero n.toUInt64
  | 7 => some fun n => branch .ifNonzero n.toUInt64
  | 8 => some enter
  | 9 => some adjust
  | _ => none

/-- The instruction with an opcode that stands alone. -/
def alone? : Nat → Option Instr
  | 10 => some leave
  | 11 => some (load .word)
  | 12 => some (load .byte)
  | 13 => some (store .word)
  | 14 => some (store .byte)
  | 15 => some push
  | n =>
    if n < BinOp.firstOpcode then none
    else if n < Service.firstOpcode then (BinOp.all[n - BinOp.firstOpcode]?).map binary
    else (Service.all[n - Service.firstOpcode]?).map service

/-- Decodes the words from `position` on. -/
def decodeFrom (position : Nat) : List Word → Except DecodeError (List Instr)
  | [] => .ok []
  | word :: rest =>
    match withOperand? word.toUnsigned, rest with
    | some make, operand :: rest =>
      (decodeFrom (position + 2) rest).map (make operand :: ·)
    | some make, [] => .error (.missingOperand (make 0).mnemonic position)
    | none, rest =>
      match alone? word.toUnsigned with
      | some i => (decodeFrom (position + 1) rest).map (i :: ·)
      | none => .error (.unknownOpcode word position)

def decode (words : List Word) : Except DecodeError (List Instr) := decodeFrom 0 words

end Instr

end MiniC
