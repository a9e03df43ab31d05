import MiniC.Fault
import MiniC.Limits

/-!
# Memory

One flat address space that starts at `dataBase`: the data segment, then the stack, which grows down
from its top, then the heap, which grows at the end. Every access is checked against the whole space
before it reads or writes.
-/

namespace MiniC

/-- The lowest address. Small integers, zero among them, are never addresses. -/
def dataBase : Nat := 0x10000

/-- A range of the heap, by its first address and its length. -/
structure Block where
  start : Nat
  size : Nat
  deriving DecidableEq, Repr

structure Memory where
  bytes : Array UInt8
  /-- The lowest address of the stack. -/
  stackBase : Nat
  /-- The address past the stack, where the heap begins. -/
  stackTop : Nat
  heapLimit : Nat
  /-- Blocks in use. -/
  live : List Block
  /-- Blocks given back, the oldest first. -/
  freed : List Block
  deriving DecidableEq, Repr

namespace Memory

/-- The number of bytes of the stack. -/
def stackSize (m : Memory) : Nat := (Word.ofNat m.stackTop - Word.ofNat m.stackBase).toUnsigned

/-- The index of the first byte of a range, all of which has to lie in memory. -/
def index (m : Memory) (address : Word) (length : UInt64) : Except Fault Nat :=
  match (address.checkedSub (Word.ofNat dataBase)).bind Word.toSize? with
  | none => .error (.segfault address length.toNat)
  | some start =>
    match checkedAdd start length with
    | none => .error (.segfault address length.toNat)
    | some stop =>
      if stop.toNat ≤ m.bytes.size then .ok start.toNat
      else .error (.segfault address length.toNat)

/-- The bytes at `start`, which is an index and no address. -/
def slice (m : Memory) (start length : Nat) : List UInt8 :=
  (m.bytes.extract start (start + length)).toList

/-- Puts bytes at `start`, one after the other. -/
def overwrite (bytes : Array UInt8) (start : Nat) : List UInt8 → Array UInt8
  | [] => bytes
  | b :: rest => overwrite (bytes.setIfInBounds start b) (start + 1) rest

/-- Memory with bytes at an index. -/
@[inline]
def put (m : Memory) (start : Nat) (bytes : List UInt8) : Memory :=
  { m with bytes := overwrite m.bytes start bytes }

/-- Puts the same byte at `count` places from `start` on. -/
def overwriteAll (bytes : Array UInt8) (start : Nat) (value : UInt8) : Nat → Array UInt8
  | 0 => bytes
  | count + 1 => overwriteAll (bytes.setIfInBounds (start + count) value) start value count

/-- Memory for a program with the given data segment. The data region grows to hold it where the
limits are smaller. -/
def ofData (data : Array UInt8) (limits : Limits) : Memory :=
  let dataSize := align (max limits.data (UInt64.ofNat data.size))
  let stackSize := align limits.stack
  { bytes := overwrite (Array.replicate (dataSize + stackSize).toNat 0) 0 data.toList
    stackBase := dataBase + dataSize.toNat
    stackTop := dataBase + (dataSize + stackSize).toNat
    heapLimit := limits.heap.toNat
    live := []
    freed := [] }

/-! ## Reading -/

/-- The bytes of a range. -/
def read (m : Memory) (address : Word) (length : UInt64) : Except Fault (List UInt8) := do
  let start ← m.index address length
  return m.slice start length.toNat

def loadWord (m : Memory) (address : Word) : Except Fault Word :=
  (m.read address (UInt64.ofNat wordSize)).map Word.ofBytes

/-- Bytes are signed. -/
def loadByte (m : Memory) (address : Word) : Except Fault Word :=
  (m.read address 1).map fun bytes => Word.ofByte (bytes.headD 0)

/-- The index of the first NUL among `count` bytes from `start` on. -/
def findNul? (bytes : Array UInt8) (start : Nat) : Nat → Option Nat
  | 0 => none
  | count + 1 => if bytes[start]? = some 0 then some start else findNul? bytes (start + 1) count

/-- The bytes from an address up to the next NUL. Without a NUL the fault is that of reading one
byte past the end. -/
def cstring (m : Memory) (address : Word) : Except Fault (List UInt8) := do
  let start ← m.index address 0
  match findNul? m.bytes start (m.bytes.size - start) with
  | some nul => return m.slice start (nul - start)
  | none => .error (.segfault address (m.bytes.size - start + 1))

/-- A length that must not be negative. -/
def span (address length : Word) : Except Fault UInt64 :=
  match length.toSize? with
  | some length => .ok length
  | none => .error (.segfault address 0)

/-- The difference of the first two bytes that differ, as unsigned bytes, or zero. -/
def compare (m : Memory) (left right length : Word) : Except Fault Word := do
  let length ← span left length
  let lefts ← m.read left length
  let rights ← m.read right length
  match (lefts.zip rights).find? fun (l, r) => l != r with
  | some (l, r) => .ok (Word.ofNat l.toNat - Word.ofNat r.toNat)
  | none => .ok 0

/-! ## Writing -/

/-- An access that may change memory. What it has changed before it fails stays changed. -/
abbrev Access := EStateM Fault Memory

/-- A check, or anything else that only looks at memory. -/
@[inline]
def look {α : Type} (view : Memory → Except Fault α) : Access α := fun m =>
  match view m with
  | .ok a => .ok a m
  | .error f => .error f m

/-- Puts bytes at an address. -/
@[inline]
def write (address : Word) (bytes : List UInt8) : Access Unit := do
  let start ← look (·.index address (UInt64.ofNat bytes.length))
  modify (·.put start bytes)

@[inline]
def storeWord (address value : Word) : Access Unit := write address value.toBytes

@[inline]
def storeByte (address value : Word) : Access Unit := write address [value.lowByte]

@[inline]
def fill (address : Word) (value : UInt8) (length : Word) : Access Unit := do
  let length ← look fun _ => span address length
  let start ← look (·.index address length)
  modify fun m => { m with bytes := overwriteAll m.bytes start value length.toNat }

/-- Copies a range as it was before, also onto an overlapping one. -/
@[inline]
def copy (dest source length : Word) : Access Unit := do
  let length ← look fun _ => span dest length
  let start ← look (·.index source length)
  let target ← look (·.index dest length)
  modify fun m => m.put target (m.slice start length.toNat)

end Memory

end MiniC
