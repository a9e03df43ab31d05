/-!
# Region sizes

Every region of the compiler and of the machine has a fixed capacity. All of them follow from one
number, the pool size, which can be halved and doubled in whole steps. Sizes are unsigned 64-bit and
saturate.
-/

namespace MiniC

/-- Capacities of the regions: `symbols` counts records, `code` counts words, the others count
bytes. -/
structure Limits where
  symbols : UInt64
  code : UInt64
  data : UInt64
  stack : UInt64
  source : UInt64
  heap : UInt64
  deriving DecidableEq, Repr

/-- The size with value `n`, or the greatest size when `n` does not fit. -/
def saturate (n : Nat) : UInt64 := UInt64.ofNat (min n (UInt64.size - 1))

namespace Limits

/-- Bytes of the pool that pay for one symbol record: nine words. -/
def symbolRecordSize : Nat := 72

/-- How many pools the heap may grow to. -/
def heapFactor : Nat := 64

def defaultPoolSize : UInt64 := 262144

/-- The capacities that a pool of the given size pays for. One byte of the source region stays free.
-/
def ofPoolSize (pool : UInt64) : Limits where
  symbols := UInt64.ofNat (pool.toNat / symbolRecordSize)
  code := UInt64.ofNat (pool.toNat / 8)
  data := pool
  stack := pool
  source := UInt64.ofNat (pool.toNat - 1)
  heap := saturate (pool.toNat * heapFactor)

/-- Halves a size the given number of times, each time rounding down. -/
def halve (size : UInt64) : Nat → UInt64
  | 0 => size
  | n + 1 => halve (UInt64.ofNat (size.toNat / 2)) n

/-- Doubles a size the given number of times, each time saturating. -/
def double (size : UInt64) : Nat → UInt64
  | 0 => size
  | n + 1 => double (saturate (size.toNat * 2)) n

/-- All halvings come before the doublings, so a halving that rounds is not undone. -/
def scalePoolSize (base : UInt64) (halvings doublings : Nat) : UInt64 :=
  double (halve base halvings) doublings

end Limits

end MiniC
