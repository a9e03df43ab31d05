import MiniC.Text.Utf8

/-!
# Where output goes

A sink keeps what is written to it. One with a capacity keeps the first bytes up to it; the writing
that would pass the capacity fills the sink and fails.
-/

namespace MiniC

structure Sink where
  written : Array UInt8
  /-- How many bytes the sink keeps in all, if there is a bound. -/
  capacity : Option Nat
  deriving DecidableEq, Repr

namespace Sink

def empty (capacity : Option Nat) : Sink := ⟨#[], capacity⟩

/-- What a failed writing is put down to. -/
def failure : String := "sink full"

/-- Whether the bytes can be written without failing. -/
def accepts (sink : Sink) (bytes : List UInt8) : Bool :=
  match sink.capacity with
  | none => true
  | some capacity => bytes.isEmpty || sink.written.size + bytes.length ≤ capacity

/-- Keeps as many of the bytes as there is room for. -/
def write (sink : Sink) (bytes : List UInt8) : Sink :=
  match sink.capacity with
  | none => { sink with written := sink.written ++ bytes }
  | some capacity =>
    { sink with written := sink.written ++ bytes.take (capacity - sink.written.size) }

end Sink

end MiniC
