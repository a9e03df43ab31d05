import MiniC.Machine.Start

/-!
# Sessions

A session compiles source files, one behind the other, as one source, and runs the program. It can
list the source with its code instead, show the symbol table and trace the run. All output goes to
one sink.
-/

namespace MiniC

structure Options where
  /-- List each source line with its code, and do not run. -/
  listing : Bool
  trace : Bool
  symbols : Bool
  poolSize : UInt64
  deriving DecidableEq, Repr

inductive SessionError where
  | usage
  | unreadable (path : String) (cause : FileError)
  | sourceTooLarge (capacity : Nat)
  | output (cause : String)
  | compile (error : CompileError)
  | fault (fault : Fault)
  deriving DecidableEq, Repr

def SessionError.message : SessionError → String
  | usage => "usage: c4 [-s] [-d] [-S] file ..."
  | unreadable path cause => "could not open(" ++ path ++ "): " ++ cause.message
  | sourceTooLarge capacity =>
    "could not read source: more than " ++ capacity.repr ++ " bytes"
  | output cause => "output error: " ++ cause
  | compile error => error.message
  | fault f => f.message

def SessionError.isCrash : SessionError → Bool
  | compile error => error.reason.isCrash
  | _ => false

/-- How a session ends. -/
inductive SessionEnd where
  | status (value : Word)
  | failed (error : SessionError)
  /-- The program had not ended after the steps that were allowed. -/
  | unfinished
  deriving DecidableEq, Repr

def SessionEnd.ofStop : Stop → SessionEnd
  | .exited value => .status value
  | .faulted f => .failed (.fault f)
  | .outOfFuel => .unfinished

namespace Session

/-- The files, one behind the other, behind the source already read. The size is checked behind each
file. -/
def loadSources (store : FileStore) (capacity : Nat) :
    List String → List UInt8 → Except SessionError (List UInt8)
  | [], source => .ok source
  | path :: rest, source =>
    match store.read path with
    | .error cause => .error (.unreadable path cause)
    | .ok bytes =>
      let source := source ++ bytes
      if source.length ≤ capacity then loadSources store capacity rest source
      else .error (.sourceTooLarge capacity)

/-- Compiles a source, with its listing where one is asked for. -/
def compile (options : Options) (source : List UInt8) (out : Sink) :
    Except CompileError Program × Sink :=
  let limits := Limits.ofPoolSize options.poolSize
  if options.listing then Program.compileListed source limits out
  else (Program.compile source limits, out)

/-- How far a session is: over, or about to run its program. -/
inductive Stage where
  | over (result : SessionEnd) (out : Sink)
  | ready (loaded : Loaded) (machine : Machine)

/-- Shows the symbol table where that is asked for and starts the program. -/
def startProgram (options : Options) (p : Program) (args : List String) (files : Descriptors)
    (out : Sink) : Stage :=
  let dump := if options.symbols then Utf8.encode p.symbols.dump else []
  let accepted := out.accepts dump
  let out := out.write dump
  if !accepted then .over (.failed (.output Sink.failure)) out
  else if options.listing then .over (.status 0) out
  else
    match p.start (Limits.ofPoolSize options.poolSize) args files out with
    | .ok _ machine => .ready (p.load options.trace) machine
    | .error stop machine => .over (.ofStop stop) machine.out

/-- Everything up to the run. The program's first argument is the last path. -/
def start (options : Options) (paths args : List String) (files : Descriptors) (out : Sink) :
    Stage :=
  match paths.getLast? with
  | none => .over (.failed .usage) out
  | some last =>
    let capacity := (Limits.ofPoolSize options.poolSize).source.toNat
    match loadSources files.store capacity paths [] with
    | .error e => .over (.failed e) out
    | .ok source =>
      match compile options source out with
      | (.error e, out) => .over (.failed (.compile e)) out
      | (.ok p, out) => startProgram options p (last :: args) files out

/-- A whole session. -/
def run (options : Options) (paths args : List String) (files : Descriptors) (out : Sink)
    (fuel : Nat) : SessionEnd × Sink :=
  match start options paths args files out with
  | .over result out => (result, out)
  | .ready loaded machine =>
    let (stop, machine) := machine.run loaded fuel
    (.ofStop stop, machine.out)

end Session

end MiniC
