import MiniC.Session

/-!
# The command line

Words before `--` are options and source files, words behind it are the arguments of the program.
Letters after one dash are flags, several of which may stand together. The pool size comes from
`--pool-size`, else from the environment, and is then halved and doubled as the flags say.
-/

namespace MiniC

/-- What the words of a command line ask for. -/
structure CommandLine where
  listing : Bool
  trace : Bool
  symbols : Bool
  halvings : Nat
  doublings : Nat
  poolSize : Option UInt64
  paths : List String
  args : List String
  deriving DecidableEq, Repr

namespace CommandLine

def empty : CommandLine := ⟨false, false, false, 0, 0, none, [], []⟩

/-- An unsigned decimal number that fits 64 bits, with an optional plus in front. -/
def size? (text : String) : Option UInt64 :=
  let digits := match text.toList with
    | '+' :: rest => rest
    | chars => chars
  if digits.isEmpty || !digits.all Char.isDigit then none
  else
    let value := digits.foldl (fun n d => n * 10 + (d.toNat - '0'.toNat)) 0
    if value < UInt64.size then some (UInt64.ofNat value) else none

/-- Adds a flag. The flags that do not count may be given once. -/
def flag? (c : CommandLine) : Char → Option CommandLine
  | 's' => if c.listing then none else some { c with listing := true }
  | 'd' => if c.trace then none else some { c with trace := true }
  | 'S' => if c.symbols then none else some { c with symbols := true }
  | 'p' => some { c with halvings := c.halvings + 1 }
  | 'P' => some { c with doublings := c.doublings + 1 }
  | _ => none

def setPoolSize? (c : CommandLine) (text : String) : Option CommandLine :=
  match c.poolSize with
  | some _ => none
  | none => (size? text).map fun n => { c with poolSize := some n }

/-- Adds a word that stands alone: a source file, flags, or the pool size behind an equals sign. -/
def word? (c : CommandLine) (word : String) : Option CommandLine :=
  match word.toList with
  | [] => none
  | '-' :: '-' :: chars =>
    let name := "pool-size=".toList
    if name.isPrefixOf chars then c.setPoolSize? (String.ofList (chars.drop name.length)) else none
  | '-' :: letter :: letters => (letter :: letters).foldlM flag? c
  | _ => some { c with paths := c.paths ++ [word] }

/-- Reads the words of a command line, behind those already read. -/
def parse? (c : CommandLine) : List String → Option CommandLine
  | [] => some c
  | "--" :: args => some { c with args }
  | "--pool-size" :: value :: rest =>
    if value.startsWith "-" then none else (c.setPoolSize? value).bind fun c => parse? c rest
  | word :: rest => (c.word? word).bind fun c => parse? c rest

/-- The pool size before it is scaled. A bad value in the environment is refused where it would be
used. -/
def basePoolSize? (c : CommandLine) (environment : Option String) : Option UInt64 :=
  match c.poolSize, environment with
  | some n, _ => some n
  | none, some text => size? text
  | none, none => some Limits.defaultPoolSize

/-- The options of the session, unless the words ask for none that can be run. -/
def options? (c : CommandLine) (environment : Option String) : Option Options :=
  if c.paths.isEmpty then none
  else (c.basePoolSize? environment).map fun base =>
    ⟨c.listing, c.trace, c.symbols, Limits.scalePoolSize base c.halvings c.doublings⟩

/-- The exit code for a status: its low eight bits. -/
def exitCode (status : Word) : Nat := status.toUnsigned % 256

/-- The exit code of every failure. -/
def failureCode : Nat := 255

/-- The exit code of a crash. -/
def crashCode : Nat := 101

/-- The exit code at the end of a session, and what is written last. -/
def report : SessionEnd → Nat × List UInt8
  | .status value => (exitCode value, [])
  | .failed e =>
    if e.isCrash then (crashCode, []) else (failureCode, Utf8.encode (e.message ++ "\n"))
  | .unfinished => (failureCode, [])

/-- The options, source files and program arguments that the words ask for, unless they are refused.
-/
def read? (words : List String) (environment : Option String) :
    Option (Options × List String × List String) := do
  let c ← empty.parse? words
  let options ← c.options? environment
  return (options, c.paths, c.args)

/-- Runs a command line: the exit code and the standard output, or nothing where the words are
refused. -/
def run? (words : List String) (environment : Option String) (files : Descriptors) (fuel : Nat) :
    Option (Nat × Sink) := do
  let (options, paths, args) ← read? words environment
  let (result, out) := Session.run options paths args files (Sink.empty none) fuel
  let (code, last) := report result
  return (code, out.write last)

end CommandLine

end MiniC
