import MiniC.Diagnostic
import MiniC.Instr.Encoding
import MiniC.Token

/-!
# The symbol table

Every name that a source mentions has one record, numbered in order of first appearance, and an
index leads from the names to their numbers. The record holds the file-level binding of the name.
Parameters and locals live in a scope, which hides the file-level bindings while it is open.
Keywords and services come first in every table, followed by the entry point, and keep their
bindings for good.
-/

namespace MiniC

/-- What a name stands for. -/
inductive SymbolClass where
  | keyword (keyword : Keyword)
  | constant
  | function
  | service (service : Service)
  | globalVar
  | localVar
  | unbound
  deriving DecidableEq, Repr

/-- A class, a type and a value: the value is a constant, an index into the code, an address or a
frame slot, as the class says. -/
structure Binding where
  kind : SymbolClass
  type : CType
  value : Word
  deriving DecidableEq, Repr

def Binding.unbound : Binding := ⟨.unbound, .char, 0⟩

structure Symbol where
  name : String
  binding : Binding
  deriving DecidableEq, Repr

/-- Parameters and locals of one function. -/
abbrev Scope := List (SymbolId × Binding)

/-- The records by number, and the numbers by name. -/
structure SymbolTable where
  symbols : Array Symbol
  index : List (String × SymbolId)
  scopes : List Scope
  capacity : Nat
  deriving DecidableEq, Repr

namespace SymbolTable

/-- The name of the function that a program starts with. -/
def entryName : String := "main"

def keywordSymbols : List Symbol :=
  Keyword.spellings.map fun (name, k) => ⟨name, ⟨.keyword k, .char, 0⟩⟩

def serviceSymbols : List Symbol :=
  Service.all.map fun s => ⟨s.name, ⟨.service s, .int, Word.ofNat s.opcode⟩⟩

/-- The number of the entry point, which is the first name after the keywords and services. -/
def entry : SymbolId := keywordSymbols.length + serviceSymbols.length

/-- The records that every table begins with. -/
def builtinSymbols : List Symbol := keywordSymbols ++ serviceSymbols ++ [⟨entryName, .unbound⟩]

def size (t : SymbolTable) : Nat := t.symbols.size

/-- One more record, with the next number. -/
@[inline]
def add (t : SymbolTable) (symbol : Symbol) : SymbolTable :=
  { t with symbols := t.symbols.push symbol, index := (symbol.name, t.size) :: t.index }

/-- The table before any source is read. Its records are there even when the capacity is smaller. -/
def builtin (capacity : Nat) : SymbolTable := builtinSymbols.foldl add ⟨#[], [], [], capacity⟩

def lookup (t : SymbolTable) (name : String) : Option SymbolId := t.index.lookup name

def name (t : SymbolTable) (id : SymbolId) : String :=
  match t.symbols[id]? with
  | some s => s.name
  | none => ""

/-- The file-level binding. -/
def fileBinding (t : SymbolTable) (id : SymbolId) : Binding :=
  match t.symbols[id]? with
  | some s => s.binding
  | none => .unbound

/-- The binding that a use of the name means: that of the innermost scope, else the file-level one.
-/
def binding (t : SymbolTable) (id : SymbolId) : Binding :=
  match t.scopes with
  | [] => t.fileBinding id
  | scope :: _ => (scope.lookup id).getD (t.fileBinding id)

def isBuiltin (id : SymbolId) : Bool := id < entry

/-- The number of a name, which is entered into the table if it is new and there is room. -/
@[inline]
def intern (t : SymbolTable) (name : String) : Except Reason (SymbolId × SymbolTable) :=
  match t.lookup name with
  | some id => .ok (id, t)
  | none =>
    if t.size < t.capacity then .ok (t.size, t.add ⟨name, .unbound⟩)
    else .error (.capacityExceeded .symbols t.capacity)

/-- Sets the file-level binding. Keywords and services refuse. -/
@[inline]
def define? (t : SymbolTable) (id : SymbolId) (binding : Binding) : Option SymbolTable :=
  if isBuiltin id then none
  else some { t with symbols := t.symbols.modify id fun s => { s with binding } }

@[inline]
def openScope (t : SymbolTable) : SymbolTable := { t with scopes := [] :: t.scopes }

@[inline]
def closeScope (t : SymbolTable) : SymbolTable := { t with scopes := t.scopes.tail }

/-- Binds a parameter or local in the innermost scope, unless the name is bound there already. -/
@[inline]
def declareLocal? (t : SymbolTable) (id : SymbolId) (type : CType) (slot : Word) :
    Option SymbolTable :=
  match t.scopes with
  | [] => none
  | scope :: outer =>
    if (scope.lookup id).isSome then none
    else some { t with scopes := ((id, ⟨.localVar, type, slot⟩) :: scope) :: outer }

/-- The first function whose code starts at the given index. -/
def functionAt? (t : SymbolTable) (address : Nat) : Option SymbolId :=
  t.symbols.findIdx? fun s => s.binding.kind = .function ∧ s.binding.value = Word.ofNat address

end SymbolTable

end MiniC
