import MiniC.SymbolTable

/-!
# Symbol tables as text
-/

namespace MiniC

/-- The class as a table shows it. -/
def SymbolClass.text : SymbolClass → String
  | keyword k => "Keyword(" ++ k.name.capitalize ++ ")"
  | constant => "Num"
  | function => "Fun"
  | service s => "Sys(" ++ s.name.capitalize ++ ")"
  | globalVar => "Glo"
  | localVar => "Loc"
  | unbound => "Unbound"

/-- One line about a name: a function with its start in the code, a variable with its place, a
constant with its value. -/
def Symbol.describe (s : Symbol) : String :=
  let type := s.binding.type.text
  let value := s.binding.value
  let place := type ++ " " ++ s.name ++ " @ " ++ value.decimal ++ " (" ++ value.upperHex ++ ")"
  match s.binding.kind with
  | .function => type ++ " " ++ s.name ++ "() [" ++ value.hex ++ "]"
  | .keyword _ => "builtin: " ++ s.name
  | .service _ => "opcode: " ++ s.name ++ " = " ++ value.decimal
  | .globalVar | .localVar => place
  | .unbound => place ++ " (temporary)"
  | .constant => "enum " ++ s.name ++ " = " ++ value.decimal ++ " / " ++ value.upperHex

namespace SymbolTable

/-- The line about a name by its file-level binding. -/
def describe (t : SymbolTable) (id : SymbolId) : String :=
  Symbol.describe ⟨t.name id, t.fileBinding id⟩

/-- The lines about all names, then their number. -/
def dump (t : SymbolTable) : String :=
  String.join (t.symbols.toList.map fun s => s.describe ++ "\n")
    ++ "Symbol table: " ++ t.size.repr ++ " entries\n"

/-- All names with their classes, between braces. -/
def text (t : SymbolTable) : String :=
  let entries := t.symbols.toList.map fun s => s.name ++ " -> " ++ s.binding.kind.text
  "\x7b" ++ String.intercalate ", " entries ++ "\x7d"

end SymbolTable

end MiniC
