import MiniC.Proofs.Compiling.Statements
import MiniC.Proofs.Source.Generating

/-!
# The code of a return statement

An expression that is printed with parentheses only where the grammar of the operators needs them
has, behind `return`, the code that recursion on its tree gives.
-/

namespace MiniC

open Source

/-- The token that is looked at and those behind it are the lexemes of the text, read with a table
in which names have the numbers that they have in the state. -/
def Compile.State.Faces (s : Compile.State) (text : List UInt8) : Prop :=
  ∃ (lx : Lexer) (line : Nat), lx.rest = text ∧ lx.symbols.Fresh ∧
    lx.lexemes.1 = ⟨line, .ok s.current⟩ :: s.rest.items ∧
    lx.lexemes.2.lookup = s.symbols.lookup

namespace Source

/-- The statement that returns an expression, with no more parentheses than needed. -/
def Expr.returnText (e : Expr) : String :=
  textOf (.keyword .returnKw :: e.print Level.assignment ++ [semicolon])

theorem idOf_congr {t t' : SymbolTable} (h : t.lookup = t'.lookup) : idOf t = idOf t' := by
  funext x
  rw [idOf, idOf, h]

theorem Spells.of_follows {t : Reading} {l : Lex} {ls : List Lex} {line : Nat} {token : Token}
    {lexemes : List Lexeme}
    (h : Follows t (t.first :: t.more) (l :: ls) (⟨line, .ok token⟩ :: lexemes)) :
    Spells t (l :: ls) ⟨token, lexemes⟩ := by
  obtain ⟨⟨htoken, hfound⟩ | ⟨reason, hreason⟩, hfollows⟩ := h
  · exact ⟨Except.ok.inj htoken, hfound, hfollows⟩
  · simp at hreason

end Source

/-- A statement that returns an expression, with the parentheses that the levels of the grammar need
and no others, is compiled to the code that recursion on the tree gives, and a return. -/
theorem code_of_return {s s' : Compile.State} {levels : Nat} {e : Expr} {tail : List UInt8}
    (hfaces : s.Faces (Utf8.encode e.returnText ++ tail))
    (hint : ∀ x ∈ e.names, (s.symbols.binding (idOf s.symbols x)).IsInt)
    (h : Compile.stmt levels s = .ok () s') :
    s'.code.toList = s.code.toList ++
      (e.code (s.context.env (idOf s.symbols)) s.code.size ++ [.leave]) := by
  obtain ⟨⟨_, line, t₀⟩, line', rfl, hfresh, hlexemes, hnames⟩ := hfaces
  obtain ⟨first, more, lexemes, t, htext, -, hfollows, -⟩ :=
    lexemes_textOf hfresh (.keyword .returnKw :: e.print Level.assignment) rfl (.inl rfl) tail line
  have htext : Lexer.lexemes ⟨Utf8.encode e.returnText ++ tail, line, t₀⟩ = (lexemes, t) := htext
  rw [htext] at hlexemes hnames
  obtain rfl : lexemes = _ := hlexemes
  rw [← idOf_congr hnames] at hint ⊢
  obtain ⟨m, tree, -, hprint⟩ := e.text_print t Level.assignment (by decide)
  obtain ⟨st, c, hread, hgen, hgrows⟩ := Compile.stmt_ok levels s () s' h
  have hyields : Yields ⟨t, first, more⟩ (Syntax.Parser.stmt levels)
      (.keyword .returnKw :: e.print Level.assignment ++ [semicolon]) (.ret (some tree)) [] := by
    cases levels with
    | zero => exact .failure _ _ _
    | succ levels => exact .current (return_yields levels hprint [])
  have hspells : Spells ⟨t, first, more⟩
      (.keyword .returnKw :: e.print Level.assignment ++ [semicolon]) s.stream :=
    Spells.of_follows hfollows
  rw [← List.append_nil (_ ++ _)] at hspells
  obtain ⟨rfl, -, -⟩ := hyields s.stream st s'.stream hspells hread
  obtain ⟨type, c', hgen', rfl⟩ := Syntax.Stmt.generate_ret_some hgen
  rw [hgrows.code_eq, Syntax.Chunk.code_append, Syntax.Chunk.code_append,
    (hprint.coded hint hgen').code_eq]
  rfl

section Example

def Source.Name.a : Name := ⟨"a", by decide +kernel⟩

def Source.Name.b : Name := ⟨"b", by decide +kernel⟩

/-- `a = b ? 1 - 2 - 3 : - 4 * (b + a) || b`. -/
def mixedExpr : Expr :=
  .assign .a (.cond (.var .b) (.binary .sub (.binary .sub (.literal 1) (.literal 2)) (.literal 3))
    (.logic .or (.binary .mul (.unary .negate (.literal 4)) (.binary .add (.var .b) (.var .a)))
      (.var .b)))

/-- The lexemes of the return statement and the table of its names. -/
def returnLexemes : List Lexeme × SymbolTable :=
  (Lexer.ofSource (Utf8.encode mixedExpr.returnText) (.builtin 100)).lexemes

/-- In front of the return statement, in a function with a parameter `b` and a local `a`. -/
def beforeReturn : Compile.State where
  current := .keyword .returnKw
  line := 1
  rest := .ofList returnLexemes.1.tail
  symbols :=
    { returnLexemes.2 with scopes :=
      [[(idOf returnLexemes.2 .a, ⟨.localVar, .int, 3⟩),
        (idOf returnLexemes.2 .b, ⟨.localVar, .int, 0⟩)]] }
  code := #[.enter 1]
  words := 2
  data := #[]
  frame := 2
  limits := .ofPoolSize Limits.defaultPoolSize
  listing := none

theorem code_of_return_mixed :
    ∃ s', beforeReturn.Faces (Utf8.encode mixedExpr.returnText) ∧
      Compile.stmt Compile.maxNesting beforeReturn = .ok () s' ∧
      s'.code.toList = .enter 1 ::
        (mixedExpr.code (beforeReturn.context.env (idOf beforeReturn.symbols)) 1 ++ [.leave]) := by
  have hok : (match Compile.stmt Compile.maxNesting beforeReturn with
      | .ok _ _ => true
      | .error _ _ => false) = true := by
    decide +kernel
  have hhead : returnLexemes.1.head?.map (fun l => (l.line, l.token.toOption)) =
      some (1, some (.keyword .returnKw)) := by
    decide +kernel
  have hfaces : beforeReturn.Faces (Utf8.encode mixedExpr.returnText ++ []) := by
    refine ⟨.ofSource (Utf8.encode mixedExpr.returnText) (.builtin 100), 1,
      (List.append_nil _).symm, SymbolTable.fresh_builtin 100, ?_, rfl⟩
    show returnLexemes.1 = ⟨1, .ok (.keyword .returnKw)⟩ :: returnLexemes.1.tail
    rcases hlexemes : returnLexemes.1 with _ | ⟨⟨line, _ | token⟩, lexemes⟩ <;>
      simp_all [Except.toOption]
  have hint : ∀ x ∈ mixedExpr.names, (beforeReturn.symbols.binding
      (idOf beforeReturn.symbols x)).kind = .localVar ∧
      (beforeReturn.symbols.binding (idOf beforeReturn.symbols x)).type = .int := by
    decide +kernel
  cases h : Compile.stmt Compile.maxNesting beforeReturn with
  | error e s' => simp [h] at hok
  | ok u s' =>
    refine ⟨s', by simpa using hfaces, rfl, code_of_return hfaces (fun x hx => ?_) h⟩
    obtain ⟨hkind, htype⟩ := hint x hx
    exact ⟨by rw [hkind]; decide, .inl htype⟩

end Example

end MiniC
