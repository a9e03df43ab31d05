import MiniC.Proofs.Source.Grammar

/-!
# Parsing a printed program

A parser that succeeds on the text of a program yields the program (`parse_eq_trees`), in which
names have the numbers that reading the text gave them.
-/

namespace MiniC.Source

open Syntax (Stream Parser)

/-! ## Trees -/

mutual

def Stmt.tree (ν : Name → SymbolId) : Stmt → Syntax.Stmt
  | .expr e => .expr (e.tree ν)
  | .ifThen test yes => .ifThen (test.tree ν) (.block (Stmt.treeAll ν yes))
  | .ifElse test yes no =>
    .ifElse (test.tree ν) (.block (Stmt.treeAll ν yes)) (.block (Stmt.treeAll ν no))
  | .whileLoop test body => .whileLoop (test.tree ν) (.block (Stmt.treeAll ν body))
  | .ret none => .ret none
  | .ret (some e) => .ret (some (e.tree ν))
  | .block body => .block (Stmt.treeAll ν body)
  | .skip => .empty

def Stmt.treeAll (ν : Name → SymbolId) : List Stmt → List Syntax.Stmt
  | [] => []
  | s :: rest => s.tree ν :: Stmt.treeAll ν rest

end

def variableTree (ν : Name → SymbolId) (x : Name) : Syntax.Variable := ⟨.int, ν x⟩

def Function.tree (ν : Name → SymbolId) (f : Function) : Syntax.Item :=
  .function (ν f.name) .int (f.params.map (variableTree ν)) (f.locals.map (variableTree ν))
    (Stmt.treeAll ν f.body)

def Parts.trees (ν : Name → SymbolId) (p : Parts) : List Syntax.Item :=
  p.globals.map (fun x => .globalVar .int (ν x)) ++ p.definitions.map (Function.tree ν)

variable {t : Reading}

/-! ## Expressions -/

/-- Expressions are read with any number of nesting levels left. -/
theorem expr_yields (levels : Nat) (e : Expr) {token : Token} {hmark : isMark token = true}
    (hends : Ends token) (rest : List Lex) :
    Yields t (Syntax.Parser.expr levels .assign) e.lexes (e.tree (idOf t))
      (.mark token hmark :: rest) :=
  (e.text_lexes t).climbs.closed levels (by decide) hends

/-! ## Statements -/

/-- Tokens that begin a statement. -/
def startsStmt (token : Token) : Bool :=
  startsExpr token || token = .leftBrace || token = .semicolon || token = .keyword .ifKw ||
    token = .keyword .whileKw || token = .keyword .returnKw

theorem Stmt.lexes_ne_nil (s : Stmt) : s.lexes ≠ [] := by
  cases s with
  | ret value => cases value <;> simp [Stmt.lexes]
  | _ => simp [Stmt.lexes, inBraces]

theorem Stmt.startsStmt_lexes (s : Stmt) (rest : List Lex) :
    startsStmt (headToken t (s.lexes ++ rest)) = true := by
  rw [headToken_append s.lexes_ne_nil]
  cases s with
  | expr e =>
    rw [Stmt.lexes, startsStmt, (e.text_lexes t).startsExpr_headToken]
    rfl
  | ret value => cases value <;> rw [Stmt.lexes] <;> rfl
  | _ =>
    rw [Stmt.lexes]
    rfl

theorem Stmt.headToken_ne (s : Stmt) {token : Token} (h : startsStmt token = false)
    (rest : List Lex) : headToken t (s.lexes ++ rest) ≠ token := by
  intro heq
  have hstart := s.startsStmt_lexes (t := t) rest
  rw [heq, h] at hstart
  exact Bool.false_ne_true hstart

theorem headToken_lexesAll_ne {ss : List Stmt} {token : Token} (h : startsStmt token = false)
    (hbrace : token ≠ .rightBrace) (rest : List Lex) :
    headToken t (Stmt.lexesAll ss ++ .mark .rightBrace :: rest) ≠ token := by
  cases ss with
  | nil =>
    rw [Stmt.lexesAll]
    exact hbrace.symm
  | cons s ss =>
    rw [Stmt.lexesAll, List.append_assoc]
    exact s.headToken_ne h _

/-- A parser of statements. An `else` may be behind a block only. -/
structure ReadsStmts (t : Reading) (body : Parser Syntax.Stmt) : Prop where
  stmt : ∀ (s : Stmt) (rest : List Lex), headToken t rest ≠ .keyword .elseKw →
    Yields t body s.lexes (s.tree (idOf t)) rest
  block : ∀ (ss : List Stmt) (rest : List Lex),
    Yields t body (inBraces (Stmt.lexesAll ss)) (.block (Stmt.treeAll (idOf t) ss)) rest

section Bodies

variable {body : Parser Syntax.Stmt} (hbody : ReadsStmts t body)

include hbody

theorem statements_yields (ss : List Stmt) (rest : List Lex) :
    Yields t (Syntax.Parser.statements body) (Stmt.lexesAll ss) (Stmt.treeAll (idOf t) ss)
      (.mark .rightBrace :: rest) := by
  refine Collects.collect ?_
  induction ss with
  | nil =>
    rw [Stmt.lexesAll, Stmt.treeAll]
    exact .nil rfl
  | cons s ss ih =>
    rw [Stmt.lexesAll, Stmt.treeAll]
    refine .cons (decide_eq_true (s.headToken_ne rfl _)) s.lexes_ne_nil (.current ?_) ih
    rw [if_neg (s.headToken_ne rfl _)]
    exact hbody.stmt s _ (headToken_lexesAll_ne (by decide) (by decide) rest)

/-- Statements in braces. -/
theorem block_yields (levels : Nat) (ss : List Stmt) (rest : List Lex) :
    Yields t (Syntax.Parser.statement (Syntax.Parser.expr levels) body)
      (inBraces (Stmt.lexesAll ss)) (.block (Stmt.treeAll (idOf t) ss)) rest := by
  refine .current (.advance (Yields.bind (statements_yields hbody ss rest) ?_))
  exact .advance (.pure _ rest)

end Bodies

theorem condition_yields (levels : Nat) (e : Expr) (rest : List Lex) :
    Yields t (Syntax.Parser.condition (Syntax.Parser.expr levels)) (inParens e.lexes)
      (e.tree (idOf t)) rest := by
  refine .expect rfl (Yields.bind (expr_yields levels e ends_rightParen rest) ?_)
  exact .expect rfl (.pure _ rest)

/-- A statement that is an expression. -/
theorem expression_yields (levels : Nat) (body : Parser Syntax.Stmt) (e : Expr) (rest : List Lex) :
    Yields t (Syntax.Parser.statement (Syntax.Parser.expr levels) body) (e.lexes ++ [semicolon])
      (.expr (e.tree (idOf t))) rest := by
  have hexpr : Yields t (do
      let e ← Syntax.Parser.expr levels .assign
      Syntax.Parser.expect .semicolon
      return Syntax.Stmt.expr e) (e.lexes ++ [semicolon]) (.expr (e.tree (idOf t))) rest :=
    Yields.bind (expr_yields levels e ends_semicolon rest) (.expect rfl (.pure _ rest))
  have hstart := (e.text_lexes t).startsExpr_headToken (semicolon :: rest)
  refine .current ?_
  rw [List.append_assoc, List.singleton_append]
  revert hstart
  generalize headToken t (e.lexes ++ semicolon :: rest) = token
  intro hstart
  cases token <;> first | exact hexpr | exact absurd hstart Bool.false_ne_true

theorem return_yields (levels : Nat) {m : Prec} {e : Expr} {ls : List Lex} {tree : Syntax.Expr}
    (h : Text t m e ls tree) (rest : List Lex) :
    Yields t (Syntax.Parser.returnStmt (Syntax.Parser.expr levels))
      (.keyword .returnKw :: ls ++ [semicolon]) (.ret (some tree)) rest := by
  refine .advance (.current (show Yields t _ (ls ++ [semicolon]) _ _ from ?_))
  rw [if_pos]
  · exact Yields.bind (h.climbs.closed levels h.assign_le ends_semicolon)
      (.expect rfl (.pure _ rest))
  · show headToken t (ls ++ [semicolon] ++ rest) ≠ _
    rw [List.append_assoc]
    exact h.headToken_ne rfl _

theorem readsStmts_stmt (levels : Nat) : ReadsStmts t (Syntax.Parser.stmt levels) := by
  induction levels with
  | zero => exact ⟨fun _ _ _ => .failure _ _ _, fun _ _ => .failure _ _ _⟩
  | succ levels ih =>
    refine ⟨fun s rest hrest => ?_, block_yields ih levels⟩
    rw [Syntax.Parser.stmt]
    cases s with
    | expr e =>
      rw [Stmt.lexes, Stmt.tree]
      exact expression_yields levels _ e rest
    | ifThen test yes =>
      rw [Stmt.lexes, Stmt.tree]
      refine .current (.advance (Yields.bind (condition_yields levels test _) ?_))
      refine Yields.bind_last (ih.block yes rest) (.current ?_)
      rw [List.nil_append, if_neg hrest]
      exact .pure _ rest
    | ifElse test yes no =>
      rw [Stmt.lexes, Stmt.tree, List.append_assoc]
      refine .current (.advance (Yields.bind (condition_yields levels test _) ?_))
      refine Yields.bind (ih.block yes _) (.current ?_)
      exact .advance (ih.block no rest).bind_pure
    | whileLoop test body =>
      rw [Stmt.lexes, Stmt.tree]
      refine .current (.advance (Yields.bind (condition_yields levels test _) ?_))
      exact (ih.block body rest).bind_pure
    | ret value =>
      cases value with
      | none => exact .current (.advance (.current (.expect rfl (.pure _ rest))))
      | some e =>
        rw [Stmt.lexes, Stmt.tree]
        exact .current (return_yields levels (e.text_lexes t) rest)
    | block body =>
      rw [Stmt.lexes, Stmt.tree]
      exact block_yields ih levels body rest
    | skip => exact .current (.advance (.pure _ rest))

/-! ## Declarations -/

theorem namedVariable_yields (x : Name) {ls rest : List Lex}
    (h : (∃ hmark, ls = [.mark .comma hmark]) ∨ ls = [] ∧ headToken t rest ≠ .comma) :
    Yields t (Syntax.Parser.namedVariable .int) (.name x :: ls) (variableTree (idOf t) x) rest := by
  refine Yields.bind_nil (pointerLevels_yields .int nofun) (.current (.advance ?_))
  rcases h with ⟨_, rfl⟩ | ⟨rfl, h⟩
  · exact .skipOver rfl (.pure _ rest)
  · exact .skipOver_of_ne h (.pure _ rest)

theorem parameter_yields (x : Name) (more : List Name) (rest : List Lex) :
    Yields t Syntax.Parser.parameter
      ([.keyword .intKw, .name x] ++ if more.isEmpty then [] else [.mark .comma])
      (variableTree (idOf t) x) (lexesParams more ++ .mark .rightParen :: rest) := by
  show Yields t _ ([.keyword .intKw] ++ .name x :: _) _ _
  refine Yields.bind (baseType_yields _) (namedVariable_yields x ?_)
  cases more with
  | nil => exact .inr ⟨rfl, nofun⟩
  | cons x' more => exact .inl ⟨rfl, rfl⟩

theorem parameters_yields (params : List Name) (rest : List Lex) :
    Yields t (Syntax.Parser.collect (· ≠ .rightParen) Syntax.Parser.parameter) (lexesParams params)
      (params.map (variableTree (idOf t))) (.mark .rightParen :: rest) := by
  refine Collects.collect ?_
  induction params with
  | nil => exact .nil rfl
  | cons x params ih => exact .cons rfl (by simp) (parameter_yields x params rest) ih

theorem localVariables_yields (locals : List Name) {rest : List Lex}
    (h : headToken t rest ≠ .keyword .intKw ∧ headToken t rest ≠ .keyword .charKw) :
    Yields t Syntax.Parser.localVariables (locals.flatMap declare)
      (locals.map (variableTree (idOf t))) rest := by
  suffices hloop : ∀ read, Loops t (fun token => token = .keyword .intKw ∨ token = .keyword .charKw)
      (fun read => do
        let base ← Syntax.Parser.baseType
        let more ← Syntax.Parser.collect (· ≠ .semicolon) (Syntax.Parser.namedVariable base)
        Syntax.Parser.advance
        return read ++ more) read (locals.flatMap declare)
      (read ++ locals.map (variableTree (idOf t))) rest from (hloop []).whileToken
  induction locals with
  | nil =>
    intro read
    rw [List.flatMap_nil, List.map_nil, List.append_nil]
    exact .stop (by simpa using h)
  | cons x locals ih =>
    intro read
    rw [List.flatMap_cons, List.map_cons, List.append_cons]
    have hname : Yields t (Syntax.Parser.namedVariable .int) [.name x] (variableTree (idOf t) x)
        ([semicolon] ++ (locals.flatMap declare ++ rest)) :=
      namedVariable_yields x (.inr ⟨rfl, show Token.semicolon ≠ .comma from nofun⟩)
    have hone : Collects t (· ≠ .semicolon) (Syntax.Parser.namedVariable .int) [.name x]
        [variableTree (idOf t) x] ([semicolon] ++ (locals.flatMap declare ++ rest)) :=
      .one rfl (by simp) hname rfl
    refine .pass rfl (by simp [declare]) ?_ (ih _)
    exact Yields.bind (baseType_yields _) (Yields.bind hone.collect (.advance (.pure _ _)))

theorem functionDefinition_yields (f : Function) (rest : List Lex) :
    Yields t (Syntax.Parser.functionDefinition (idOf t f.name) .int)
      (.mark .leftParen :: (lexesParams f.params ++ .mark .rightParen :: .mark .leftBrace ::
        (f.locals.flatMap declare ++ Stmt.lexesAll f.body)))
      (f.tree (idOf t)) (.mark .rightBrace :: rest) := by
  refine .advance (Yields.bind (parameters_yields f.params _) (.advance (.current ?_)))
  rw [if_neg (by rintro h; exact h rfl)]
  refine .advance (Yields.bind (localVariables_yields f.locals ?_) ?_)
  · exact ⟨headToken_lexesAll_ne (by decide) (by decide) rest,
      headToken_lexesAll_ne (by decide) (by decide) rest⟩
  · exact (statements_yields (readsStmts_stmt _) f.body rest).bind_pure

/-- The declaration of one thing, whose tokens are read by a declarator up to the last one. -/
theorem declaration_yields {x : Name} {ls rest : List Lex} {l : Lex} {item : Syntax.Item}
    (h : Yields t (Syntax.Parser.declarator .int) (.name x :: ls) item (l :: rest))
    (hl : l.token t = .semicolon ∨ l.token t = .rightBrace) :
    Yields t Syntax.Parser.declaration (.keyword .intKw :: .name x :: ls ++ [l]) [item] rest := by
  have hone : Collects t (fun token => token ≠ .semicolon ∧ token ≠ .rightBrace)
      (Syntax.Parser.declarator .int) (.name x :: ls) [item] ([l] ++ rest) := by
    refine .one rfl (by simp) h ?_
    rcases hl with hl | hl <;> simp [headToken, hl]
  have hitems : Yields t (do
      let base ← Syntax.Parser.baseType
      let items ← Syntax.Parser.collect (fun token => token ≠ .semicolon ∧ token ≠ .rightBrace)
        (Syntax.Parser.declarator base)
      Syntax.Parser.advance
      return [] ++ items) ([.keyword .intKw] ++ (.name x :: ls ++ [l])) [item] rest :=
    Yields.bind (baseType_yields _) (Yields.bind hone.collect (.advance (.pure _ rest)))
  exact .current hitems

theorem global_yields (x : Name) (rest : List Lex) :
    Yields t Syntax.Parser.declaration (declare x) [.globalVar .int (idOf t x)] rest := by
  have hdeclarator : Yields t (Syntax.Parser.declarator .int) [.name x]
      (.globalVar .int (idOf t x)) (semicolon :: rest) := by
    refine Yields.bind_nil (pointerLevels_yields .int nofun) (.current (.advance (.current ?_)))
    exact Yields.skipOver_pure (show Token.semicolon ≠ .comma from nofun)
  exact declaration_yields hdeclarator (.inl rfl)

theorem function_yields (f : Function) (rest : List Lex) :
    Yields t Syntax.Parser.declaration f.lexes [f.tree (idOf t)] rest := by
  have hlexes : f.lexes = .keyword .intKw :: .name f.name :: (.mark .leftParen ::
      (lexesParams f.params ++ .mark .rightParen :: .mark .leftBrace ::
        (f.locals.flatMap declare ++ Stmt.lexesAll f.body))) ++ [.mark .rightBrace] := by
    simp [Function.lexes, inParens, inBraces]
  rw [hlexes]
  refine declaration_yields ?_ (.inr rfl)
  refine Yields.bind_nil (pointerLevels_yields .int Token.noConfusion)
    (.current (.advance (.current ?_)))
  refine Yields.bind_last (functionDefinition_yields f rest) ?_
  exact Yields.skipOver_pure (show Token.rightBrace ≠ .comma by decide)

/-! ## Sources -/

/-- Declarations, each of which yields one item. -/
theorem loops_declarations {γ : Type} {lexes : γ → List Lex} {tree : γ → Syntax.Item}
    (hlexes : ∀ x rest, headToken t (lexes x ++ rest) ≠ .eof) (hne : ∀ x, lexes x ≠ [])
    (h : ∀ x rest, Yields t Syntax.Parser.declaration (lexes x) [tree x] rest) (xs : List γ)
    {ls rest : List Lex} {items : List Syntax.Item} {read : List Syntax.Item}
    (hrest : Loops t (· ≠ .eof) (fun read => do return read ++ (← Syntax.Parser.declaration))
      (read ++ xs.map tree) ls items rest) :
    Loops t (· ≠ .eof) (fun read => do return read ++ (← Syntax.Parser.declaration)) read
      (xs.flatMap lexes ++ ls) items rest := by
  induction xs generalizing read with
  | nil => simpa using hrest
  | cons x xs ih =>
    rw [List.flatMap_cons, List.append_assoc]
    refine .pass (decide_eq_true (hlexes x _)) (hne x) (h x _).bind_pure (ih ?_)
    simpa using hrest

theorem declarations_yields (hend : headToken t [] = .eof) (p : Parts) :
    Yields t (Syntax.Parser.whileToken (· ≠ .eof)
      (fun read => do return read ++ (← Syntax.Parser.declaration)) []) p.lexes (p.trees (idOf t))
      [] := by
  refine Loops.whileToken (loops_declarations ?_ ?_ global_yields p.globals ?_)
  · exact fun x rest => show Token.keyword .intKw ≠ .eof from nofun
  · simp [declare]
  rw [← List.append_nil (p.definitions.flatMap _)]
  refine loops_declarations ?_ ?_ function_yields p.definitions (.stop (by simp [hend]))
  · exact fun x rest => show Token.keyword .intKw ≠ .eof from nofun
  · simp [Function.lexes]

/-- What a parser reads from the lexemes of a printed program is the program, all of whose names
have been read. -/
theorem parse_eq_trees {p : Parts} {t : SymbolTable} {line : Nat} {lexemes : List Lexeme}
    {items : List Syntax.Item} (hfollows : Follows t [⟨line, .ok .eof⟩] p.lexes lexemes)
    (h : Syntax.parse lexemes = some items) :
    items = p.trees (idOf t) ∧ ∀ l ∈ p.lexes, l.Found t := by
  obtain ⟨⟨items', st⟩, hitems, rfl⟩ := Option.map_eq_some_iff.mp h
  rw [Syntax.Parser.items, Syntax.Parser.bind_apply, Option.bind_eq_some_iff] at hitems
  obtain ⟨⟨u, st₁⟩, hadvance, hwhile⟩ := hitems
  have hspells : Spells ⟨t, ⟨line, .ok .eof⟩, []⟩ (p.lexes ++ []) st₁ := by
    rw [List.append_nil]
    exact .of_advance hfollows hadvance
  obtain ⟨heq, -, hfound⟩ := declarations_yields rfl p st₁ items' st hspells hwhile
  exact ⟨heq, hfound⟩

end MiniC.Source
