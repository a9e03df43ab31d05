import MiniC.Proofs.Source.Code
import MiniC.Proofs.Source.Reading

/-!
# The operator grammar

`Text` says which tokens are a text of an expression. It is the grammar of the operators: every
binary operator asks its left operand for its own level or a tighter one and its right operand for a
tighter one, `?:` and `=` ask their last operand for their own level, and an operator in front asks
for an operand of the tightest level. Parentheses make any operation an operand of that level.

A parser that climbs the levels reads every text of the grammar as the tree that was written
(`Text.climbs`). Texts with as many parentheses as possible (`Expr.lexes`) are texts of the grammar,
and so are those with as few (`Expr.print`).
-/

namespace MiniC

/-! ## Levels -/

namespace Prec

variable {p q r : Prec}

theorem le_trans (h : p ≤ q) (h' : q ≤ r) : p ≤ r := Nat.le_trans h h'

theorem le_primary (p : Prec) : p ≤ primary := by
  cases p <;> decide

theorem rank_inj (h : p.rank = q.rank) : p = q := by
  cases p <;> cases q <;> first | rfl | exact absurd h (by decide)

/-- A level of binary operators, whose operands on the right are tighter. -/
def isBinary (p : Prec) : Prop := orElse ≤ p ∧ p ≤ product

instance : DecidablePred isBinary := fun _ => instDecidableAnd

theorem rank_tighter (h : p.isBinary) : p.tighter.rank = p.rank + 1 := by
  cases p <;> first | rfl | exact absurd h (by decide)

/-- An operator of level `p` behind an operand of level `q` takes the whole of it. -/
def Takes (p q : Prec) : Prop := p.rank < q.rank ∨ p = q ∧ q.isBinary

theorem takes_of_le (h : p ≤ q) (hp : p.isBinary) : p.Takes q := by
  rcases Nat.lt_or_eq_of_le h with h | h
  · exact .inl h
  · exact .inr ⟨rank_inj h, rank_inj h ▸ hp⟩

theorem Takes.lt_tighter (h : p.Takes q) (hq : q.isBinary) : p.rank < q.tighter.rank := by
  rw [rank_tighter hq]
  rcases h with h | ⟨rfl, -⟩
  · omega
  · omega

theorem Takes.lt (h : p.Takes q) (hq : ¬ q.isBinary) : p.rank < q.rank :=
  h.resolve_right fun h => hq h.2

end Prec

theorem BinOp.isBinary_prec (op : BinOp) : op.prec.isBinary := by
  cases op <;> decide

namespace Source

open Syntax (Parser)

/-! ## Trees -/

def UnaryOp.tree (op : UnaryOp) (operand : Expr) (tree : Syntax.Expr) : Syntax.Expr :=
  match op with
  | not => .withConstant .eq 0 tree
  | complement => .withConstant .xor (-1) tree
  | negate =>
    -- A minus in front of a number is part of it.
    match operand with
    | .literal n => .negative (Word.ofNat n)
    | _ => .negate tree

def LogicOp.prec : LogicOp → Prec
  | and => .andAlso
  | or => .orElse

mutual

/-- The tree of an expression with every operation in parentheses, with names numbered. -/
def Expr.tree (ν : Name → SymbolId) : Expr → Syntax.Expr
  | .literal n => .number (Word.ofNat n)
  | .var x => .name (ν x)
  | .assign x e => .paren (.assign (.name (ν x)) (e.tree ν))
  | .preStep step x => .paren (.preStep step.op (.name (ν x)))
  | .postStep step x => .paren (.postStep step.op step.undo (.name (ν x)))
  | .unary op e => .paren (op.tree e (e.tree ν))
  | .binary op l r => .paren (.binary op (l.tree ν) (r.tree ν))
  | .logic op l r => .paren (.shortCircuit op.branch (l.tree ν) (r.tree ν))
  | .cond test yes no => .paren (.cond (test.tree ν) (yes.tree ν) (no.tree ν))
  | .call f args => .call (ν f) (Expr.treeArgs ν args)

def Expr.treeArgs (ν : Name → SymbolId) : List Expr → List Syntax.Expr
  | [] => []
  | e :: rest => e.tree ν :: Expr.treeArgs ν rest

end

/-! ## Texts -/

/-- Lists of tokens with commas between them. -/
def separated : List (List Lex) → List Lex
  | [] => []
  | ls :: rest => ls ++ (if rest.isEmpty then [] else [.mark .comma]) ++ separated rest

/-- An expression, the level of its text, the text and its tree. -/
structure Spelled where
  expr : Expr
  level : Prec
  lexes : List Lex
  tree : Syntax.Expr

/-- The tokens are a text of the expression of the given level, with the tree as it is written. -/
inductive Text (t : SymbolTable) : Prec → Expr → List Lex → Syntax.Expr → Prop
  | literal (n : Fin (2 ^ 63)) : Text t .primary (.literal n) [.number n] (.number (Word.ofNat n))
  | var (x : Name) : Text t .primary (.var x) [.name x] (.name (idOf t x))
  | paren {m : Prec} {e : Expr} {ls : List Lex} {tree : Syntax.Expr} (h : Text t m e ls tree)
      (hne : ∀ n, e ≠ .literal n) : Text t .primary e (inParens ls) (.paren tree)
  | preStep (step : Step) (x : Name) : Text t .primary (.preStep step x)
      [.mark step.token step.isMark_token, .name x] (.preStep step.op (.name (idOf t x)))
  | postStep (step : Step) (x : Name) : Text t .primary (.postStep step x)
      [.name x, .mark step.token step.isMark_token]
      (.postStep step.op step.undo (.name (idOf t x)))
  | call (f : Name) (args : List Spelled)
      (h : ∀ a ∈ args, Text t a.level a.expr a.lexes a.tree) :
      Text t .primary (.call f (args.map Spelled.expr))
        (.name f :: inParens (separated (args.map Spelled.lexes)))
        (.call (idOf t f) (args.map Spelled.tree))
  | unary (op : UnaryOp) {e : Expr} {ls : List Lex} {tree : Syntax.Expr}
      (h : Text t .primary e ls tree) :
      Text t .primary (.unary op e) (.mark op.token op.isMark_token :: ls) (op.tree e tree)
  | binary (op : BinOp) {m m' : Prec} {l r : Expr} {ls ls' : List Lex} {tree tree' : Syntax.Expr}
      (hl : Text t m l ls tree) (hm : op.prec ≤ m) (hr : Text t m' r ls' tree')
      (hm' : op.prec.tighter ≤ m') :
      Text t op.prec (.binary op l r) (ls ++ .mark (.binary op) :: ls') (.binary op tree tree')
  | logic (op : LogicOp) {m m' : Prec} {l r : Expr} {ls ls' : List Lex}
      {tree tree' : Syntax.Expr} (hl : Text t m l ls tree) (hm : op.prec ≤ m)
      (hr : Text t m' r ls' tree') (hm' : op.prec.tighter ≤ m') :
      Text t op.prec (.logic op l r) (ls ++ .mark op.token op.isMark_token :: ls')
        (.shortCircuit op.branch tree tree')
  | cond {m m₁ m₂ : Prec} {test yes no : Expr} {ls ls₁ ls₂ : List Lex}
      {tree tree₁ tree₂ : Syntax.Expr} (htest : Text t m test ls tree) (hm : .orElse ≤ m)
      (hyes : Text t m₁ yes ls₁ tree₁) (hno : Text t m₂ no ls₂ tree₂) (hm₂ : .cond ≤ m₂) :
      Text t .cond (.cond test yes no)
        (ls ++ .mark .question :: ls₁ ++ .mark .colon :: ls₂) (.cond tree tree₁ tree₂)
  | assign (x : Name) {m : Prec} {e : Expr} {ls : List Lex} {tree : Syntax.Expr}
      (h : Text t m e ls tree) :
      Text t .assign (.assign x e) (.name x :: .mark .assign :: ls)
        (.assign (.name (idOf t x)) tree)

/-- Tokens that begin an expression. -/
def startsExpr : Token → Bool
  | .number _ | .ident _ | .leftParen | .bang | .tilde | .binary .sub | .increment
  | .decrement => true
  | _ => false

namespace Text

variable {t : Reading} {m : Prec} {e : Expr} {ls : List Lex} {tree : Syntax.Expr}

theorem assign_le (h : Text t m e ls tree) : .assign ≤ m := by
  cases h with
  | binary op => cases op <;> decide
  | logic op => cases op <;> decide
  | _ => decide

theorem ne_nil (h : Text t m e ls tree) : ls ≠ [] := by
  cases h <;> simp [inParens]

theorem startsExpr_headToken (h : Text t m e ls tree) (rest : List Lex) :
    startsExpr (headToken t (ls ++ rest)) = true := by
  induction h generalizing rest with
  | preStep step => cases step <;> rfl
  | unary op => cases op <;> rfl
  | binary op hl _ _ _ ih _ | logic op hl _ _ _ ih _ =>
    rw [List.append_assoc]
    exact ih _
  | cond _ _ _ _ _ ih _ _ =>
    rw [List.append_assoc, List.append_assoc]
    exact ih _
  | _ => rfl

theorem headToken_ne (h : Text t m e ls tree) {token : Token} (htoken : startsExpr token = false)
    (rest : List Lex) : headToken t (ls ++ rest) ≠ token := by
  intro heq
  have hstart := h.startsExpr_headToken rest
  rw [heq, htoken] at hstart
  exact Bool.false_ne_true hstart

/-- Among the texts of the tightest level, those of literals begin with a number and no others. -/
theorem literal_or_ne_number (h : Text t .primary e ls tree) :
    (∃ n, e = .literal n ∧ ls = [.number n]) ∨
      (∀ n, e ≠ .literal n) ∧ ∀ rest w, headToken t (ls ++ rest) ≠ .number w := by
  generalize hm : Prec.primary = m at h
  cases h with
  | literal n => exact .inl ⟨n, rfl, rfl⟩
  | paren _ hne => exact .inr ⟨hne, fun _ _ => Token.noConfusion⟩
  | preStep step => exact .inr ⟨nofun, fun _ _ => by cases step <;> exact Token.noConfusion⟩
  | unary op => exact .inr ⟨nofun, fun _ _ => by cases op <;> exact Token.noConfusion⟩
  | binary op => exact absurd hm (by cases op <;> decide)
  | logic op => exact absurd hm (by cases op <;> decide)
  | cond | assign => exact absurd hm (by decide)
  | _ => exact .inr ⟨nofun, fun _ _ => Token.noConfusion⟩

end Text

/-! ## Climbing -/

/-- Wherever a text of level `m` is asked for by `prec` or less, what the operators behind it yield
for its tree is what is read. -/
def Climbs (t : Reading) (m : Prec) (ls : List Lex) (tree : Syntax.Expr) : Prop :=
  ∀ (levels : Nat) (prec : Prec) (ls' : List Lex) (result : Syntax.Expr) (rest : List Lex),
    prec ≤ m → headToken t (ls' ++ rest) ≠ .leftParen →
    (headToken t (ls' ++ rest)).prec.Takes m →
    Loops t (fun token => prec ≤ token.prec) (Syntax.Parser.operator (Syntax.Parser.expr levels))
      tree ls' result rest →
    Yields t (Syntax.Parser.expr (levels + 1) prec) (ls ++ ls') result rest

section Climbing

variable {t : Reading} {m prec : Prec} {ls ls' rest : List Lex} {tree result : Syntax.Expr}
  {levels : Nat}

/-- An expression in front of a token that does not continue it. -/
theorem Climbs.expr (h : Climbs t m ls tree) (levels : Nat) (hprec : prec ≤ m)
    (hparen : headToken t rest ≠ .leftParen) (hstop : (headToken t rest).prec.rank < prec.rank) :
    Yields t (Syntax.Parser.expr levels prec) ls tree rest := by
  cases levels with
  | zero => exact .failure _ _ _
  | succ levels =>
    have hloop : Loops t (fun token => prec ≤ token.prec)
        (Syntax.Parser.operator (Syntax.Parser.expr levels)) tree [] tree rest :=
      .stop (decide_eq_false (Nat.not_le_of_lt hstop))
    have hyields := h levels prec [] tree rest hprec hparen (.inl (Nat.lt_of_lt_of_le hstop hprec))
      hloop
    rwa [List.append_nil] at hyields

/-- Tokens that can stand behind an expression. -/
def Ends (token : Token) : Prop := token ≠ .leftParen ∧ token.prec = .none

theorem ends_rightParen : Ends .rightParen := ⟨nofun, rfl⟩

theorem ends_colon : Ends .colon := ⟨nofun, rfl⟩

theorem ends_comma : Ends .comma := ⟨nofun, rfl⟩

theorem ends_semicolon : Ends .semicolon := ⟨nofun, rfl⟩

theorem Climbs.closed (h : Climbs t m ls tree) (levels : Nat) (hm : .assign ≤ m) {token : Token}
    {hmark : isMark token = true} (hends : Ends token) :
    Yields t (Syntax.Parser.expr levels .assign) ls tree (.mark token hmark :: rest) := by
  refine h.expr levels hm hends.1 ?_
  rw [show headToken t (.mark token hmark :: rest) = token from rfl, hends.2]
  decide

/-- What begins with an operand that is read as a whole. -/
theorem expr_of_unary
    (h : Yields t (Syntax.Parser.unary (Syntax.Parser.expr levels)) ls tree (ls' ++ rest))
    (hloop : Loops t (fun token => prec ≤ token.prec)
      (Syntax.Parser.operator (Syntax.Parser.expr levels)) tree ls' result rest) :
    Yields t (Syntax.Parser.expr (levels + 1) prec) (ls ++ ls') result rest :=
  Yields.bind h hloop.whileToken

/-- One operator behind an operand, and what is behind that. -/
theorem Loops.operator {l : Lex} {left : Syntax.Expr} {lr : List Lex}
    (hl : prec ≤ (l.token t).prec)
    (hop : Yields t (Syntax.Parser.operator (Syntax.Parser.expr levels) left) (l :: lr) tree
      (ls' ++ rest))
    (hloop : Loops t (fun token => prec ≤ token.prec)
      (Syntax.Parser.operator (Syntax.Parser.expr levels)) tree ls' result rest) :
    Loops t (fun token => prec ≤ token.prec)
      (Syntax.Parser.operator (Syntax.Parser.expr levels)) left (l :: lr ++ ls') result rest :=
  hloop.pass (decide_eq_true hl) (List.cons_ne_nil l lr) hop

theorem name_yields (x : Name) {rest : List Lex} (h : headToken t rest ≠ .leftParen) :
    Yields t (Syntax.Parser.unary (Syntax.Parser.expr levels)) [.name x] (.name (idOf t x))
      rest := by
  refine .current (.advance (.current ?_))
  rw [List.nil_append, if_neg h]
  exact .pure _ rest

theorem parenthesised_yields
    (hhead : ∀ k, headToken t (ls ++ .mark .rightParen :: rest) ≠ .keyword k)
    (h : Yields t (Syntax.Parser.expr levels .assign) ls tree (.mark .rightParen :: rest)) :
    Yields t (Syntax.Parser.unary (Syntax.Parser.expr levels)) (inParens ls) (.paren tree)
      rest := by
  refine Yields.current
    (show Yields t (Syntax.Parser.parenthesised (Syntax.Parser.expr levels)) _ _ _ from ?_)
  refine Yields.advance (Yields.bind_nil (baseType?_of_ne ?_) ?_)
  · simpa using hhead
  · exact Yields.bind h (.expect rfl (.pure _ rest))

/-- An operator in front of an operand of the tightest level. -/
theorem inFront_yields (h : Climbs t .primary ls tree) (build : Syntax.Expr → Syntax.Expr) (l : Lex)
    (hparen : headToken t rest ≠ .leftParen) (htakes : (headToken t rest).prec.Takes .primary) :
    Yields t (Syntax.Parser.inFront (Syntax.Parser.expr levels) build) (l :: ls) (build tree)
      rest :=
  .advance (h.expr levels (by decide) hparen (htakes.lt (by decide))).bind_pure

theorem negation_yields {e : Expr} (htext : Text t .primary e ls tree)
    (h : Climbs t .primary ls tree) (l : Lex) (hparen : headToken t rest ≠ .leftParen)
    (htakes : (headToken t rest).prec.Takes .primary) :
    Yields t (Syntax.Parser.negation (Syntax.Parser.expr levels)) (l :: ls)
      (UnaryOp.negate.tree e tree) rest := by
  refine .advance (.current ?_)
  rcases htext.literal_or_ne_number with ⟨n, rfl, rfl⟩ | ⟨hne, hhead⟩
  · exact .advance (.pure _ _)
  · have htree : UnaryOp.negate.tree e tree = .negate tree := by
      cases e with
      | literal n => exact absurd rfl (hne n)
      | _ => rfl
    rw [htree]
    split
    · rename_i heq
      exact absurd heq (hhead _ _)
    · exact (h.expr levels (by decide) hparen (htakes.lt (by decide))).bind_pure

theorem collects_arguments (levels : Nat) (rest : List Lex) {args : List Spelled}
    (h : ∀ a ∈ args, Text t a.level a.expr a.lexes a.tree ∧ Climbs t a.level a.lexes a.tree) :
    Collects t (· ≠ .rightParen) (Syntax.Parser.argument (Syntax.Parser.expr levels))
      (separated (args.map Spelled.lexes)) (args.map Spelled.tree) (.mark .rightParen :: rest) := by
  induction args with
  | nil => exact .nil rfl
  | cons a args ih =>
    obtain ⟨htext, hclimbs⟩ := h a (by simp)
    rw [List.map_cons, List.map_cons, separated]
    refine .cons ?_ ?_ ?_ (ih fun a ha => h a (by simp [ha]))
    · rw [List.append_assoc]
      exact decide_eq_true (htext.headToken_ne rfl _)
    · simp [htext.ne_nil]
    · cases args with
      | nil =>
        refine Yields.bind (hclimbs.closed levels htext.assign_le ends_rightParen) ?_
        exact .skipOver_of_ne Token.noConfusion (.pure _ _)
      | cons a' args =>
        refine Yields.bind (hclimbs.closed levels htext.assign_le ends_comma) ?_
        exact .skipOver rfl (.pure _ _)

theorem LogicOp.isBinary_prec (op : LogicOp) : op.prec.isBinary := by
  cases op <;> decide

theorem Text.climbs {e : Expr} (h : Text t m e ls tree) : Climbs t m ls tree := by
  induction h with
  | literal n =>
    intro levels prec ls' result rest _ _ _ hloop
    exact expr_of_unary (.current (.advance (.pure _ _))) hloop
  | var x =>
    intro levels prec ls' result rest _ hparen _ hloop
    exact expr_of_unary (name_yields x hparen) hloop
  | @paren m e ls tree h _ ih =>
    intro levels prec ls' result rest _ _ _ hloop
    refine expr_of_unary (parenthesised_yields (fun _ => h.headToken_ne rfl _) ?_) hloop
    exact ih.closed levels h.assign_le ends_rightParen
  | preStep step x =>
    intro levels prec ls' result rest _ hparen htakes hloop
    have hname : Climbs t .primary [.name x] (.name (idOf t x)) :=
      fun _ _ _ _ _ _ hparen _ hloop => expr_of_unary (name_yields x hparen) hloop
    refine expr_of_unary (.current ?_) hloop
    cases step with
    | increment => exact inFront_yields hname (.preStep .add) _ hparen htakes
    | decrement => exact inFront_yields hname (.preStep .sub) _ hparen htakes
  | postStep step x =>
    intro levels prec ls' result rest hprec _ _ hloop
    have hname : Yields t (Syntax.Parser.unary (Syntax.Parser.expr levels)) [.name x]
        (.name (idOf t x)) ([.mark step.token step.isMark_token] ++ ls' ++ rest) :=
      name_yields x (by cases step <;> exact nofun)
    show Yields t _ ([.name x] ++ ([.mark step.token step.isMark_token] ++ ls')) _ _
    refine expr_of_unary hname (Loops.operator ?_ (.current (.advance ?_)) hloop)
    · cases step <;> exact hprec
    · cases step <;> exact .pure _ _
  | call f args h ih =>
    intro levels prec ls' result rest _ _ _ hloop
    refine expr_of_unary (.current (.advance (.current (.advance ?_)))) hloop
    have hargs := collects_arguments levels (ls' ++ rest) fun a ha =>
      ⟨h a ha, ih a ha⟩
    exact Yields.bind hargs.collect (.advance (.pure _ _))
  | unary op h ih =>
    intro levels prec ls' result rest _ hparen htakes hloop
    refine expr_of_unary (.current ?_) hloop
    cases op with
    | not => exact inFront_yields ih (.withConstant .eq 0) _ hparen htakes
    | complement => exact inFront_yields ih (.withConstant .xor (-1)) _ hparen htakes
    | negate => exact negation_yields h ih _ hparen htakes
  -- The left operand is read first, and the operator is the first of those behind it.
  | binary op hl hm hr hm' ihl ihr =>
    intro levels prec ls' result rest hprec hparen htakes hloop
    have hright := ihr.expr levels hm' hparen (htakes.lt_tighter op.isBinary_prec)
    rw [List.append_assoc]
    exact ihl levels prec _ result rest (Prec.le_trans hprec hm) nofun
      (Prec.takes_of_le hm op.isBinary_prec)
      (Loops.operator hprec (.current (.advance hright.bind_pure)) hloop)
  | logic op hl hm hr hm' ihl ihr =>
    intro levels prec ls' result rest hprec hparen htakes hloop
    have hright := ihr.expr levels hm' hparen (htakes.lt_tighter op.isBinary_prec)
    have htoken : op.token.prec = op.prec := by cases op <;> rfl
    have htakes' : op.token.prec.Takes _ := htoken ▸ Prec.takes_of_le hm op.isBinary_prec
    rw [List.append_assoc]
    refine ihl levels prec _ result rest (Prec.le_trans hprec hm) (by cases op <;> exact nofun)
      htakes' (Loops.operator (htoken ▸ hprec) (.current (.advance ?_)) hloop)
    cases op <;> exact hright.bind_pure
  | cond htest hm hyes hno hm₂ iht ihy ihn =>
    intro levels prec ls' result rest hprec hparen htakes hloop
    have hright := ihn.expr levels hm₂ hparen (htakes.lt (by decide))
    rw [List.append_assoc, List.append_assoc]
    refine iht levels prec _ result rest (Prec.le_trans hprec (Prec.le_trans (by decide) hm)) nofun
      (.inl (Nat.lt_of_lt_of_le (show Prec.cond.rank < Prec.orElse.rank by decide) hm)) ?_
    rw [← List.append_assoc]
    refine Loops.operator hprec (.current (.advance ?_)) hloop
    refine Yields.bind (ihy.closed levels hyes.assign_le ends_colon) ?_
    exact .expect rfl hright.bind_pure
  | @assign x m e ls tree h ih =>
    intro levels prec ls' result rest hprec hparen htakes hloop
    have hright := ih.expr levels h.assign_le hparen (htakes.lt (by decide))
    have hname : Yields t (Syntax.Parser.unary (Syntax.Parser.expr levels)) [.name x]
        (.name (idOf t x)) (.mark .assign :: ls ++ ls' ++ rest) := name_yields x nofun
    show Yields t _ ([.name x] ++ (.mark .assign :: ls ++ ls')) _ _
    exact expr_of_unary hname (Loops.operator hprec (.current (.advance hright.bind_pure)) hloop)

end Climbing

/-! ## Every operation in parentheses -/

theorem Expr.lexesArgs_eq (args : List Expr) :
    Expr.lexesArgs args = separated (args.map Expr.lexes) := by
  induction args with
  | nil => rfl
  | cons e args ih => simp [Expr.lexesArgs, separated, ih]

theorem Expr.treeArgs_eq (ν : Name → SymbolId) (args : List Expr) :
    Expr.treeArgs ν args = args.map (Expr.tree ν) := by
  induction args with
  | nil => rfl
  | cons e args ih => simp [Expr.treeArgs, ih]

theorem Expr.text_lexes (t : SymbolTable) (e : Expr) :
    Text t .primary e e.lexes (e.tree (idOf t)) := by
  induction e with
  | literal n => exact .literal n
  | var x => exact .var x
  | assign x e ih => exact .paren (.assign x ih) nofun
  | preStep step x => exact .paren (.preStep step x) nofun
  | postStep step x => exact .paren (.postStep step x) nofun
  | unary op e ih => exact .paren (.unary op ih) nofun
  | binary op l r ihl ihr =>
    exact .paren (.binary op ihl (Prec.le_primary _) ihr (Prec.le_primary _)) nofun
  | logic op l r ihl ihr =>
    exact .paren (.logic op ihl (Prec.le_primary _) ihr (Prec.le_primary _)) nofun
  | cond test yes no iht ihy ihn =>
    exact .paren (.cond iht (Prec.le_primary _) ihy ihn (Prec.le_primary _)) nofun
  | call f args ih =>
    have hcall := Text.call (t := t) f
      (args.map fun e => ⟨e, .primary, e.lexes, e.tree (idOf t)⟩) (by simpa using ih)
    simpa [Expr.lexes, Expr.tree, Expr.lexesArgs_eq, Expr.treeArgs_eq, Function.comp_def]
      using hcall

/-! ## Parentheses only where they are needed

C numbers the levels of its operators, from the loosest on: assignment, `?:`, `||`, `&&`, `|`, `^`,
`&`, the equalities, the comparisons, the shifts, `+` and `-`, then `*`, `/` and `%`, and last the
operators in front of an operand. The printer has this table for itself; `rank_prec` compares the
levels that the tokens have in the compiler with it.
-/

namespace Level

def assignment : Nat := 1

def conditional : Nat := 2

def unary : Nat := 13

end Level

/-- The level of a binary operator in C. -/
def binaryLevel : BinOp → Nat
  | .or => 5
  | .xor => 6
  | .and => 7
  | .eq | .ne => 8
  | .lt | .gt | .le | .ge => 9
  | .shl | .shr => 10
  | .add | .sub => 11
  | .mul | .div | .mod => 12

def LogicOp.level : LogicOp → Nat
  | or => 3
  | and => 4

theorem rank_prec (op : BinOp) : op.prec.rank = binaryLevel op := by
  cases op <;> rfl

theorem LogicOp.rank_prec (op : LogicOp) : op.prec.rank = op.level := by
  cases op <;> rfl

/-- The tokens of an operation of the given level, in parentheses where level `m` is asked for and
the operation is looser. -/
def guarded (m level : Nat) (ls : List Lex) : List Lex := if m ≤ level then ls else inParens ls

mutual

/-- The tokens of an expression where level `m` is asked for, with no more parentheses than C needs:
binary operators group from the left, `?:` and `=` from the right. -/
def Expr.print (m : Nat) : Expr → List Lex
  | .literal n => [.number n]
  | .var x => [.name x]
  | .assign x e =>
    guarded m Level.assignment (.name x :: .mark .assign :: e.print Level.assignment)
  | .preStep step x => [.mark step.token step.isMark_token, .name x]
  | .postStep step x => [.name x, .mark step.token step.isMark_token]
  | .unary op e => .mark op.token op.isMark_token :: e.print Level.unary
  | .binary op l r =>
    guarded m (binaryLevel op)
      (l.print (binaryLevel op) ++ .mark (.binary op) :: r.print (binaryLevel op + 1))
  | .logic op l r =>
    guarded m op.level
      (l.print op.level ++ .mark op.token op.isMark_token :: r.print (op.level + 1))
  | .cond test yes no =>
    guarded m Level.conditional
      (test.print (Level.conditional + 1) ++ .mark .question :: yes.print Level.assignment ++
        .mark .colon :: no.print Level.conditional)
  | .call f args => .name f :: inParens (Expr.printArgs args)

def Expr.printArgs : List Expr → List Lex
  | [] => []
  | e :: rest =>
    e.print Level.assignment ++ (if rest.isEmpty then [] else [.mark .comma]) ++
      Expr.printArgs rest

end

theorem Text.guarded {t : SymbolTable} {m : Nat} {level : Prec} {e : Expr} {ls : List Lex}
    {tree : Syntax.Expr} (h : Text t level e ls tree) (hne : ∀ n, e ≠ .literal n)
    (hm : m ≤ Level.unary) :
    ∃ m' tree', m ≤ m'.rank ∧ Text t m' e (guarded m level.rank ls) tree' := by
  rw [Source.guarded]
  split
  · rename_i hle
    exact ⟨level, tree, hle, h⟩
  · exact ⟨.primary, _, hm, .paren h hne⟩

theorem exists_spelled {t : SymbolTable} {args : List Expr}
    (h : ∀ e ∈ args, ∃ m tree, Text t m e (e.print Level.assignment) tree) :
    ∃ spelled : List Spelled, spelled.map Spelled.expr = args ∧
      separated (spelled.map Spelled.lexes) = Expr.printArgs args ∧
      ∀ a ∈ spelled, Text t a.level a.expr a.lexes a.tree := by
  induction args with
  | nil => exact ⟨[], rfl, rfl, by simp⟩
  | cons e args ih =>
    obtain ⟨m, tree, htext⟩ := h e (by simp)
    obtain ⟨spelled, rfl, hlexes, hspelled⟩ := ih fun e he => h e (by simp [he])
    refine ⟨⟨e, m, e.print Level.assignment, tree⟩ :: spelled, rfl, ?_, ?_⟩
    · rw [List.map_cons, separated, hlexes, Expr.printArgs, List.isEmpty_map, List.isEmpty_map]
    · simpa using ⟨htext, hspelled⟩

/-- What is printed for a level is a text of that level or a tighter one. -/
theorem Expr.text_print (t : SymbolTable) (e : Expr) :
    ∀ m, m ≤ Level.unary → ∃ m' tree, m ≤ m'.rank ∧ Text t m' e (e.print m) tree := by
  induction e with
  | literal n => exact fun m hm => ⟨.primary, _, hm, .literal n⟩
  | var x => exact fun m hm => ⟨.primary, _, hm, .var x⟩
  | preStep step x => exact fun m hm => ⟨.primary, _, hm, .preStep step x⟩
  | postStep step x => exact fun m hm => ⟨.primary, _, hm, .postStep step x⟩
  | assign x e ih =>
    intro m hm
    obtain ⟨m', tree, -, htext⟩ := ih Level.assignment (by decide)
    exact (Text.assign x htext).guarded nofun hm
  | unary op e ih =>
    intro m hm
    obtain ⟨m', tree, hle, htext⟩ := ih Level.unary (Nat.le_refl _)
    obtain rfl : m' = .primary := Prec.rank_inj (Nat.le_antisymm (Prec.le_primary m') hle)
    exact ⟨.primary, _, hm, .unary op htext⟩
  | binary op l r ihl ihr =>
    intro m hm
    have hprec := op.isBinary_prec
    rw [Expr.print, ← rank_prec, ← Prec.rank_tighter hprec]
    obtain ⟨ml, treel, hlel, htextl⟩ := ihl op.prec.rank (Prec.le_primary _)
    obtain ⟨mr, treer, hler, htextr⟩ := ihr op.prec.tighter.rank (Prec.le_primary _)
    exact (Text.binary op htextl hlel htextr hler).guarded nofun hm
  | logic op l r ihl ihr =>
    intro m hm
    have hprec := op.isBinary_prec
    rw [Expr.print, ← op.rank_prec, ← Prec.rank_tighter hprec]
    obtain ⟨ml, treel, hlel, htextl⟩ := ihl op.prec.rank (Prec.le_primary _)
    obtain ⟨mr, treer, hler, htextr⟩ := ihr op.prec.tighter.rank (Prec.le_primary _)
    exact (Text.logic op htextl hlel htextr hler).guarded nofun hm
  | cond test yes no iht ihy ihn =>
    intro m hm
    obtain ⟨mt, treet, hlet, htextt⟩ := iht (Level.conditional + 1) (by decide)
    obtain ⟨my, treey, -, htexty⟩ := ihy Level.assignment (by decide)
    obtain ⟨mn, treen, hlen, htextn⟩ := ihn Level.conditional (by decide)
    exact (Text.cond htextt hlet htexty htextn hlen).guarded nofun hm
  | call f args ih =>
    intro m hm
    obtain ⟨spelled, rfl, hlexes, hspelled⟩ := exists_spelled fun e he => by
      obtain ⟨m', tree, -, htext⟩ := ih e he Level.assignment (by decide)
      exact ⟨m', tree, htext⟩
    rw [Expr.print, ← hlexes]
    exact ⟨.primary, _, hm, .call f spelled hspelled⟩

end Source

end MiniC
