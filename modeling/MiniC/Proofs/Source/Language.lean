import Mathlib
import MiniC.Lexeme

/-!
# Programs over integers

The part of the source language that computes with `int` variables alone: globals, functions with
parameters and locals, the usual statements, and expressions of all operators but those for
pointers. A program is printed with every operation in parentheses, spaces between tokens and the
bodies of `if`, `else` and `while` in braces (`Parts.text`).

Names stand for themselves here and have no numbers.
-/

namespace MiniC.Source

/-! ## Names -/

/-- Whether a text is a letter or underscore, followed by letters, digits and underscores. -/
def isWord (text : String) : Bool :=
  match text.toList with
  | [] => false
  | first :: rest =>
    (first.isAlpha || first = '_') && rest.all fun c => c.isAlpha || c = '_' || c.isDigit

/-- Whether a text is a name of the source language, which no keyword is. -/
def isName (text : String) : Bool := isWord text && Keyword.spellings.all (·.1 ≠ text)

structure Name where
  text : String
  isName : isName text = true
  deriving DecidableEq

/-- The name of the function that a program starts with. -/
def Name.main : Name := ⟨"main", by decide +kernel⟩

/-! ## Trees -/

inductive UnaryOp where
  | not
  | complement
  | negate
  deriving DecidableEq

/-- `&&` and `||`. -/
inductive LogicOp where
  | and
  | or
  deriving DecidableEq

/-- `++` and `--`. -/
inductive Step where
  | increment
  | decrement
  deriving DecidableEq

-- There are literals from 0 on.
instance neZeroLiterals : NeZero (2 ^ 63 : Nat) := ⟨by decide⟩

inductive Expr where
  | literal (value : Fin (2 ^ 63))
  | var (x : Name)
  | assign (x : Name) (value : Expr)
  | preStep (step : Step) (x : Name)
  | postStep (step : Step) (x : Name)
  | unary (op : UnaryOp) (operand : Expr)
  | binary (op : BinOp) (left right : Expr)
  | logic (op : LogicOp) (left right : Expr)
  | cond (test yes no : Expr)
  | call (f : Name) (args : List Expr)

/-- Induction on an expression, with the hypothesis at each argument of a call. -/
@[induction_eliminator]
theorem Expr.induction {motive : Expr → Prop}
    (literal : ∀ value, motive (.literal value))
    (var : ∀ x, motive (.var x))
    (assign : ∀ x value, motive value → motive (.assign x value))
    (preStep : ∀ step x, motive (.preStep step x))
    (postStep : ∀ step x, motive (.postStep step x))
    (unary : ∀ op operand, motive operand → motive (.unary op operand))
    (binary : ∀ op left right, motive left → motive right → motive (.binary op left right))
    (logic : ∀ op left right, motive left → motive right → motive (.logic op left right))
    (cond : ∀ test yes no, motive test → motive yes → motive no → motive (.cond test yes no))
    (call : ∀ f args, (∀ e ∈ args, motive e) → motive (.call f args))
    (e : Expr) : motive e :=
  @Expr.rec motive (fun es => ∀ e ∈ es, motive e) literal var assign preStep postStep unary binary
    logic cond call (by simp) (fun _ _ h hs => List.forall_mem_cons.mpr ⟨h, hs⟩) e

inductive Stmt where
  | expr (e : Expr)
  | ifThen (test : Expr) (yes : List Stmt)
  | ifElse (test : Expr) (yes no : List Stmt)
  | whileLoop (test : Expr) (body : List Stmt)
  | ret (value : Option Expr)
  | block (body : List Stmt)
  | skip

structure Function where
  name : Name
  params : List Name
  locals : List Name
  body : List Stmt

/-- The globals and functions of a program, and the locals and statements of `main`. -/
structure Parts where
  globals : List Name
  functions : List Function
  locals : List Name
  body : List Stmt

def Parts.main (p : Parts) : Function := ⟨.main, [], p.locals, p.body⟩

/-- All functions in order, `main` last. -/
def Parts.definitions (p : Parts) : List Function := p.functions ++ [p.main]

theorem Parts.main_mem (p : Parts) : p.main ∈ p.definitions :=
  List.mem_append_right _ (List.mem_singleton_self _)

/-- A program, in which every function has a name of its own. -/
structure Program extends Parts where
  nodup : (toParts.definitions.map Function.name).Nodup
  not_global : ∀ f ∈ toParts.definitions, f.name ∉ globals
  not_service : ∀ f ∈ toParts.definitions, ∀ s ∈ Service.all, s.name ≠ f.name.text

/-! ## Printing -/

/-- Operators and delimiters. -/
def isMark : Token → Bool
  | .eof | .illegal _ | .ident _ | .number _ | .string _ | .keyword _ => false
  | _ => true

/-- A printed token, with names as they are spelled. -/
inductive Lex where
  | name (x : Name)
  | number (n : Fin (2 ^ 63))
  | keyword (k : Keyword)
  | mark (t : Token) (isMark : isMark t = true := by exact Eq.refl true)

def Lex.text : Lex → String
  | name x => x.text
  | number n => n.val.repr
  | keyword k => k.name
  | mark t _ => t.text

def UnaryOp.token : UnaryOp → Token
  | not => .bang
  | complement => .tilde
  | negate => .binary .sub

def LogicOp.token : LogicOp → Token
  | and => .andAlso
  | or => .orElse

def Step.token : Step → Token
  | increment => .increment
  | decrement => .decrement

theorem UnaryOp.isMark_token (op : UnaryOp) : isMark op.token = true := by
  cases op <;> rfl

theorem LogicOp.isMark_token (op : LogicOp) : isMark op.token = true := by
  cases op <;> rfl

theorem Step.isMark_token (step : Step) : isMark step.token = true := by
  cases step <;> rfl

/-- Tokens in parentheses. -/
def inParens (ls : List Lex) : List Lex := .mark .leftParen :: ls ++ [.mark .rightParen]

def inBraces (ls : List Lex) : List Lex := .mark .leftBrace :: ls ++ [.mark .rightBrace]

mutual

/-- The tokens of an expression, with every operation in parentheses. -/
def Expr.lexes : Expr → List Lex
  | .literal n => [.number n]
  | .var x => [.name x]
  | .assign x e => inParens (.name x :: .mark .assign :: e.lexes)
  | .preStep step x => inParens [.mark step.token step.isMark_token, .name x]
  | .postStep step x => inParens [.name x, .mark step.token step.isMark_token]
  | .unary op e => inParens (.mark op.token op.isMark_token :: e.lexes)
  | .binary op l r => inParens (l.lexes ++ .mark (.binary op) :: r.lexes)
  | .logic op l r => inParens (l.lexes ++ .mark op.token op.isMark_token :: r.lexes)
  | .cond test yes no =>
    inParens (test.lexes ++ .mark .question :: yes.lexes ++ .mark .colon :: no.lexes)
  | .call f args => .name f :: inParens (Expr.lexesArgs args)

/-- The tokens of arguments, with commas between them. -/
def Expr.lexesArgs : List Expr → List Lex
  | [] => []
  | e :: rest => e.lexes ++ (if rest.isEmpty then [] else [.mark .comma]) ++ Expr.lexesArgs rest

end

def semicolon : Lex := .mark .semicolon

mutual

def Stmt.lexes : Stmt → List Lex
  | .expr e => e.lexes ++ [semicolon]
  | .ifThen test yes => .keyword .ifKw :: inParens test.lexes ++ inBraces (Stmt.lexesAll yes)
  | .ifElse test yes no =>
    .keyword .ifKw :: inParens test.lexes ++ inBraces (Stmt.lexesAll yes) ++
      .keyword .elseKw :: inBraces (Stmt.lexesAll no)
  | .whileLoop test body =>
    .keyword .whileKw :: inParens test.lexes ++ inBraces (Stmt.lexesAll body)
  | .ret none => [.keyword .returnKw, semicolon]
  | .ret (some e) => .keyword .returnKw :: e.lexes ++ [semicolon]
  | .block body => inBraces (Stmt.lexesAll body)
  | .skip => [semicolon]

def Stmt.lexesAll : List Stmt → List Lex
  | [] => []
  | s :: rest => s.lexes ++ Stmt.lexesAll rest

end

/-- The declaration of one variable. -/
def declare (x : Name) : List Lex := [.keyword .intKw, .name x, semicolon]

/-- Parameters, with commas between them. -/
def lexesParams : List Name → List Lex
  | [] => []
  | x :: rest =>
    [.keyword .intKw, .name x] ++ (if rest.isEmpty then [] else [.mark .comma]) ++ lexesParams rest

def Function.lexes (f : Function) : List Lex :=
  [.keyword .intKw, .name f.name] ++ inParens (lexesParams f.params) ++
    inBraces (f.locals.flatMap declare ++ Stmt.lexesAll f.body)

def Parts.lexes (p : Parts) : List Lex :=
  p.globals.flatMap declare ++ p.definitions.flatMap Function.lexes

/-- Tokens as a text, with spaces between them. -/
def textOf : List Lex → String
  | [] => ""
  | [l] => l.text
  | l :: ls => l.text ++ " " ++ textOf ls

/-- The text of a program. -/
def Parts.text (p : Parts) : String := textOf p.lexes

end MiniC.Source
