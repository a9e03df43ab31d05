import Mathlib
import MiniC.Program

/-!
# Syntax trees

The tree of a source, with every name by its number in the symbol table and nothing resolved: a tree
says which constructs were written and in which order, and no more. Parentheses have nodes of their
own although they leave no trace in the code.
-/

namespace MiniC.Syntax

inductive Expr where
  | number (value : Word)
  /-- Adjacent string literals, with their bytes joined. -/
  | text (bytes : List UInt8)
  | sizeOf (type : CType)
  | name (id : SymbolId)
  | call (id : SymbolId) (args : List Expr)
  | cast (type : CType) (operand : Expr)
  | paren (inner : Expr)
  | deref (operand : Expr)
  | addressOf (operand : Expr)
  /-- `!operand` and `~operand`, by the operation and the constant that they stand for. -/
  | withConstant (op : BinOp) (constant : Word) (operand : Expr)
  | plus (operand : Expr)
  /-- A minus in front of a number. -/
  | negative (value : Word)
  | negate (operand : Expr)
  | preStep (op : BinOp) (operand : Expr)
  | assign (left right : Expr)
  | cond (test yes no : Expr)
  /-- `left || right` and `left && right`, by the branch that skips the right side. -/
  | shortCircuit (condition : Branch) (left right : Expr)
  | binary (op : BinOp) (left right : Expr)
  | postStep (apply undo : BinOp) (operand : Expr)
  | index (left position : Expr)

/-- Induction on an expression, with the hypothesis at each argument of a call. -/
@[induction_eliminator]
theorem Expr.induction {motive : Expr → Prop}
    (number : ∀ value, motive (.number value))
    (text : ∀ bytes, motive (.text bytes))
    (sizeOf : ∀ type, motive (.sizeOf type))
    (name : ∀ id, motive (.name id))
    (call : ∀ id args, (∀ e ∈ args, motive e) → motive (.call id args))
    (cast : ∀ type operand, motive operand → motive (.cast type operand))
    (paren : ∀ inner, motive inner → motive (.paren inner))
    (deref : ∀ operand, motive operand → motive (.deref operand))
    (addressOf : ∀ operand, motive operand → motive (.addressOf operand))
    (withConstant : ∀ op constant operand, motive operand →
      motive (.withConstant op constant operand))
    (plus : ∀ operand, motive operand → motive (.plus operand))
    (negative : ∀ value, motive (.negative value))
    (negate : ∀ operand, motive operand → motive (.negate operand))
    (preStep : ∀ op operand, motive operand → motive (.preStep op operand))
    (assign : ∀ left right, motive left → motive right → motive (.assign left right))
    (cond : ∀ test yes no, motive test → motive yes → motive no → motive (.cond test yes no))
    (shortCircuit : ∀ condition left right, motive left → motive right →
      motive (.shortCircuit condition left right))
    (binary : ∀ op left right, motive left → motive right → motive (.binary op left right))
    (postStep : ∀ apply undo operand, motive operand → motive (.postStep apply undo operand))
    (index : ∀ left position, motive left → motive position → motive (.index left position))
    (e : Expr) : motive e :=
  @Expr.rec motive (fun es => ∀ e ∈ es, motive e) number text sizeOf name call cast paren deref
    addressOf withConstant plus negative negate preStep assign cond shortCircuit binary postStep
    index (by simp) (fun _ _ h hs => List.forall_mem_cons.mpr ⟨h, hs⟩) e

/-- The operands of an expression. -/
def Expr.operands : Expr → List Expr
  | .number _ | .negative _ | .text _ | .sizeOf _ | .name _ => []
  | .call _ args => args
  | .cast _ e | .paren e | .deref e | .addressOf e | .withConstant _ _ e | .plus e | .negate e
  | .preStep _ e | .postStep _ _ e => [e]
  | .assign l r | .shortCircuit _ l r | .binary _ l r | .index l r => [l, r]
  | .cond test yes no => [test, yes, no]

inductive Stmt where
  | expr (e : Expr)
  | ifThen (test : Expr) (yes : Stmt)
  | ifElse (test : Expr) (yes no : Stmt)
  | whileLoop (test : Expr) (body : Stmt)
  | ret (value : Option Expr)
  | block (body : List Stmt)
  | empty

/-- A parameter or a local variable. -/
structure Variable where
  type : CType
  id : SymbolId

/-- One name that a source declares at file level. -/
inductive Item where
  | constant (id : SymbolId) (value : Word)
  | globalVar (type : CType) (id : SymbolId)
  | function (id : SymbolId) (type : CType) (params locals : List Variable) (body : List Stmt)

end MiniC.Syntax
