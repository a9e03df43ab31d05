import MiniC.Proofs.Syntax.Generate

/-!
# Operands whose address is taken

The operators `=`, `++`, `--` and `&` need an address. They take it from the last instruction of
their operand, which must be a load, and ask no further. But the code of an operand can end where
the branches of a `?:`, `&&` or `||` meet (`Expr.meets`), and then the load that is rewritten or
removed belongs to one of the branches only. A tree in which no operand ends that way has plain
lvalues.
-/

namespace MiniC.Syntax

namespace Expr

/-- Whether the code of an expression, less `removed` loads at its end, ends where branches meet. -/
def meets : Expr → (removed : Nat) → Bool
  | .cond _ _ _, _ | .shortCircuit _ _ _, _ => true
  | .paren e, n | .cast _ e, n | .plus e, n => e.meets n
  | .addressOf e, n => e.meets (n + 1)
  | .deref e, n + 1 => e.meets n
  | _, _ => false

mutual

/-- Whether all parts of an expression pass a test, the expression itself included. -/
def every (test : Expr → Bool) : Expr → Bool
  | .number n => test (.number n)
  | .negative n => test (.negative n)
  | .text bytes => test (.text bytes)
  | .sizeOf type => test (.sizeOf type)
  | .name id => test (.name id)
  | .call id args => test (.call id args) && everyArg test args
  | .cast type e => test (.cast type e) && e.every test
  | .paren e => test (.paren e) && e.every test
  | .deref e => test (.deref e) && e.every test
  | .addressOf e => test (.addressOf e) && e.every test
  | .withConstant op constant e => test (.withConstant op constant e) && e.every test
  | .plus e => test (.plus e) && e.every test
  | .negate e => test (.negate e) && e.every test
  | .preStep op e => test (.preStep op e) && e.every test
  | .postStep apply undo e => test (.postStep apply undo e) && e.every test
  | .assign l r => test (.assign l r) && (l.every test && r.every test)
  | .cond t yes no => test (.cond t yes no) && (t.every test && (yes.every test && no.every test))
  | .shortCircuit condition l r =>
    test (.shortCircuit condition l r) && (l.every test && r.every test)
  | .binary op l r => test (.binary op l r) && (l.every test && r.every test)
  | .index l i => test (.index l i) && (l.every test && i.every test)

def everyArg (test : Expr → Bool) : List Expr → Bool
  | [] => true
  | e :: rest => e.every test && everyArg test rest

end

theorem everyArg_eq_true {test : Expr → Bool} {args : List Expr} :
    everyArg test args = true ↔ ∀ e ∈ args, e.every test = true := by
  induction args with
  | nil => simp [everyArg]
  | cons e rest ih => simp [everyArg, ih]

theorem every_self {test : Expr → Bool} {e : Expr} (h : e.every test = true) : test e = true := by
  cases e <;> simp_all [every]

theorem every_operand {test : Expr → Bool} {whole e : Expr} (h : whole.every test = true)
    (he : e ∈ whole.operands) : e.every test = true := by
  cases whole with
  | number _ | negative _ | text _ | sizeOf _ | name _ => simp [operands] at he
  | call id args =>
    rw [every, Bool.and_eq_true, everyArg_eq_true] at h
    exact h.2 e he
  | cast _ _ | paren _ | deref _ | addressOf _ | withConstant _ _ _ | plus _ | negate _
  | preStep _ _ | postStep _ _ _ =>
    rw [every, Bool.and_eq_true] at h
    obtain rfl := List.mem_singleton.mp he
    exact h.2
  | assign _ _ | shortCircuit _ _ _ | binary _ _ _ | index _ _ =>
    rw [every, Bool.and_eq_true, Bool.and_eq_true] at h
    rcases List.mem_pair.mp he with rfl | rfl
    · exact h.2.1
    · exact h.2.2
  | cond test yes no =>
    simp only [every, Bool.and_eq_true] at h
    simp only [operands, List.mem_cons, List.not_mem_nil, or_false] at he
    rcases he with rfl | rfl | rfl
    · exact h.2.1
    · exact h.2.2.1
    · exact h.2.2.2

/-- An operand of `&` does not end where branches meet. -/
def plainAddress : Expr → Bool
  | .addressOf e => !e.meets 0
  | _ => true

/-- An operand of `=`, `++` or `--` does not end where branches meet. -/
def plainTarget : Expr → Bool
  | .assign l _ => !l.meets 0
  | .preStep _ e | .postStep _ _ e => !e.meets 0
  | _ => true

end Expr

mutual

/-- Whether all expressions of a statement and all their parts pass a test. -/
def Stmt.every (test : Expr → Bool) : Stmt → Bool
  | .expr e => e.every test
  | .ifThen t yes => t.every test && yes.every test
  | .ifElse t yes no => t.every test && (yes.every test && no.every test)
  | .whileLoop t body => t.every test && body.every test
  | .ret none => true
  | .ret (some e) => e.every test
  | .block body => Stmt.everyIn test body
  | .empty => true

def Stmt.everyIn (test : Expr → Bool) : List Stmt → Bool
  | [] => true
  | s :: rest => s.every test && Stmt.everyIn test rest

end

/-- Whether all expressions of an item and all their parts pass a test. -/
def Item.every (test : Expr → Bool) : Item → Bool
  | .function _ _ _ _ body => Stmt.everyIn test body
  | _ => true

end MiniC.Syntax
