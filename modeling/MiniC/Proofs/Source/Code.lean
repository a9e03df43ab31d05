import MiniC.Proofs.Source.Language

/-!
# The code of a program over integers

What every construct of the language is translated to, by recursion on the trees. Branches lead to
indices into the code, so the code of a construct depends on the index at which it begins.
-/

namespace MiniC.Source

/-- How a function reaches what its names stand for: the instruction that loads the address of a
variable and the instruction that calls a function. -/
structure Env where
  address : Name → Instr
  call : Name → Instr

/-- The branch that skips the right operand. -/
def LogicOp.branch : LogicOp → Branch
  | and => .ifZero
  | or => .ifNonzero

def Step.op : Step → BinOp
  | increment => .add
  | decrement => .sub

/-- The operation that gives the value back that was there before a step. -/
def Step.undo : Step → BinOp
  | increment => .sub
  | decrement => .add

/-- Changes the variable whose address is in the accumulator. -/
def Step.code (step : Step) : List Instr :=
  [.push, .load .word, .push, .imm 1, .binary step.op, .store .word]

/-- Drops the arguments of a call. -/
def dropCode (count : Nat) : List Instr :=
  if count = 0 then [] else [.adjust (Word.ofNat count)]

mutual

/-- The code of an expression at the index `pos`. -/
def Expr.code (env : Env) (pos : Nat) : Expr → List Instr
  | .literal n => [.imm (Word.ofNat n)]
  | .var x => [env.address x, .load .word]
  | .assign x e => [env.address x, .push] ++ e.code env (pos + 2) ++ [.store .word]
  | .preStep step x => env.address x :: step.code
  | .postStep step x => env.address x :: step.code ++ [.push, .imm 1, .binary step.undo]
  | .unary op e =>
    match op with
    | .not => e.code env pos ++ [.push, .imm 0, .binary .eq]
    | .complement => e.code env pos ++ [.push, .imm (-1), .binary .xor]
    | .negate =>
      -- A minus in front of a number is part of it.
      match e with
      | .literal n => [.imm (-Word.ofNat n)]
      | _ => [.imm (-1), .push] ++ e.code env (pos + 2) ++ [.binary .mul]
  | .binary op l r =>
    let left := l.code env pos
    left ++ [.push] ++ r.code env (pos + left.length + 1) ++ [.binary op]
  | .logic op l r =>
    let left := l.code env pos
    let right := r.code env (pos + left.length + 1)
    left ++ [.branch op.branch (UInt64.ofNat (pos + left.length + 1 + right.length))] ++ right
  | .cond test yes no =>
    let first := test.code env pos
    let second := yes.code env (pos + first.length + 1)
    let start := pos + first.length + 1 + second.length + 1
    let third := no.code env start
    first ++ [.branch .ifZero (UInt64.ofNat start)] ++ second ++
      [.branch .always (UInt64.ofNat (start + third.length))] ++ third
  | .call f args => Expr.codeArgs env pos args ++ env.call f :: dropCode args.length

/-- The code of arguments, each of which is pushed. -/
def Expr.codeArgs (env : Env) (pos : Nat) : List Expr → List Instr
  | [] => []
  | e :: rest =>
    let first := e.code env pos
    first ++ [.push] ++ Expr.codeArgs env (pos + first.length + 1) rest

end

mutual

/-- The code of a statement at the index `pos`. -/
def Stmt.code (env : Env) (pos : Nat) : Stmt → List Instr
  | .expr e => e.code env pos
  | .ifThen test yes =>
    let first := test.code env pos
    let second := Stmt.codeAll env (pos + first.length + 1) yes
    first ++ [.branch .ifZero (UInt64.ofNat (pos + first.length + 1 + second.length))] ++ second
  | .ifElse test yes no =>
    let first := test.code env pos
    let second := Stmt.codeAll env (pos + first.length + 1) yes
    let start := pos + first.length + 1 + second.length + 1
    let third := Stmt.codeAll env start no
    first ++ [.branch .ifZero (UInt64.ofNat start)] ++ second ++
      [.branch .always (UInt64.ofNat (start + third.length))] ++ third
  | .whileLoop test body =>
    let first := test.code env pos
    let second := Stmt.codeAll env (pos + first.length + 1) body
    first ++ [.branch .ifZero (UInt64.ofNat (pos + first.length + 1 + second.length + 1))] ++
      second ++ [.branch .always (UInt64.ofNat pos)]
  | .ret none => [.leave]
  | .ret (some e) => e.code env pos ++ [.leave]
  | .block body => Stmt.codeAll env pos body
  | .skip => []

/-- The code of statements one behind the other. -/
def Stmt.codeAll (env : Env) (pos : Nat) : List Stmt → List Instr
  | [] => []
  | s :: rest =>
    let first := s.code env pos
    first ++ Stmt.codeAll env (pos + first.length) rest

end

/-! ## Names -/

mutual

/-- The names that an expression uses as variables or calls. -/
def Expr.names : Expr → List Name
  | .literal _ => []
  | .var x | .preStep _ x | .postStep _ x => [x]
  | .assign x e => x :: e.names
  | .unary _ e => e.names
  | .binary _ l r | .logic _ l r => l.names ++ r.names
  | .cond test yes no => test.names ++ yes.names ++ no.names
  | .call f args => f :: Expr.namesArgs args

def Expr.namesArgs : List Expr → List Name
  | [] => []
  | e :: rest => e.names ++ Expr.namesArgs rest

end

mutual

def Stmt.names : Stmt → List Name
  | .expr e | .ret (some e) => e.names
  | .ifThen test yes => test.names ++ Stmt.namesAll yes
  | .ifElse test yes no => test.names ++ Stmt.namesAll yes ++ Stmt.namesAll no
  | .whileLoop test body => test.names ++ Stmt.namesAll body
  | .block body => Stmt.namesAll body
  | .ret none | .skip => []

def Stmt.namesAll : List Stmt → List Name
  | [] => []
  | s :: rest => s.names ++ Stmt.namesAll rest

end

end MiniC.Source
