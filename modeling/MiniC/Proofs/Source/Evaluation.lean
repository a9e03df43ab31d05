import MiniC.Proofs.Source.Language

/-!
# What programs mean

Expressions are evaluated from left to right over signed 64-bit words, with results wrapped,
division that truncates and shift counts taken modulo 64. All globals, and the locals of `main`, are
0 at the start. Arguments are passed by value. `&&` and `||` yield the operand that was evaluated
last.

Recursion over trees does everything but repetition: the passes of a loop and the nesting of calls
are bounded by fuel. What the language gives no meaning to is `stuck`: a name that is no variable, a
wrong number of arguments, a call of a function with locals of its own (which would begin with what
the stack holds), and a function that ends without a value.
-/

namespace MiniC.Source

inductive Failure where
  | divisionByZero
  | stuck
  | outOfFuel
  deriving DecidableEq

/-! ## Arithmetic -/

/-- The word that an integer wraps to. -/
def wrap (n : Int) : Word := Int64.ofInt n

def truth (b : Bool) : Word := if b then 1 else 0

/-- By how many bits a word shifts. -/
def shiftCount (w : Word) : Nat := (w.toInt % 64).toNat

def UnaryOp.apply (op : UnaryOp) (a : Word) : Word :=
  match op with
  | not => truth (a.toInt = 0)
  | complement => wrap (-1 - a.toInt)
  | negate => wrap (-a.toInt)

/-- The value of a binary operation. -/
def applyBinary (op : BinOp) (a b : Word) : Except Failure Word :=
  match op with
  | .or => .ok (a ||| b)
  | .xor => .ok (a ^^^ b)
  | .and => .ok (a &&& b)
  | .eq => .ok (truth (a.toInt = b.toInt))
  | .ne => .ok (truth (a.toInt ≠ b.toInt))
  | .lt => .ok (truth (a.toInt < b.toInt))
  | .gt => .ok (truth (b.toInt < a.toInt))
  | .le => .ok (truth (a.toInt ≤ b.toInt))
  | .ge => .ok (truth (b.toInt ≤ a.toInt))
  | .shl => .ok (wrap (a.toInt * 2 ^ shiftCount b))
  | .shr => .ok (wrap (a.toInt / 2 ^ shiftCount b))
  | .add => .ok (wrap (a.toInt + b.toInt))
  | .sub => .ok (wrap (a.toInt - b.toInt))
  | .mul => .ok (wrap (a.toInt * b.toInt))
  | .div => if b.toInt = 0 then .error .divisionByZero else .ok (wrap (a.toInt.tdiv b.toInt))
  | .mod => if b.toInt = 0 then .error .divisionByZero else .ok (wrap (a.toInt.tmod b.toInt))

/-- What a step adds. -/
def Step.amount : Step → Int
  | increment => 1
  | decrement => -1

/-! ## Variables -/

abbrev Vars := Name → Option Word

/-- Variables that are all 0. -/
def zeros (xs : List Name) : Vars := fun x => if x ∈ xs then some 0 else none

/-- Parameters with their arguments. -/
def bind (params : List Name) (args : List Word) : Vars := fun x => (params.zip args).lookup x

/-- The variables of the current function, which hide the globals, and the globals. -/
structure State where
  locals : Vars
  globals : Vars

/-- A computation on variables. -/
abbrev Eval := StateT State (Except Failure)

def stuck {α : Type} : Eval α := throw .stuck

def read (x : Name) : Eval Word := fun s =>
  match s.locals x, s.globals x with
  | some v, _ => .ok (v, s)
  | none, some v => .ok (v, s)
  | none, none => .error .stuck

def write (x : Name) (v : Word) : Eval Unit := fun s =>
  match s.locals x, s.globals x with
  | some _, _ => .ok ((), { s with locals := Function.update s.locals x (some v) })
  | none, some _ => .ok ((), { s with globals := Function.update s.globals x (some v) })
  | none, none => .error .stuck

/-- The meaning of calls: what a function yields for its arguments, and what it does to the globals.
-/
abbrev Calls := Name → List Word → StateT Vars (Except Failure) Word

/-- Calls a function by its name, which a variable of the caller may hide. -/
def invoke (calls : Calls) (f : Name) (args : List Word) : Eval Word := fun s =>
  match s.locals f with
  | some _ => .error .stuck
  | none => do
    let (v, globals) ← calls f args s.globals
    return (v, { s with globals })

/-! ## Expressions -/

mutual

def Expr.eval (calls : Calls) : Expr → Eval Word
  | .literal n => return wrap n
  | .var x => read x
  | .assign x e => do
    let v ← e.eval calls
    write x v
    return v
  | .preStep step x => do
    let v ← read x
    write x (wrap (v.toInt + step.amount))
    return wrap (v.toInt + step.amount)
  | .postStep step x => do
    let v ← read x
    write x (wrap (v.toInt + step.amount))
    return v
  | .unary op e => do
    let a ← e.eval calls
    return op.apply a
  | .binary op l r => do
    let a ← l.eval calls
    let b ← r.eval calls
    applyBinary op a b
  | .logic op l r => do
    let a ← l.eval calls
    match op with
    | .and => if a = 0 then return a else r.eval calls
    | .or => if a = 0 then r.eval calls else return a
  | .cond test yes no => do
    let a ← test.eval calls
    if a = 0 then no.eval calls else yes.eval calls
  | .call f args => do
    let values ← Expr.evalArgs calls args
    invoke calls f values

def Expr.evalArgs (calls : Calls) : List Expr → Eval (List Word)
  | [] => return []
  | e :: rest => do
    let v ← e.eval calls
    let values ← Expr.evalArgs calls rest
    return v :: values

end

/-! ## Statements -/

/-- How a statement ends. -/
inductive Flow where
  | next
  | ret (value : Word)

/-- Runs `body` while `test` does not yield 0, for less than the given number of passes. -/
def iterate (test : Eval Word) (body : Eval Flow) : Nat → Eval Flow
  | 0 => throw .outOfFuel
  | fuel + 1 => do
    let a ← test
    if a = 0 then return .next
    else match ← body with
      | .next => iterate test body fuel
      | .ret v => return .ret v

mutual

def Stmt.exec (calls : Calls) (fuel : Nat) : Stmt → Eval Flow
  | .expr e => do
    let _ ← e.eval calls
    return .next
  | .ifThen test yes => do
    let a ← test.eval calls
    if a = 0 then return .next else Stmt.execAll calls fuel yes
  | .ifElse test yes no => do
    let a ← test.eval calls
    if a = 0 then Stmt.execAll calls fuel no else Stmt.execAll calls fuel yes
  | .whileLoop test body => iterate (test.eval calls) (Stmt.execAll calls fuel body) fuel
  | .ret none => stuck
  | .ret (some e) => do
    let v ← e.eval calls
    return .ret v
  | .block body => Stmt.execAll calls fuel body
  | .skip => return .next

def Stmt.execAll (calls : Calls) (fuel : Nat) : List Stmt → Eval Flow
  | [] => return .next
  | s :: rest => do
    match ← s.exec calls fuel with
    | .next => Stmt.execAll calls fuel rest
    | .ret v => return .ret v

end

/-! ## Functions and programs -/

/-- Executes the statements of a function up to a `return`. -/
def runBody (calls : Calls) (fuel : Nat) (ss : List Stmt) : Eval Word := do
  match ← Stmt.execAll calls fuel ss with
  | .next => stuck
  | .ret v => return v

/-- The meaning of calls that nest less deeply than the fuel. -/
def Parts.calls (p : Parts) : Nat → Calls
  | 0 => fun _ _ => throw .outOfFuel
  | fuel + 1 => fun f args globals =>
    match p.definitions.find? (·.name = f) with
    | none => .error .stuck
    | some fn =>
      if fn.locals = [] ∧ args.length = fn.params.length then do
        let (v, s) ← runBody (p.calls fuel) fuel fn.body ⟨bind fn.params args, globals⟩
        return (v, s.globals)
      else .error .stuck

theorem Parts.calls_of_none {p : Parts} {fuel : Nat} {f : Name} {args : List Word} {globals : Vars}
    (h : p.definitions.find? (·.name = f) = none) :
    p.calls (fuel + 1) f args globals = .error .stuck := by
  simp only [Parts.calls, h]

theorem Parts.calls_of_some {p : Parts} {fuel : Nat} {f : Name} {args : List Word} {globals : Vars}
    {fn : Function} (h : p.definitions.find? (·.name = f) = some fn) :
    p.calls (fuel + 1) f args globals =
      if fn.locals = [] ∧ args.length = fn.params.length then
        runBody (p.calls fuel) fuel fn.body ⟨bind fn.params args, globals⟩ >>=
          fun r => .ok (r.1, r.2.globals)
      else .error .stuck := by
  simp only [Parts.calls, h]
  rfl

/-- The value that `main` returns. -/
def Parts.eval (p : Parts) (fuel : Nat) : Except Failure Word :=
  (runBody (p.calls fuel) fuel p.body ⟨zeros p.locals, zeros p.globals⟩).map (·.1)

end MiniC.Source
