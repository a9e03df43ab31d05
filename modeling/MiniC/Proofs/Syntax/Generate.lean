import MiniC.Proofs.Syntax.Tree

/-!
# From trees to code

The code of a tree, by recursion on the tree: the code of a construct is put together from the codes
of its parts, each generated for the index at which it stands. A region is never full here.

Beside the instructions and the data bytes a chunk keeps what the instructions alone do not show:
where statements begin, and at which index the branches of a `?:`, `&&` or `||` were to meet. An
operator that takes an address looks at the last instruction only, although such an index may lie
right behind it.

`Expr.Generated` says of which codes the code of an expression is made. What holds of the code of
every expression is shown by induction on it.
-/

namespace MiniC.Syntax

/-- Code for one construct, with the data bytes that it adds. -/
@[ext]
structure Chunk where
  code : List Instr
  data : List UInt8
  /-- The indices at which statements begin. -/
  starts : List Nat
  /-- The indices at which the branches of an expression meet, as the branches hold them. -/
  joins : List UInt64

namespace Chunk

/-- Instructions alone. -/
def ofCode (code : List Instr) : Chunk := ⟨code, [], [], []⟩

/-- A statement begins at the index. -/
def startAt (index : Nat) : Chunk := ⟨[], [], [index], []⟩

/-- Branches meet at the index. -/
def joinAt (index : Nat) : Chunk := ⟨[], [], [], [UInt64.ofNat index]⟩

def append (c c' : Chunk) : Chunk where
  code := c.code ++ c'.code
  data := c.data ++ c'.data
  starts := c.starts ++ c'.starts
  joins := c.joins ++ c'.joins

instance : Append Chunk := ⟨append⟩

def length (c : Chunk) : Nat := c.code.length

/-- The index behind a chunk that stands at `pos`. -/
def stop (c : Chunk) (pos : Nat) : Nat := pos + c.length

/-- Where the last instruction is a load, makes it a push. -/
def rewriteLoad? (c : Chunk) : Option (Width × Chunk) :=
  match c.code.getLast? with
  | some (.load width) => some (width, { c with code := c.code.dropLast ++ [.push] })
  | _ => none

/-- Where the last instruction is a load, removes it. -/
def removeLoad? (c : Chunk) : Option Chunk :=
  match c.code.getLast? with
  | some (.load _) => some { c with code := c.code.dropLast }
  | _ => none

end Chunk

/-- What a function's code is generated with: the bindings of the names in its scope and the slot
number that the frame pointer stands for. -/
structure Context where
  binding : SymbolId → Binding
  frame : Word

/-! ## Expressions -/

/-- The type of a binary operation and the instructions behind its operands. -/
def binaryCode (op : BinOp) (left right : CType) : CType × List Instr :=
  match op with
  | .add => (left, Compile.addOffset left .add)
  | .sub =>
    if left.scales ∧ left = right then (.int, .binary .sub :: Compile.scale .div)
    else (left, Compile.addOffset left .sub)
  | op => (.int, [.binary op])

/-- A name that is not called. -/
def nameCode? (binding : Binding) (frame : Word) : Option (CType × List Instr) :=
  match binding.kind with
  | .constant => some (.int, [.imm binding.value])
  | .localVar =>
    some (binding.type, [.lea (frame - binding.value), .load binding.type.width])
  | .globalVar | .function =>
    some (binding.type, [.imm binding.value, .load binding.type.width])
  | _ => none

/-- The zeros behind a text that ends at the given size of the data segment. -/
def padding (size : Nat) : List UInt8 := List.replicate (wordSize - size % wordSize) 0

/-- The instruction that drops the arguments of a call. -/
def dropArguments (count : Nat) : List Instr :=
  if count ≠ 0 then [.adjust (Word.ofNat count)] else []

mutual

/-- The type of an expression and its code at the index `pos`, with `size` data bytes before it. -/
def Expr.generate (cx : Context) (pos size : Nat) : Expr → Option (CType × Chunk)
  | .number n => some (.int, .ofCode [.imm n])
  | .negative n => some (.int, .ofCode [.imm (-n)])
  | .text bytes =>
    some (CType.char.pointerTo, { Chunk.ofCode [.imm (Word.ofNat (dataBase + size))] with
      data := bytes ++ padding (size + bytes.length) })
  | .sizeOf type => some (.int, .ofCode [.imm (Word.ofNat type.size)])
  | .name id => do
    let (type, code) ← nameCode? (cx.binding id) cx.frame
    some (type, .ofCode code)
  | .call id args => do
    let c ← Expr.generateArgs cx pos size args
    let i ← Compile.callInstr? (cx.binding id) cx.frame
    some ((cx.binding id).type, c ++ .ofCode (i :: dropArguments args.length))
  | .cast type e => do
    let (_, c) ← e.generate cx pos size
    some (type, c)
  | .paren e => e.generate cx pos size
  | .deref e => do
    let (type, c) ← e.generate cx pos size
    let target ← type.deref?
    some (target, c ++ .ofCode [.load target.width])
  | .addressOf e => do
    let (type, c) ← e.generate cx pos size
    let c ← c.removeLoad?
    some (type.pointerTo, c)
  | .withConstant op constant e => do
    let (_, c) ← e.generate cx pos size
    some (.int, c ++ .ofCode [.push, .imm constant, .binary op])
  | .plus e => do
    let (_, c) ← e.generate cx pos size
    some (.int, c)
  | .negate e => do
    let (_, c) ← e.generate cx (pos + 2) size
    some (.int, .ofCode [.imm (-1), .push] ++ c ++ .ofCode [.binary .mul])
  | .preStep op e => do
    let (type, c) ← e.generate cx pos size
    let (width, c) ← c.rewriteLoad?
    some (type, c ++ .ofCode (Compile.stepBy type width op))
  | .assign l r => do
    let (type, c) ← l.generate cx pos size
    let (_, c) ← c.rewriteLoad?
    let (_, c') ← r.generate cx (c.stop pos) (size + c.data.length)
    some (type, c ++ c' ++ .ofCode [.store type.width])
  | .cond test yes no => do
    let (_, c) ← test.generate cx pos size
    let (_, c₁) ← yes.generate cx (c.stop pos + 1) (size + c.data.length)
    let second := c₁.stop (c.stop pos + 1) + 1
    let (type, c₂) ← no.generate cx second (size + c.data.length + c₁.data.length)
    some (type, c ++ .ofCode [.branch .ifZero (UInt64.ofNat second)] ++ c₁ ++
      .ofCode [.branch .always (UInt64.ofNat (c₂.stop second))] ++ c₂ ++ .joinAt (c₂.stop second))
  | .shortCircuit condition l r => do
    let (_, c) ← l.generate cx pos size
    let (_, c') ← r.generate cx (c.stop pos + 1) (size + c.data.length)
    let join := c'.stop (c.stop pos + 1)
    some (.int, c ++ .ofCode [.branch condition (UInt64.ofNat join)] ++ c' ++ .joinAt join)
  | .binary op l r => do
    let (left, c) ← l.generate cx pos size
    let (right, c') ← r.generate cx (c.stop pos + 1) (size + c.data.length)
    some ((binaryCode op left right).1,
      c ++ .ofCode [.push] ++ c' ++ .ofCode (binaryCode op left right).2)
  | .postStep apply undo e => do
    let (type, c) ← e.generate cx pos size
    let (width, c) ← c.rewriteLoad?
    some (type, c ++
      .ofCode (Compile.stepBy type width apply ++ [.push, .imm type.step, .binary undo]))
  | .index l i => do
    let (left, c) ← l.generate cx pos size
    let (_, c') ← i.generate cx (c.stop pos + 1) (size + c.data.length)
    let element ← left.deref?
    some (element, c ++ .ofCode [.push] ++ c' ++
      .ofCode (Compile.addOffset left .add ++ [.load element.width]))

/-- The code of arguments, each of which is pushed. -/
def Expr.generateArgs (cx : Context) (pos size : Nat) : List Expr → Option Chunk
  | [] => some (.ofCode [])
  | e :: rest => do
    let (_, c) ← e.generate cx pos size
    let c' ← Expr.generateArgs cx (c.stop pos + 1) (size + c.data.length) rest
    some (c ++ .ofCode [.push] ++ c')

end

/-! ## Statements -/

mutual

/-- The code of a statement at the index `pos`, with `size` data bytes before it. -/
def Stmt.generate (cx : Context) (pos size : Nat) : Stmt → Option Chunk
  | .expr e => do
    let (_, c) ← e.generate cx pos size
    some (.startAt pos ++ c)
  | .ifThen test yes => do
    let (_, c) ← test.generate cx pos size
    let c₁ ← yes.generate cx (c.stop pos + 1) (size + c.data.length)
    some (.startAt pos ++ c ++
      .ofCode [.branch .ifZero (UInt64.ofNat (c₁.stop (c.stop pos + 1)))] ++ c₁)
  | .ifElse test yes no => do
    let (_, c) ← test.generate cx pos size
    let c₁ ← yes.generate cx (c.stop pos + 1) (size + c.data.length)
    let second := c₁.stop (c.stop pos + 1) + 1
    let c₂ ← no.generate cx second (size + c.data.length + c₁.data.length)
    some (.startAt pos ++ c ++ .ofCode [.branch .ifZero (UInt64.ofNat second)] ++ c₁ ++
      .ofCode [.branch .always (UInt64.ofNat (c₂.stop second))] ++ c₂)
  | .whileLoop test body => do
    let (_, c) ← test.generate cx pos size
    let c₁ ← body.generate cx (c.stop pos + 1) (size + c.data.length)
    some (.startAt pos ++ c ++
      .ofCode [.branch .ifZero (UInt64.ofNat (c₁.stop (c.stop pos + 1) + 1))] ++ c₁ ++
      .ofCode [.branch .always (UInt64.ofNat pos)])
  | .ret none => some (.startAt pos ++ .ofCode [.leave])
  | .ret (some e) => do
    let (_, c) ← e.generate cx pos size
    some (.startAt pos ++ c ++ .ofCode [.leave])
  | .block body => do
    let c ← Stmt.generateAll cx pos size body
    some (.startAt pos ++ c)
  | .empty => some (.startAt pos)

/-- The code of statements one after the other. -/
def Stmt.generateAll (cx : Context) (pos size : Nat) : List Stmt → Option Chunk
  | [] => some (.ofCode [])
  | s :: rest => do
    let c ← s.generate cx pos size
    let c' ← Stmt.generateAll cx (c.stop pos) (size + c.data.length) rest
    some (c ++ c')

end

/-! ## Declarations -/

/-- What has been generated for the items of a source so far: one chunk for each function, and all
data bytes. -/
structure Output where
  symbols : SymbolTable
  bodies : List Chunk
  data : List UInt8

/-- The code of all functions. -/
def Output.code (o : Output) : List Instr := o.bodies.flatMap Chunk.code

/-- Binds variables in the innermost scope, the first of them to `slot`, and returns the slot behind
the last. -/
def declareAll (symbols : SymbolTable) (slot : Word) : List Variable → Option (SymbolTable × Word)
  | [] => some (symbols, slot)
  | v :: rest => do
    let symbols ← symbols.declareLocal? v.id v.type slot
    declareAll symbols (slot + 1) rest

/-- The output after one more item. -/
def Item.generate (o : Output) : Item → Option Output
  | .constant id value => do
    let symbols ← o.symbols.define? id ⟨.constant, .int, value⟩
    some { o with symbols }
  | .globalVar type id => do
    let symbols ← o.symbols.define? id
      ⟨.globalVar, type, Word.ofNat (dataBase + o.data.length)⟩
    some { o with symbols, data := o.data ++ List.replicate wordSize 0 }
  | .function id type params locals body => do
    let start := o.code.length
    let symbols := (o.symbols.define? id ⟨.function, type, Word.ofNat start⟩).getD o.symbols
    let (symbols, slot) ← declareAll symbols.openScope 0 params
    let frame := slot + 1
    let (symbols, next) ← declareAll symbols (frame + 1) locals
    let c ← Stmt.generateAll ⟨symbols.binding, frame⟩ (start + 1) o.data.length body
    some
      { symbols := symbols.closeScope
        bodies := o.bodies ++ [.ofCode [.enter (next - (frame + 1))] ++ c ++ .ofCode [.leave]]
        data := o.data ++ c.data }

/-- The output of all items of a source whose names are in the given table. -/
def generate (symbols : SymbolTable) (items : List Item) : Option Output :=
  items.foldlM Item.generate ⟨symbols, [], []⟩

/-! ## The parts of a chunk -/

namespace Chunk

variable (c c' : Chunk) (code : List Instr) (pos : Nat)

@[simp] theorem code_append : (c ++ c').code = c.code ++ c'.code := rfl
@[simp] theorem data_append : (c ++ c').data = c.data ++ c'.data := rfl
@[simp] theorem starts_append : (c ++ c').starts = c.starts ++ c'.starts := rfl
@[simp] theorem joins_append : (c ++ c').joins = c.joins ++ c'.joins := rfl

@[simp] theorem code_ofCode : (ofCode code).code = code := rfl
@[simp] theorem data_ofCode : (ofCode code).data = [] := rfl
@[simp] theorem starts_ofCode : (ofCode code).starts = [] := rfl
@[simp] theorem joins_ofCode : (ofCode code).joins = [] := rfl

@[simp] theorem code_startAt : (startAt pos).code = [] := rfl
@[simp] theorem data_startAt : (startAt pos).data = [] := rfl
@[simp] theorem starts_startAt : (startAt pos).starts = [pos] := rfl
@[simp] theorem joins_startAt : (startAt pos).joins = [] := rfl

@[simp] theorem code_joinAt : (joinAt pos).code = [] := rfl
@[simp] theorem data_joinAt : (joinAt pos).data = [] := rfl
@[simp] theorem starts_joinAt : (joinAt pos).starts = [] := rfl
@[simp] theorem joins_joinAt : (joinAt pos).joins = [UInt64.ofNat pos] := rfl

theorem stop_eq : c.stop pos = pos + c.code.length := rfl

theorem stop_append : (c ++ c').stop pos = c'.stop (c.stop pos) := by
  simp [stop_eq, Nat.add_assoc]

theorem stop_concat (i : Instr) : (c ++ ofCode [i]).stop pos = c.stop pos + 1 := by
  simp [stop_eq, Nat.add_assoc]

@[simp] theorem ofCode_nil_append : ofCode [] ++ c = c := by
  ext1 <;> simp

@[simp] theorem append_ofCode_nil : c ++ ofCode [] = c := by
  ext1 <;> simp

theorem append_assoc (c'' : Chunk) : c ++ c' ++ c'' = c ++ (c' ++ c'') := by
  ext1 <;> simp

end Chunk

/-! ## What the code of a construct is made of -/

namespace Expr

variable {cx : Context} {pos size : Nat} {t : CType} {c : Chunk}

attribute [local simp] generate generateArgs

theorem generate_name {id : SymbolId} (h : (name id).generate cx pos size = some (t, c)) :
    ∃ code, nameCode? (cx.binding id) cx.frame = some (t, code) ∧ c = .ofCode code := by
  simp only [generate, Option.bind_eq_bind, Option.bind_eq_some_iff, Prod.exists, Option.some.injEq,
    Prod.mk.injEq] at h
  obtain ⟨_, code, h₁, rfl, rfl⟩ := h
  exact ⟨code, h₁, rfl⟩

theorem generate_call {id : SymbolId} {args : List Expr}
    (h : (call id args).generate cx pos size = some (t, c)) :
    ∃ c' i, generateArgs cx pos size args = some c' ∧
      Compile.callInstr? (cx.binding id) cx.frame = some i ∧ t = (cx.binding id).type ∧
      c = c' ++ .ofCode (i :: dropArguments args.length) := by
  simp only [generate, Option.bind_eq_bind, Option.bind_eq_some_iff, Option.some.injEq,
    Prod.mk.injEq] at h
  obtain ⟨c', h₁, i, h₂, rfl, rfl⟩ := h
  exact ⟨c', i, h₁, h₂, rfl, rfl⟩

theorem generateArgs_cons {e : Expr} {rest : List Expr}
    (h : generateArgs cx pos size (e :: rest) = some c) :
    ∃ t₁ c₁ c₂, e.generate cx pos size = some (t₁, c₁) ∧
      generateArgs cx (c₁.stop pos + 1) (size + c₁.data.length) rest = some c₂ ∧
      c = c₁ ++ .ofCode [.push] ++ c₂ := by
  simp only [generateArgs, Option.bind_eq_bind, Option.bind_eq_some_iff, Prod.exists,
    Option.some.injEq] at h
  obtain ⟨t₁, c₁, h₁, c₂, h₂, rfl⟩ := h
  exact ⟨t₁, c₁, c₂, h₁, h₂, rfl⟩

/-- Induction on the code of arguments. -/
theorem generateArgs_induction {motive : List Expr → Nat → Nat → Chunk → Prop} {args : List Expr}
    (nil : ∀ pos size, motive [] pos size (.ofCode []))
    (cons : ∀ e ∈ args, ∀ {rest pos size t c c'}, e.generate cx pos size = some (t, c) →
      motive rest (c.stop pos + 1) (size + c.data.length) c' →
      motive (e :: rest) pos size (c ++ .ofCode [.push] ++ c'))
    (h : generateArgs cx pos size args = some c) : motive args pos size c := by
  induction args generalizing pos size c with
  | nil =>
    simp only [generateArgs, Option.some.injEq] at h
    subst h
    exact nil pos size
  | cons e rest ih =>
    obtain ⟨t₁, c₁, c₂, h₁, h₂, rfl⟩ := generateArgs_cons h
    exact cons e (by simp) h₁ (ih (fun e he => cons e (by simp [he])) h₂)

/-- One more argument behind others. -/
theorem generateArgs_concat {e : Expr} {c' : Chunk} :
    ∀ {args : List Expr} {pos size : Nat} {c : Chunk}, generateArgs cx pos size args = some c →
      e.generate cx (c.stop pos) (size + c.data.length) = some (t, c') →
      generateArgs cx pos size (args ++ [e]) = some (c ++ (c' ++ .ofCode [.push]))
  | [], pos, size, c, h, he => by
    simp only [generateArgs, Option.some.injEq] at h
    subst h
    have he' : e.generate cx pos size = some (t, c') := he
    simp [he']
  | a :: args, pos, size, c, h, he => by
    obtain ⟨t₁, c₁, c₂, h₁, h₂, rfl⟩ := generateArgs_cons h
    have he' : e.generate cx (c₂.stop (c₁.stop pos + 1)) (size + c₁.data.length + c₂.data.length) =
        some (t, c') := by
      simpa [Chunk.stop_eq, Nat.add_assoc, Nat.add_comm 1] using he
    simp [h₁, generateArgs_concat h₂ he', Chunk.append_assoc]

theorem generate_cast {type : CType} {e : Expr}
    (h : (cast type e).generate cx pos size = some (t, c)) :
    ∃ t', e.generate cx pos size = some (t', c) ∧ t = type := by
  simp only [generate, Option.bind_eq_bind, Option.bind_eq_some_iff, Prod.exists, Option.some.injEq,
    Prod.mk.injEq] at h
  obtain ⟨t', _, h₁, rfl, rfl⟩ := h
  exact ⟨t', h₁, rfl⟩

theorem generate_plus {e : Expr} (h : (plus e).generate cx pos size = some (t, c)) :
    ∃ t', e.generate cx pos size = some (t', c) ∧ t = .int := by
  simp only [generate, Option.bind_eq_bind, Option.bind_eq_some_iff, Prod.exists, Option.some.injEq,
    Prod.mk.injEq] at h
  obtain ⟨t', _, h₁, rfl, rfl⟩ := h
  exact ⟨t', h₁, rfl⟩

theorem generate_deref {e : Expr} (h : (deref e).generate cx pos size = some (t, c)) :
    ∃ t' c', e.generate cx pos size = some (t', c') ∧ t'.deref? = some t ∧
      c = c' ++ .ofCode [.load t.width] := by
  simp only [generate, Option.bind_eq_bind, Option.bind_eq_some_iff, Prod.exists, Option.some.injEq,
    Prod.mk.injEq] at h
  obtain ⟨t', c', h₁, _, h₂, rfl, rfl⟩ := h
  exact ⟨t', c', h₁, h₂, rfl⟩

theorem generate_addressOf {e : Expr} (h : (addressOf e).generate cx pos size = some (t, c)) :
    ∃ t' c', e.generate cx pos size = some (t', c') ∧ c'.removeLoad? = some c ∧
      t = t'.pointerTo := by
  simp only [generate, Option.bind_eq_bind, Option.bind_eq_some_iff, Prod.exists, Option.some.injEq,
    Prod.mk.injEq] at h
  obtain ⟨t', c', h₁, _, h₂, rfl, rfl⟩ := h
  exact ⟨t', c', h₁, h₂, rfl⟩

theorem generate_withConstant {op : BinOp} {constant : Word} {e : Expr}
    (h : (withConstant op constant e).generate cx pos size = some (t, c)) :
    ∃ t' c', e.generate cx pos size = some (t', c') ∧ t = .int ∧
      c = c' ++ .ofCode [.push, .imm constant, .binary op] := by
  simp only [generate, Option.bind_eq_bind, Option.bind_eq_some_iff, Prod.exists, Option.some.injEq,
    Prod.mk.injEq] at h
  obtain ⟨t', c', h₁, rfl, rfl⟩ := h
  exact ⟨t', c', h₁, rfl, rfl⟩

theorem generate_negate {e : Expr} (h : (negate e).generate cx pos size = some (t, c)) :
    ∃ t' c', e.generate cx (pos + 2) size = some (t', c') ∧ t = .int ∧
      c = .ofCode [.imm (-1), .push] ++ c' ++ .ofCode [.binary .mul] := by
  simp only [generate, Option.bind_eq_bind, Option.bind_eq_some_iff, Prod.exists, Option.some.injEq,
    Prod.mk.injEq] at h
  obtain ⟨t', c', h₁, rfl, rfl⟩ := h
  exact ⟨t', c', h₁, rfl, rfl⟩

theorem generate_preStep {op : BinOp} {e : Expr}
    (h : (preStep op e).generate cx pos size = some (t, c)) :
    ∃ c₀ w c', e.generate cx pos size = some (t, c₀) ∧ c₀.rewriteLoad? = some (w, c') ∧
      c = c' ++ .ofCode (Compile.stepBy t w op) := by
  simp only [generate, Option.bind_eq_bind, Option.bind_eq_some_iff, Prod.exists, Option.some.injEq,
    Prod.mk.injEq] at h
  obtain ⟨_, c₀, h₁, w, c', h₂, rfl, rfl⟩ := h
  exact ⟨c₀, w, c', h₁, h₂, rfl⟩

theorem generate_postStep {apply undo : BinOp} {e : Expr}
    (h : (postStep apply undo e).generate cx pos size = some (t, c)) :
    ∃ c₀ w c', e.generate cx pos size = some (t, c₀) ∧ c₀.rewriteLoad? = some (w, c') ∧
      c = c' ++ .ofCode (Compile.stepBy t w apply ++ [.push, .imm t.step, .binary undo]) := by
  simp only [generate, Option.bind_eq_bind, Option.bind_eq_some_iff, Prod.exists, Option.some.injEq,
    Prod.mk.injEq] at h
  obtain ⟨_, c₀, h₁, w, c', h₂, rfl, rfl⟩ := h
  exact ⟨c₀, w, c', h₁, h₂, rfl⟩

theorem generate_assign {l r : Expr} (h : (assign l r).generate cx pos size = some (t, c)) :
    ∃ c₀ w c₁ t₂ c₂, l.generate cx pos size = some (t, c₀) ∧
      c₀.rewriteLoad? = some (w, c₁) ∧
      r.generate cx (c₁.stop pos) (size + c₁.data.length) = some (t₂, c₂) ∧
      c = c₁ ++ c₂ ++ .ofCode [.store t.width] := by
  simp only [generate, Option.bind_eq_bind, Option.bind_eq_some_iff, Prod.exists, Option.some.injEq,
    Prod.mk.injEq] at h
  obtain ⟨_, c₀, h₁, w, c₁, h₂, t₂, c₂, h₃, rfl, rfl⟩ := h
  exact ⟨c₀, w, c₁, t₂, c₂, h₁, h₂, h₃, rfl⟩

theorem generate_cond {test yes no : Expr}
    (h : (cond test yes no).generate cx pos size = some (t, c)) :
    ∃ t₀ c₀ t₁ c₁ second c₂, test.generate cx pos size = some (t₀, c₀) ∧
      yes.generate cx (c₀.stop pos + 1) (size + c₀.data.length) = some (t₁, c₁) ∧
      second = c₁.stop (c₀.stop pos + 1) + 1 ∧
      no.generate cx second (size + c₀.data.length + c₁.data.length) = some (t, c₂) ∧
      c = c₀ ++ .ofCode [.branch .ifZero (UInt64.ofNat second)] ++ c₁ ++
        .ofCode [.branch .always (UInt64.ofNat (c₂.stop second))] ++ c₂ ++
        .joinAt (c₂.stop second) := by
  simp only [generate, Option.bind_eq_bind, Option.bind_eq_some_iff, Prod.exists, Option.some.injEq,
    Prod.mk.injEq] at h
  obtain ⟨t₀, c₀, h₀, t₁, c₁, h₁, _, c₂, h₂, rfl, rfl⟩ := h
  exact ⟨t₀, c₀, t₁, c₁, _, c₂, h₀, h₁, rfl, h₂, rfl⟩

theorem generate_shortCircuit {condition : Branch} {l r : Expr}
    (h : (shortCircuit condition l r).generate cx pos size = some (t, c)) :
    ∃ t₀ c₀ t₁ c₁, l.generate cx pos size = some (t₀, c₀) ∧
      r.generate cx (c₀.stop pos + 1) (size + c₀.data.length) = some (t₁, c₁) ∧ t = .int ∧
      c = c₀ ++ .ofCode [.branch condition (UInt64.ofNat (c₁.stop (c₀.stop pos + 1)))] ++ c₁ ++
        .joinAt (c₁.stop (c₀.stop pos + 1)) := by
  simp only [generate, Option.bind_eq_bind, Option.bind_eq_some_iff, Prod.exists, Option.some.injEq,
    Prod.mk.injEq] at h
  obtain ⟨t₀, c₀, h₀, t₁, c₁, h₁, rfl, rfl⟩ := h
  exact ⟨t₀, c₀, t₁, c₁, h₀, h₁, rfl, rfl⟩

theorem generate_binary {op : BinOp} {l r : Expr}
    (h : (binary op l r).generate cx pos size = some (t, c)) :
    ∃ t₀ c₀ t₁ c₁, l.generate cx pos size = some (t₀, c₀) ∧
      r.generate cx (c₀.stop pos + 1) (size + c₀.data.length) = some (t₁, c₁) ∧
      t = (binaryCode op t₀ t₁).1 ∧
      c = c₀ ++ .ofCode [.push] ++ c₁ ++ .ofCode (binaryCode op t₀ t₁).2 := by
  simp only [generate, Option.bind_eq_bind, Option.bind_eq_some_iff, Prod.exists, Option.some.injEq,
    Prod.mk.injEq] at h
  obtain ⟨t₀, c₀, h₀, t₁, c₁, h₁, rfl, rfl⟩ := h
  exact ⟨t₀, c₀, t₁, c₁, h₀, h₁, rfl, rfl⟩

theorem generate_index {l i : Expr} (h : (index l i).generate cx pos size = some (t, c)) :
    ∃ t₀ c₀ t₁ c₁, l.generate cx pos size = some (t₀, c₀) ∧
      i.generate cx (c₀.stop pos + 1) (size + c₀.data.length) = some (t₁, c₁) ∧
      t₀.deref? = some t ∧
      c = c₀ ++ .ofCode [.push] ++ c₁ ++
        .ofCode (Compile.addOffset t₀ .add ++ [.load t.width]) := by
  simp only [generate, Option.bind_eq_bind, Option.bind_eq_some_iff, Prod.exists, Option.some.injEq,
    Prod.mk.injEq] at h
  obtain ⟨t₀, c₀, h₀, t₁, c₁, h₁, _, h₂, rfl, rfl⟩ := h
  exact ⟨t₀, c₀, t₁, c₁, h₀, h₁, h₂, rfl⟩

/-- How the type and the code of an expression come about from those of its operands. -/
inductive Generated (cx : Context) : Expr → Nat → Nat → CType → Chunk → Prop
  | number {pos size : Nat} (n : Word) : Generated cx (.number n) pos size .int (.ofCode [.imm n])
  | negative {pos size : Nat} (n : Word) :
      Generated cx (.negative n) pos size .int (.ofCode [.imm (-n)])
  | sizeOf {pos size : Nat} (type : CType) :
      Generated cx (.sizeOf type) pos size .int (.ofCode [.imm (Word.ofNat type.size)])
  | text {pos size : Nat} (bytes : List UInt8) :
      Generated cx (.text bytes) pos size CType.char.pointerTo
        { Chunk.ofCode [.imm (Word.ofNat (dataBase + size))] with
          data := bytes ++ padding (size + bytes.length) }
  | name {pos size : Nat} {id : SymbolId} {t : CType} {code : List Instr}
      (hcode : nameCode? (cx.binding id) cx.frame = some (t, code)) :
      Generated cx (.name id) pos size t (.ofCode code)
  | call {pos size : Nat} {id : SymbolId} {c : Chunk} {i : Instr} (args : List Expr)
      (hargs : generateArgs cx pos size args = some c)
      (h : ∀ e ∈ args, ∀ {pos size t c}, e.generate cx pos size = some (t, c) →
        Generated cx e pos size t c)
      (hi : Compile.callInstr? (cx.binding id) cx.frame = some i) :
      Generated cx (.call id args) pos size (cx.binding id).type
        (c ++ .ofCode (i :: dropArguments args.length))
  | cast {pos size : Nat} {e : Expr} {t : CType} {c : Chunk} (type : CType)
      (h : Generated cx e pos size t c) : Generated cx (.cast type e) pos size type c
  | paren {pos size : Nat} {e : Expr} {t : CType} {c : Chunk} (h : Generated cx e pos size t c) :
      Generated cx (.paren e) pos size t c
  | plus {pos size : Nat} {e : Expr} {t : CType} {c : Chunk} (h : Generated cx e pos size t c) :
      Generated cx (.plus e) pos size .int c
  | deref {pos size : Nat} {e : Expr} {t t' : CType} {c : Chunk} (h : Generated cx e pos size t c)
      (ht : t.deref? = some t') :
      Generated cx (.deref e) pos size t' (c ++ .ofCode [.load t'.width])
  | addressOf {pos size : Nat} {e : Expr} {t : CType} {c c' : Chunk}
      (h : Generated cx e pos size t c) (hrem : c.removeLoad? = some c') :
      Generated cx (.addressOf e) pos size t.pointerTo c'
  | withConstant {pos size : Nat} {e : Expr} {t : CType} {c : Chunk} (op : BinOp) (constant : Word)
      (h : Generated cx e pos size t c) :
      Generated cx (.withConstant op constant e) pos size .int
        (c ++ .ofCode [.push, .imm constant, .binary op])
  | negate {pos size : Nat} {e : Expr} {t : CType} {c : Chunk}
      (h : Generated cx e (pos + 2) size t c) :
      Generated cx (.negate e) pos size .int
        (.ofCode [.imm (-1), .push] ++ c ++ .ofCode [.binary .mul])
  | preStep {pos size : Nat} {e : Expr} {t : CType} {c c' : Chunk} {w : Width} (op : BinOp)
      (h : Generated cx e pos size t c) (hrew : c.rewriteLoad? = some (w, c')) :
      Generated cx (.preStep op e) pos size t (c' ++ .ofCode (Compile.stepBy t w op))
  | postStep {pos size : Nat} {e : Expr} {t : CType} {c c' : Chunk} {w : Width}
      (apply undo : BinOp) (h : Generated cx e pos size t c)
      (hrew : c.rewriteLoad? = some (w, c')) :
      Generated cx (.postStep apply undo e) pos size t
        (c' ++ .ofCode (Compile.stepBy t w apply ++ [.push, .imm t.step, .binary undo]))
  | assign {pos size : Nat} {l r : Expr} {t t₁ : CType} {c₀ c c₁ : Chunk} {w : Width}
      (h : Generated cx l pos size t c₀) (hrew : c₀.rewriteLoad? = some (w, c))
      (h₁ : Generated cx r (c.stop pos) (size + c.data.length) t₁ c₁) :
      Generated cx (.assign l r) pos size t (c ++ c₁ ++ .ofCode [.store t.width])
  | cond {pos size second : Nat} {test yes no : Expr} {t t₁ t₂ : CType} {c c₁ c₂ : Chunk}
      (h : Generated cx test pos size t c)
      (h₁ : Generated cx yes (c.stop pos + 1) (size + c.data.length) t₁ c₁)
      (hsecond : second = c₁.stop (c.stop pos + 1) + 1)
      (h₂ : Generated cx no second (size + c.data.length + c₁.data.length) t₂ c₂) :
      Generated cx (.cond test yes no) pos size t₂
        (c ++ .ofCode [.branch .ifZero (UInt64.ofNat second)] ++ c₁ ++
          .ofCode [.branch .always (UInt64.ofNat (c₂.stop second))] ++ c₂ ++
          .joinAt (c₂.stop second))
  | shortCircuit {pos size : Nat} {l r : Expr} {t t₁ : CType} {c c₁ : Chunk} (condition : Branch)
      (h : Generated cx l pos size t c)
      (h₁ : Generated cx r (c.stop pos + 1) (size + c.data.length) t₁ c₁) :
      Generated cx (.shortCircuit condition l r) pos size .int
        (c ++ .ofCode [.branch condition (UInt64.ofNat (c₁.stop (c.stop pos + 1)))] ++ c₁ ++
          .joinAt (c₁.stop (c.stop pos + 1)))
  | binary {pos size : Nat} {l r : Expr} {c c₁ : Chunk} (op : BinOp) (t t₁ : CType)
      (h : Generated cx l pos size t c)
      (h₁ : Generated cx r (c.stop pos + 1) (size + c.data.length) t₁ c₁) :
      Generated cx (.binary op l r) pos size (binaryCode op t t₁).1
        (c ++ .ofCode [.push] ++ c₁ ++ .ofCode (binaryCode op t t₁).2)
  | index {pos size : Nat} {l i : Expr} {t' t₁ : CType} {c c₁ : Chunk} (t : CType)
      (h : Generated cx l pos size t c)
      (h₁ : Generated cx i (c.stop pos + 1) (size + c.data.length) t₁ c₁)
      (ht : t.deref? = some t') :
      Generated cx (.index l i) pos size t' (c ++ .ofCode [.push] ++ c₁ ++
        .ofCode (Compile.addOffset t .add ++ [.load t'.width]))

/-- What has been generated came about construct by construct, so that a proof about the code of
every expression is an induction with one case for each. -/
theorem generated {e : Expr} (h : e.generate cx pos size = some (t, c)) :
    Generated cx e pos size t c := by
  induction e generalizing pos size t c with
  | number n | negative n | sizeOf type | text bytes =>
    simp only [generate, Option.some.injEq, Prod.mk.injEq] at h
    obtain ⟨rfl, rfl⟩ := h
    constructor
  | name id =>
    obtain ⟨code, hcode, rfl⟩ := generate_name h
    exact .name hcode
  | call id args ih =>
    obtain ⟨c', i, hargs, hi, rfl, rfl⟩ := generate_call h
    exact .call args hargs (fun e he _ _ _ _ h => ih e he h) hi
  | cast type e ih =>
    obtain ⟨t', h', rfl⟩ := generate_cast h
    exact .cast _ (ih h')
  | paren e ih => exact .paren (ih h)
  | plus e ih =>
    obtain ⟨t', h', rfl⟩ := generate_plus h
    exact .plus (ih h')
  | deref e ih =>
    obtain ⟨t', c', h', ht, rfl⟩ := generate_deref h
    exact .deref (ih h') ht
  | addressOf e ih =>
    obtain ⟨t', c', h', hrem, rfl⟩ := generate_addressOf h
    exact .addressOf (ih h') hrem
  | withConstant op constant e ih =>
    obtain ⟨t', c', h', rfl, rfl⟩ := generate_withConstant h
    exact .withConstant op constant (ih h')
  | negate e ih =>
    obtain ⟨t', c', h', rfl, rfl⟩ := generate_negate h
    exact .negate (ih h')
  | preStep op e ih =>
    obtain ⟨c₀, w, c', h', hrew, rfl⟩ := generate_preStep h
    exact .preStep op (ih h') hrew
  | postStep apply undo e ih =>
    obtain ⟨c₀, w, c', h', hrew, rfl⟩ := generate_postStep h
    exact .postStep apply undo (ih h') hrew
  | assign l r ihl ihr =>
    obtain ⟨c₀, w, c₁, t₂, c₂, h', hrew, h₂, rfl⟩ := generate_assign h
    exact .assign (ihl h') hrew (ihr h₂)
  | cond test yes no iht ihy ihn =>
    obtain ⟨t₀, c₀, t₁, c₁, second, c₂, h₀, h₁, hsecond, h₂, rfl⟩ := generate_cond h
    exact .cond (iht h₀) (ihy h₁) hsecond (ihn h₂)
  | shortCircuit condition l r ihl ihr =>
    obtain ⟨t₀, c₀, t₁, c₁, h₀, h₁, rfl, rfl⟩ := generate_shortCircuit h
    exact .shortCircuit condition (ihl h₀) (ihr h₁)
  | binary op l r ihl ihr =>
    obtain ⟨t₀, c₀, t₁, c₁, h₀, h₁, rfl, rfl⟩ := generate_binary h
    exact .binary op t₀ t₁ (ihl h₀) (ihr h₁)
  | index l i ihl ihi =>
    obtain ⟨t₀, c₀, t₁, c₁, h₀, h₁, ht, rfl⟩ := generate_index h
    exact .index t₀ (ihl h₀) (ihi h₁) ht

theorem Generated.generate_eq {e : Expr} (h : Generated cx e pos size t c) :
    e.generate cx pos size = some (t, c) := by
  induction h with
  | number _ | negative _ | sizeOf _ | text _ => rfl
  | name hcode => simp [hcode]
  | call _ hargs _ hi => simp [hargs, hi]
  | paren _ ih => exact ih
  | cast _ _ ih | plus _ ih | withConstant _ _ _ ih | negate _ ih => simp [ih]
  | deref _ ht ih => simp [ih, ht]
  | addressOf _ hrem ih => simp [ih, hrem]
  | preStep _ _ hrew ih | postStep _ _ _ hrew ih => simp [ih, hrew]
  | assign _ hrew _ ih ih₁ => simp [ih, hrew, ih₁]
  | cond _ _ hsecond _ ih ih₁ ih₂ =>
    subst hsecond
    simp [ih, ih₁, ih₂]
  | shortCircuit _ _ _ ih ih₁ | binary _ _ _ _ _ ih ih₁ => simp [ih, ih₁]
  | index _ _ _ ht ih ih₁ => simp [ih, ih₁, ht]

end Expr

namespace Stmt

variable {cx : Context} {pos size : Nat} {c : Chunk}

attribute [local simp] generate generateAll

theorem generate_expr {e : Expr} (h : (expr e).generate cx pos size = some c) :
    ∃ t c', e.generate cx pos size = some (t, c') ∧ c = .startAt pos ++ c' := by
  simp only [generate, Option.bind_eq_bind, Option.bind_eq_some_iff, Prod.exists,
    Option.some.injEq] at h
  obtain ⟨t, c', h₁, rfl⟩ := h
  exact ⟨t, c', h₁, rfl⟩

theorem generate_ifThen {test : Expr} {yes : Stmt}
    (h : (ifThen test yes).generate cx pos size = some c) :
    ∃ t c₀ c₁, test.generate cx pos size = some (t, c₀) ∧
      yes.generate cx (c₀.stop pos + 1) (size + c₀.data.length) = some c₁ ∧
      c = .startAt pos ++ c₀ ++
        .ofCode [.branch .ifZero (UInt64.ofNat (c₁.stop (c₀.stop pos + 1)))] ++ c₁ := by
  simp only [generate, Option.bind_eq_bind, Option.bind_eq_some_iff, Prod.exists,
    Option.some.injEq] at h
  obtain ⟨t, c₀, h₀, c₁, h₁, rfl⟩ := h
  exact ⟨t, c₀, c₁, h₀, h₁, rfl⟩

theorem generate_ifElse {test : Expr} {yes no : Stmt}
    (h : (ifElse test yes no).generate cx pos size = some c) :
    ∃ t c₀ c₁ second c₂, test.generate cx pos size = some (t, c₀) ∧
      yes.generate cx (c₀.stop pos + 1) (size + c₀.data.length) = some c₁ ∧
      second = c₁.stop (c₀.stop pos + 1) + 1 ∧
      no.generate cx second (size + c₀.data.length + c₁.data.length) = some c₂ ∧
      c = .startAt pos ++ c₀ ++ .ofCode [.branch .ifZero (UInt64.ofNat second)] ++ c₁ ++
        .ofCode [.branch .always (UInt64.ofNat (c₂.stop second))] ++ c₂ := by
  simp only [generate, Option.bind_eq_bind, Option.bind_eq_some_iff, Prod.exists,
    Option.some.injEq] at h
  obtain ⟨t, c₀, h₀, c₁, h₁, c₂, h₂, rfl⟩ := h
  exact ⟨t, c₀, c₁, _, c₂, h₀, h₁, rfl, h₂, rfl⟩

theorem generate_whileLoop {test : Expr} {body : Stmt}
    (h : (whileLoop test body).generate cx pos size = some c) :
    ∃ t c₀ c₁, test.generate cx pos size = some (t, c₀) ∧
      body.generate cx (c₀.stop pos + 1) (size + c₀.data.length) = some c₁ ∧
      c = .startAt pos ++ c₀ ++
        .ofCode [.branch .ifZero (UInt64.ofNat (c₁.stop (c₀.stop pos + 1) + 1))] ++ c₁ ++
        .ofCode [.branch .always (UInt64.ofNat pos)] := by
  simp only [generate, Option.bind_eq_bind, Option.bind_eq_some_iff, Prod.exists,
    Option.some.injEq] at h
  obtain ⟨t, c₀, h₀, c₁, h₁, rfl⟩ := h
  exact ⟨t, c₀, c₁, h₀, h₁, rfl⟩

theorem generate_ret_some {e : Expr} (h : (ret (some e)).generate cx pos size = some c) :
    ∃ t c', e.generate cx pos size = some (t, c') ∧
      c = .startAt pos ++ c' ++ .ofCode [.leave] := by
  simp only [generate, Option.bind_eq_bind, Option.bind_eq_some_iff, Prod.exists,
    Option.some.injEq] at h
  obtain ⟨t, c', h₁, rfl⟩ := h
  exact ⟨t, c', h₁, rfl⟩

theorem generate_block {body : List Stmt} (h : (block body).generate cx pos size = some c) :
    ∃ c', generateAll cx pos size body = some c' ∧ c = .startAt pos ++ c' := by
  simp only [generate, Option.bind_eq_bind, Option.bind_eq_some_iff, Option.some.injEq] at h
  obtain ⟨c', h₁, rfl⟩ := h
  exact ⟨c', h₁, rfl⟩

theorem generateAll_cons {s : Stmt} {rest : List Stmt}
    (h : generateAll cx pos size (s :: rest) = some c) :
    ∃ c₁ c₂, s.generate cx pos size = some c₁ ∧
      generateAll cx (c₁.stop pos) (size + c₁.data.length) rest = some c₂ ∧ c = c₁ ++ c₂ := by
  simp only [generateAll, Option.bind_eq_bind, Option.bind_eq_some_iff, Option.some.injEq] at h
  obtain ⟨c₁, h₁, c₂, h₂, rfl⟩ := h
  exact ⟨c₁, c₂, h₁, h₂, rfl⟩

/-- One more statement behind others. -/
theorem generateAll_concat {s : Stmt} {c' : Chunk} :
    ∀ {body : List Stmt} {pos size : Nat} {c : Chunk}, generateAll cx pos size body = some c →
      s.generate cx (c.stop pos) (size + c.data.length) = some c' →
      generateAll cx pos size (body ++ [s]) = some (c ++ c')
  | [], pos, size, c, h, hs => by
    simp only [generateAll, Option.some.injEq] at h
    subst h
    have hs' : s.generate cx pos size = some c' := hs
    simp [hs']
  | _ :: body, pos, size, c, h, hs => by
    obtain ⟨c₁, c₂, h₁, h₂, rfl⟩ := generateAll_cons h
    have hs' : s.generate cx (c₂.stop (c₁.stop pos)) (size + c₁.data.length + c₂.data.length) =
        some c' := by
      simpa [Chunk.stop_eq, Nat.add_assoc] using hs
    simp [h₁, generateAll_concat h₂ hs', Chunk.append_assoc]

end Stmt

theorem declareAll_append {t : SymbolTable} {slot : Word} (vs ws : List Variable) :
    declareAll t slot (vs ++ ws) =
      (declareAll t slot vs).bind fun r => declareAll r.1 r.2 ws := by
  induction vs generalizing t slot with
  | nil => rfl
  | cons v vs ih =>
    cases h : t.declareLocal? v.id v.type slot with
    | none => simp [declareAll, h]
    | some t' => simp [declareAll, h, ih]

theorem Output.code_concat (o : Output) (c : Chunk) (t : SymbolTable) (data : List UInt8) :
    (Output.mk t (o.bodies ++ [c]) data).code = o.code ++ c.code := by
  simp [Output.code]

/-- What has been generated before an item, behind it and in the end. -/
theorem generate_split {t : SymbolTable} {before after : List Item} {item : Item} {o : Output}
    (h : generate t (before ++ item :: after) = some o) :
    ∃ o₁ o₂, generate t before = some o₁ ∧ item.generate o₁ = some o₂ ∧
      after.foldlM Item.generate o₂ = some o := by
  rw [generate, List.foldlM_append, Option.bind_eq_bind, Option.bind_eq_some_iff] at h
  obtain ⟨o₁, hbefore, h⟩ := h
  rw [List.foldlM_cons, Option.bind_eq_bind, Option.bind_eq_some_iff] at h
  obtain ⟨o₂, hitem, hafter⟩ := h
  exact ⟨o₁, o₂, hbefore, hitem, hafter⟩

theorem generate_concat {t : SymbolTable} {items : List Item} {item : Item} {o o' : Output}
    (h : generate t items = some o) (hitem : item.generate o = some o') :
    generate t (items ++ [item]) = some o' := by
  rw [generate, List.foldlM_append, ← generate, h]
  simp [hitem]

/-- Induction on the items of a source, from the first to the last. -/
theorem generate_induction {motive : List Item → Output → Prop} {t : SymbolTable}
    (nil : motive [] ⟨t, [], []⟩)
    (concat : ∀ items item o o', motive items o → item.generate o = some o' →
      motive (items ++ [item]) o')
    {items : List Item} {o : Output} (h : generate t items = some o) : motive items o := by
  induction items using List.reverseRecOn generalizing o with
  | nil =>
    obtain rfl := Option.some.inj h
    exact nil
  | append_singleton items item ih =>
    obtain ⟨o₁, o₂, hitems, hitem, hlast⟩ := generate_split h
    obtain rfl := Option.some.inj hlast
    exact concat items item o₁ o₂ (ih hitems) hitem

/-! ## How the code of an expression begins -/

namespace Chunk

variable {c c' : Chunk} {w : Width}

theorem rewriteLoad?_of_getLast? (h : c.code.getLast? = some (.load w)) :
    c.rewriteLoad? = some (w, { c with code := c.code.dropLast ++ [.push] }) := by
  rw [rewriteLoad?, h]

theorem removeLoad?_of_getLast? (h : c.code.getLast? = some (.load w)) :
    c.removeLoad? = some { c with code := c.code.dropLast } := by
  rw [removeLoad?, h]

theorem rewriteLoad?_eq_some (h : c.rewriteLoad? = some (w, c')) :
    ∃ front, c.code = front ++ [.load w] ∧ c' = { c with code := front ++ [.push] } := by
  rw [rewriteLoad?] at h
  split at h
  · rename_i w' hlast
    obtain ⟨front, hcode⟩ := List.getLast?_eq_some_iff.mp hlast
    simp only [hcode, List.dropLast_concat, Option.some.injEq, Prod.mk.injEq] at h
    obtain ⟨rfl, rfl⟩ := h
    exact ⟨front, hcode, rfl⟩
  · simp at h

theorem removeLoad?_eq_some (h : c.removeLoad? = some c') :
    ∃ front w, c.code = front ++ [.load w] ∧ c' = { c with code := front } := by
  rw [removeLoad?] at h
  split at h
  · rename_i w hlast
    obtain ⟨front, hcode⟩ := List.getLast?_eq_some_iff.mp hlast
    simp only [hcode, List.dropLast_concat, Option.some.injEq] at h
    exact ⟨front, w, hcode, h.symm⟩
  · simp at h

end Chunk

/-- Code that begins with some other instruction than a load. -/
def Opens (code : List Instr) : Prop := ∃ i rest, code = i :: rest ∧ ∀ w, i ≠ .load w

namespace Opens

variable {code code' : List Instr} {w : Width}

theorem append (h : Opens code) : Opens (code ++ code') := by
  obtain ⟨i, rest, rfl, hi⟩ := h
  exact ⟨i, rest ++ code', rfl, hi⟩

theorem ne_nil (h : Opens code) : code ≠ [] := by
  obtain ⟨i, rest, rfl, -⟩ := h
  simp

theorem of_load (h : Opens (code ++ [.load w])) : Opens code := by
  obtain ⟨i, rest, hcode, hi⟩ := h
  cases code with
  | nil =>
    simp only [List.nil_append, List.cons.injEq] at hcode
    exact absurd hcode.1.symm (hi w)
  | cons i' code =>
    simp only [List.cons_append, List.cons.injEq] at hcode
    exact ⟨i', code, rfl, hcode.1 ▸ hi⟩

end Opens

/-- A name stands for a constant, or for a variable, which is loaded from its address. -/
theorem nameCode?_cases {b : Binding} {frame : Word} {t : CType} {code : List Instr}
    (h : nameCode? b frame = some (t, code)) :
    code = [.imm b.value] ∨ code = [.imm b.value, .load t.width] ∨
      code = [.lea (frame - b.value), .load t.width] := by
  rw [nameCode?] at h
  split at h
  all_goals
    simp only [Option.some.injEq, Prod.mk.injEq, reduceCtorEq] at h
  all_goals
    obtain ⟨rfl, rfl⟩ := h
    simp

theorem callInstr?_cases {b : Binding} {frame : Word} {i : Instr}
    (h : Compile.callInstr? b frame = some i) :
    (∃ s, i = .service s) ∨ i = .call b.value.toUInt64 ∨ i = .callCell b.value ∨
      i = .callSlot (frame - b.value) := by
  rw [Compile.callInstr?] at h
  split at h
  all_goals
    simp only [Option.some.injEq, reduceCtorEq] at h
  all_goals
    subst h
    simp

theorem nameCode?_opens {b : Binding} {frame : Word} {t : CType} {code : List Instr}
    (h : nameCode? b frame = some (t, code)) : Opens code := by
  rcases nameCode?_cases h with rfl | rfl | rfl <;> exact ⟨_, _, rfl, by simp⟩

theorem callInstr?_ne_load {b : Binding} {frame : Word} {i : Instr}
    (h : Compile.callInstr? b frame = some i) (w : Width) : i ≠ .load w := by
  rcases callInstr?_cases h with ⟨s, rfl⟩ | rfl | rfl | rfl <;> simp

theorem Opens.removeLoad? {c c' : Chunk} (h : Opens c.code) (hrem : c.removeLoad? = some c') :
    Opens c'.code := by
  obtain ⟨front, w, hcode, rfl⟩ := Chunk.removeLoad?_eq_some hrem
  rw [hcode] at h
  exact h.of_load

theorem Opens.rewriteLoad? {c c' : Chunk} {w : Width} (h : Opens c.code)
    (hrew : c.rewriteLoad? = some (w, c')) : Opens c'.code := by
  obtain ⟨front, hcode, rfl⟩ := Chunk.rewriteLoad?_eq_some hrew
  rw [hcode] at h
  exact h.of_load.append

theorem Expr.generate_opens {cx : Context} {e : Expr} {pos size : Nat} {t : CType} {c : Chunk}
    (h : e.generate cx pos size = some (t, c)) : Opens c.code := by
  replace h := generated h
  induction h with
  | number _ | negative _ | sizeOf _ | text _ | negate _ _ => exact ⟨_, _, rfl, by simp⟩
  | name hcode => exact nameCode?_opens hcode
  | call args hargs _ hi ih =>
    cases args with
    | nil =>
      simp only [generateArgs, Option.some.injEq] at hargs
      subst hargs
      exact ⟨_, _, rfl, callInstr?_ne_load hi⟩
    | cons e rest =>
      obtain ⟨t₁, c₁, c₂, h₁, -, rfl⟩ := generateArgs_cons hargs
      exact (ih e (by simp) h₁).append.append.append
  | cast _ _ ih | paren _ ih | plus _ ih => exact ih
  | deref _ _ ih | withConstant _ _ _ ih => exact ih.append
  | addressOf _ hrem ih => exact ih.removeLoad? hrem
  | preStep _ _ hrew ih | postStep _ _ _ hrew ih => exact (ih.rewriteLoad? hrew).append
  | assign _ hrew _ ih _ => exact (ih.rewriteLoad? hrew).append.append
  | cond _ _ _ _ ih _ _ => exact ih.append.append.append.append.append
  | shortCircuit _ _ _ ih _ | binary _ _ _ _ _ ih _ | index _ _ _ _ ih _ =>
    exact ih.append.append.append

end MiniC.Syntax
