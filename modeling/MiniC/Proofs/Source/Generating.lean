import MiniC.Proofs.Source.Parsing
import MiniC.Proofs.Syntax.Generate

/-!
# Generating the code of a program over integers

Where names are bound to what has type `int`, the code generated for the tree of any text of an
expression is the code of the expression (`Text.coded`), and so it is for statements
(`Stmt.coded`).
-/

namespace MiniC

/-- Whether a use of a name with the binding is a variable or function of type `int`, if it may be
used at all. -/
def Binding.IsInt (b : Binding) : Prop :=
  b.kind ≠ .constant ∧ (b.type = .int ∨ b.kind = .unbound ∨ ∃ k, b.kind = .keyword k)

/-- The instruction that loads the address of what a name is bound to. -/
def Binding.address (b : Binding) (frame : Word) : Instr :=
  if b.kind = .localVar then .lea (frame - b.value) else .imm b.value

theorem Binding.address_cases (b : Binding) (frame : Word) :
    ∃ w, b.address frame = .imm w ∨ b.address frame = .lea w := by
  unfold Binding.address
  split
  · exact ⟨_, .inr rfl⟩
  · exact ⟨_, .inl rfl⟩

/-- How code generated in a context reaches what its names stand for. -/
def Syntax.Context.env (cx : Syntax.Context) (ν : Source.Name → SymbolId) : Source.Env where
  address x := (cx.binding (ν x)).address cx.frame
  call f := (Compile.callInstr? (cx.binding (ν f)) cx.frame).getD .leave

namespace Binding.IsInt

variable {b : Binding} {frame : Word}

theorem nameCode? (h : b.IsInt) {type : CType} {code : List Instr}
    (hcode : Syntax.nameCode? b frame = some (type, code)) :
    type = .int ∧ code = [b.address frame, .load .word] ∧ b.kind ≠ .unbound := by
  obtain ⟨hconstant, htype⟩ := h
  unfold Syntax.nameCode? at hcode
  unfold Binding.address
  split at hcode
  · exact absurd ‹_› hconstant
  all_goals
    simp_all
  all_goals exact hcode.2.symm

theorem callInstr? (h : b.IsInt) {i : Instr} (hi : Compile.callInstr? b frame = some i) :
    b.type = .int ∧ b.kind ≠ .unbound := by
  obtain ⟨-, htype⟩ := h
  unfold Compile.callInstr? at hi
  split at hi <;> simp_all

end Binding.IsInt

namespace Source

open Syntax (Context Chunk)

variable {cx : Context} {t : SymbolTable}

/-! ## Expressions -/

/-- The type and code generated for an expression are `int` and the code of the expression, and no
name in it is unbound. -/
structure Coded (cx : Context) (ν : Name → SymbolId) (e : Expr) (pos : Nat) (type : CType)
    (c : Chunk) : Prop where
  type_eq : type = .int
  code_eq : c.code = e.code (cx.env ν) pos
  data_eq : c.data = []
  bound : ∀ x ∈ e.names, (cx.binding (ν x)).kind ≠ .unbound

theorem Expr.code_negate {env : Env} {pos : Nat} {e : Expr} (h : ∀ n, e ≠ .literal n) :
    (Expr.unary .negate e).code env pos =
      [.imm (-1), .push] ++ e.code env (pos + 2) ++ [.binary .mul] := by
  rw [Expr.code]
  exact h

theorem binaryCode_int (op : BinOp) : Syntax.binaryCode op .int .int = (.int, [.binary op]) := by
  cases op <;> rfl

theorem coded_name {x : Name} {pos size : Nat} {type : CType} {c : Chunk}
    (hint : (cx.binding (idOf t x)).IsInt)
    (h : (Syntax.Expr.name (idOf t x)).generate cx pos size = some (type, c)) :
    Coded cx (idOf t) (.var x) pos type c := by
  obtain ⟨code, hcode, rfl⟩ := Syntax.Expr.generate_name h
  obtain ⟨rfl, rfl, hbound⟩ := hint.nameCode? hcode
  exact ⟨rfl, by rw [Expr.code]; rfl, rfl, by simpa [Expr.names] using hbound⟩

/-- The load of a variable that is stored to becomes a push. -/
theorem rewriteLoad?_var {x : Name} {pos : Nat} {type : CType} {c c' : Chunk} {w : Width}
    (h : Coded cx (idOf t) (.var x) pos type c) (hc : c.rewriteLoad? = some (w, c')) :
    w = .word ∧ c'.code = [(cx.env (idOf t)).address x, .push] ∧ c'.data = [] := by
  obtain ⟨front, hfront, rfl⟩ := Chunk.rewriteLoad?_eq_some hc
  have hcode := h.code_eq
  rw [hfront, Expr.code] at hcode
  obtain ⟨rfl, hload⟩ := List.append_inj' (show front ++ _ = [_] ++ [_] from hcode) rfl
  exact ⟨by simpa using hload, rfl, h.data_eq⟩

theorem coded_unary (op : UnaryOp) {e : Expr} {tree : Syntax.Expr} {pos size : Nat} {type : CType}
    {c : Chunk} (h : (op.tree e tree).generate cx pos size = some (type, c))
    (ih : ∀ {pos size type c}, tree.generate cx pos size = some (type, c) →
      Coded cx (idOf t) e pos type c) :
    Coded cx (idOf t) (.unary op e) pos type c := by
  cases op with
  | not | complement =>
    obtain ⟨type', c', h', rfl, rfl⟩ := Syntax.Expr.generate_withConstant h
    obtain ⟨-, hcode, hdata, hbound⟩ := ih h'
    exact ⟨rfl, by simp [Expr.code, hcode], by simp [hdata], hbound⟩
  | negate =>
    by_cases hliteral : ∃ n, e = .literal n
    · obtain ⟨n, rfl⟩ := hliteral
      obtain ⟨rfl, rfl⟩ := Prod.mk.inj (Option.some.inj h)
      exact ⟨rfl, by rw [Expr.code]; rfl, rfl, by simp [Expr.names]⟩
    · have hne : ∀ n, e ≠ .literal n := fun n hn => hliteral ⟨n, hn⟩
      have htree : UnaryOp.negate.tree e tree = .negate tree := by
        cases e with
        | literal n => exact absurd rfl (hne n)
        | _ => rfl
      rw [htree] at h
      obtain ⟨type', c', h', rfl, rfl⟩ := Syntax.Expr.generate_negate h
      obtain ⟨-, hcode, hdata, hbound⟩ := ih h'
      exact ⟨rfl, by simp [Expr.code_negate hne, hcode], by simp [hdata], hbound⟩

theorem mem_namesArgs {args : List Expr} {e : Expr} {x : Name} (he : e ∈ args)
    (hx : x ∈ e.names) : x ∈ Expr.namesArgs args := by
  induction args with
  | nil => simp at he
  | cons a args ih =>
    rw [Expr.namesArgs, List.mem_append]
    rcases List.mem_cons.mp he with rfl | he
    · exact .inl hx
    · exact .inr (ih he)

theorem coded_args {args : List Spelled} {pos size : Nat} {c : Chunk}
    (h : Syntax.Expr.generateArgs cx pos size (args.map Spelled.tree) = some c)
    (ih : ∀ a ∈ args, ∀ {pos size type c}, a.tree.generate cx pos size = some (type, c) →
      Coded cx (idOf t) a.expr pos type c) :
    c.code = Expr.codeArgs (cx.env (idOf t)) pos (args.map Spelled.expr) ∧ c.data = [] ∧
      ∀ x ∈ Expr.namesArgs (args.map Spelled.expr), (cx.binding (idOf t x)).kind ≠ .unbound := by
  induction args generalizing pos size c with
  | nil =>
    obtain rfl := Option.some.inj h
    exact ⟨rfl, rfl, by simp [Expr.namesArgs]⟩
  | cons a args ihargs =>
    obtain ⟨type, c₁, c₂, h₁, h₂, rfl⟩ := Syntax.Expr.generateArgs_cons h
    obtain ⟨-, hcode₁, hdata₁, hbound₁⟩ := ih a (by simp) h₁
    obtain ⟨hcode₂, hdata₂, hbound₂⟩ := ihargs h₂ fun a ha => ih a (by simp [ha])
    refine ⟨?_, by simp [hdata₁, hdata₂], ?_⟩
    · simp [Expr.codeArgs, hcode₁, hcode₂, Chunk.stop_eq]
    · intro x hx
      rcases List.mem_append.mp hx with hx | hx
      · exact hbound₁ x hx
      · exact hbound₂ x hx

theorem Text.coded {m : Prec} {e : Expr} {ls : List Lex} {tree : Syntax.Expr}
    (h : Text t m e ls tree) (hint : ∀ x ∈ e.names, (cx.binding (idOf t x)).IsInt) :
    ∀ {pos size : Nat} {type : CType} {c : Chunk},
      tree.generate cx pos size = some (type, c) → Coded cx (idOf t) e pos type c := by
  induction h with
  | literal n =>
    intro pos size type c h
    obtain ⟨rfl, rfl⟩ := Prod.mk.inj (Option.some.inj h)
    exact ⟨rfl, by rw [Expr.code]; rfl, rfl, by simp [Expr.names]⟩
  | var x =>
    intro pos size type c h
    exact coded_name (hint x (by simp [Expr.names])) h
  | paren _ _ ih =>
    intro pos size type c h
    exact ih hint h
  | preStep step x =>
    intro pos size type c h
    obtain ⟨c₀, w, c', h₀, hrewrite, rfl⟩ := Syntax.Expr.generate_preStep h
    have hname := coded_name (hint x (by simp [Expr.names])) h₀
    obtain ⟨rfl, hcode, hdata⟩ := rewriteLoad?_var hname hrewrite
    obtain rfl := hname.type_eq
    exact ⟨rfl, by rw [Expr.code, Chunk.code_append, hcode]; rfl, by simp [hdata], hname.bound⟩
  | postStep step x =>
    intro pos size type c h
    obtain ⟨c₀, w, c', h₀, hrewrite, rfl⟩ := Syntax.Expr.generate_postStep h
    have hname := coded_name (hint x (by simp [Expr.names])) h₀
    obtain ⟨rfl, hcode, hdata⟩ := rewriteLoad?_var hname hrewrite
    obtain rfl := hname.type_eq
    exact ⟨rfl, by rw [Expr.code, Chunk.code_append, hcode]; rfl, by simp [hdata], hname.bound⟩
  | call f args _ ih =>
    intro pos size type c h
    obtain ⟨c', i, hargs, hi, rfl, rfl⟩ := Syntax.Expr.generate_call h
    obtain ⟨htype, hbound⟩ := (hint f (by simp [Expr.names])).callInstr? hi
    obtain ⟨hcode, hdata, hargsBound⟩ := coded_args hargs fun a ha =>
      ih a ha fun x hx => hint x (by
        rw [Expr.names, List.mem_cons]
        exact .inr (mem_namesArgs (List.mem_map_of_mem ha) hx))
    refine ⟨htype, ?_, by simp [hdata], List.forall_mem_cons.mpr ⟨hbound, hargsBound⟩⟩
    simp [Expr.code, hcode, Context.env, hi, Syntax.dropArguments, dropCode]
  | unary op _ ih =>
    intro pos size type c h
    exact coded_unary op h (ih hint)
  | binary op _ _ _ _ ihl ihr =>
    intro pos size type c h
    obtain ⟨t₀, c₀, t₁, c₁, h₀, h₁, rfl, rfl⟩ := Syntax.Expr.generate_binary h
    rw [Expr.names, List.forall_mem_append] at hint
    obtain ⟨rfl, hcode₀, hdata₀, hbound₀⟩ := ihl hint.1 h₀
    obtain ⟨rfl, hcode₁, hdata₁, hbound₁⟩ := ihr hint.2 h₁
    refine ⟨by rw [binaryCode_int], ?_, by simp [hdata₀, hdata₁],
      List.forall_mem_append.mpr ⟨hbound₀, hbound₁⟩⟩
    simp [Expr.code, hcode₀, hcode₁, binaryCode_int, Chunk.stop_eq]
  | logic op _ _ _ _ ihl ihr =>
    intro pos size type c h
    obtain ⟨t₀, c₀, t₁, c₁, h₀, h₁, rfl, rfl⟩ := Syntax.Expr.generate_shortCircuit h
    rw [Expr.names, List.forall_mem_append] at hint
    obtain ⟨-, hcode₀, hdata₀, hbound₀⟩ := ihl hint.1 h₀
    obtain ⟨-, hcode₁, hdata₁, hbound₁⟩ := ihr hint.2 h₁
    refine ⟨rfl, ?_, by simp [hdata₀, hdata₁], List.forall_mem_append.mpr ⟨hbound₀, hbound₁⟩⟩
    simp [Expr.code, hcode₀, hcode₁, Chunk.stop_eq]
  | cond _ _ _ _ _ iht ihy ihn =>
    intro pos size type c h
    obtain ⟨t₀, c₀, t₁, c₁, second, c₂, h₀, h₁, rfl, h₂, rfl⟩ := Syntax.Expr.generate_cond h
    rw [Expr.names, List.forall_mem_append, List.forall_mem_append] at hint
    obtain ⟨-, hcode₀, hdata₀, hbound₀⟩ := iht hint.1.1 h₀
    obtain ⟨-, hcode₁, hdata₁, hbound₁⟩ := ihy hint.1.2 h₁
    obtain ⟨rfl, hcode₂, hdata₂, hbound₂⟩ := ihn hint.2 h₂
    refine ⟨rfl, ?_, by simp [hdata₀, hdata₁, hdata₂], List.forall_mem_append.mpr
      ⟨List.forall_mem_append.mpr ⟨hbound₀, hbound₁⟩, hbound₂⟩⟩
    simp [Expr.code, hcode₀, hcode₁, hcode₂, Chunk.stop_eq]
  | assign x _ ih =>
    intro pos size type c h
    obtain ⟨c₀, w, c₁, t₂, c₂, h₀, hrewrite, h₂, rfl⟩ := Syntax.Expr.generate_assign h
    rw [Expr.names, List.forall_mem_cons] at hint
    have hname := coded_name hint.1 h₀
    obtain ⟨rfl, hcode, hdata⟩ := rewriteLoad?_var hname hrewrite
    obtain rfl := hname.type_eq
    obtain ⟨-, hcode₂, hdata₂, hbound₂⟩ := ih hint.2 h₂
    rw [Chunk.stop_eq, hcode] at hcode₂
    refine ⟨rfl, ?_, by simp [hdata, hdata₂],
      List.forall_mem_cons.mpr ⟨hname.bound x (by simp [Expr.names]), hbound₂⟩⟩
    rw [Expr.code, Chunk.code_append, Chunk.code_append, hcode, hcode₂]
    rfl

theorem Expr.coded {e : Expr} (hint : ∀ x ∈ e.names, (cx.binding (idOf t x)).IsInt)
    {pos size : Nat} {type : CType} {c : Chunk}
    (h : (e.tree (idOf t)).generate cx pos size = some (type, c)) :
    Coded cx (idOf t) e pos type c :=
  (e.text_lexes t).coded hint h

/-! ## Statements -/

/-- The code generated for statements is their code, and no name in them is unbound. -/
structure CodedAll (cx : Context) (ν : Name → SymbolId) (names : List Name) (code : List Instr)
    (c : Chunk) : Prop where
  code_eq : c.code = code
  data_eq : c.data = []
  bound : ∀ x ∈ names, (cx.binding (ν x)).kind ≠ .unbound

mutual

theorem Stmt.coded {s : Stmt} (hint : ∀ x ∈ s.names, (cx.binding (idOf t x)).IsInt)
    {pos size : Nat} {c : Chunk} (h : (s.tree (idOf t)).generate cx pos size = some c) :
    CodedAll cx (idOf t) s.names (s.code (cx.env (idOf t)) pos) c := by
  cases s with
  | expr e =>
    obtain ⟨type, c₀, h₀, rfl⟩ := Syntax.Stmt.generate_expr h
    obtain ⟨-, hcode, hdata, hbound⟩ := Expr.coded hint h₀
    exact ⟨by simp [Stmt.code, hcode], by simp [hdata], hbound⟩
  | ifThen test yes =>
    obtain ⟨type, c₀, c₁, h₀, h₁, rfl⟩ := Syntax.Stmt.generate_ifThen h
    obtain ⟨c₂, h₂, rfl⟩ := Syntax.Stmt.generate_block h₁
    rw [Stmt.names, List.forall_mem_append] at hint
    obtain ⟨-, hcode₀, hdata₀, hbound₀⟩ := Expr.coded hint.1 h₀
    obtain ⟨hcode₂, hdata₂, hbound₂⟩ := Stmt.codedAll hint.2 h₂
    refine ⟨?_, by simp [hdata₀, hdata₂], List.forall_mem_append.mpr ⟨hbound₀, hbound₂⟩⟩
    simp [Stmt.code, hcode₀, hcode₂, Chunk.stop_eq]
  | ifElse test yes no =>
    obtain ⟨type, c₀, c₁, second, c₂, h₀, h₁, rfl, h₂, rfl⟩ := Syntax.Stmt.generate_ifElse h
    obtain ⟨c₃, h₃, rfl⟩ := Syntax.Stmt.generate_block h₁
    obtain ⟨c₄, h₄, rfl⟩ := Syntax.Stmt.generate_block h₂
    rw [Stmt.names, List.forall_mem_append, List.forall_mem_append] at hint
    obtain ⟨-, hcode₀, hdata₀, hbound₀⟩ := Expr.coded hint.1.1 h₀
    obtain ⟨hcode₃, hdata₃, hbound₃⟩ := Stmt.codedAll hint.1.2 h₃
    obtain ⟨hcode₄, hdata₄, hbound₄⟩ := Stmt.codedAll hint.2 h₄
    refine ⟨?_, by simp [hdata₀, hdata₃, hdata₄], List.forall_mem_append.mpr
      ⟨List.forall_mem_append.mpr ⟨hbound₀, hbound₃⟩, hbound₄⟩⟩
    simp [Stmt.code, hcode₀, hcode₃, hcode₄, Chunk.stop_eq]
  | whileLoop test body =>
    obtain ⟨type, c₀, c₁, h₀, h₁, rfl⟩ := Syntax.Stmt.generate_whileLoop h
    obtain ⟨c₂, h₂, rfl⟩ := Syntax.Stmt.generate_block h₁
    rw [Stmt.names, List.forall_mem_append] at hint
    obtain ⟨-, hcode₀, hdata₀, hbound₀⟩ := Expr.coded hint.1 h₀
    obtain ⟨hcode₂, hdata₂, hbound₂⟩ := Stmt.codedAll hint.2 h₂
    refine ⟨?_, by simp [hdata₀, hdata₂], List.forall_mem_append.mpr ⟨hbound₀, hbound₂⟩⟩
    simp [Stmt.code, hcode₀, hcode₂, Chunk.stop_eq]
  | ret value =>
    cases value with
    | none =>
      obtain rfl := Option.some.inj h
      exact ⟨by rw [Stmt.code]; rfl, rfl, by simp [Stmt.names]⟩
    | some e =>
      obtain ⟨type, c₀, h₀, rfl⟩ := Syntax.Stmt.generate_ret_some h
      obtain ⟨-, hcode, hdata, hbound⟩ := Expr.coded hint h₀
      exact ⟨by simp [Stmt.code, hcode], by simp [hdata], hbound⟩
  | block body =>
    obtain ⟨c₀, h₀, rfl⟩ := Syntax.Stmt.generate_block h
    obtain ⟨hcode, hdata, hbound⟩ := Stmt.codedAll hint h₀
    exact ⟨by simp [Stmt.code, hcode], by simp [hdata], hbound⟩
  | skip =>
    obtain rfl := Option.some.inj h
    exact ⟨by rw [Stmt.code]; rfl, rfl, by simp [Stmt.names]⟩

theorem Stmt.codedAll {ss : List Stmt}
    (hint : ∀ x ∈ Stmt.namesAll ss, (cx.binding (idOf t x)).IsInt) {pos size : Nat} {c : Chunk}
    (h : Syntax.Stmt.generateAll cx pos size (Stmt.treeAll (idOf t) ss) = some c) :
    CodedAll cx (idOf t) (Stmt.namesAll ss) (Stmt.codeAll (cx.env (idOf t)) pos ss) c := by
  cases ss with
  | nil =>
    obtain rfl := Option.some.inj h
    exact ⟨rfl, rfl, by simp [Stmt.namesAll]⟩
  | cons s ss =>
    obtain ⟨c₁, c₂, h₁, h₂, rfl⟩ := Syntax.Stmt.generateAll_cons h
    rw [Stmt.namesAll, List.forall_mem_append] at hint
    obtain ⟨hcode₁, hdata₁, hbound₁⟩ := Stmt.coded hint.1 h₁
    obtain ⟨hcode₂, hdata₂, hbound₂⟩ := Stmt.codedAll hint.2 h₂
    refine ⟨?_, by simp [hdata₁, hdata₂], List.forall_mem_append.mpr ⟨hbound₁, hbound₂⟩⟩
    simp [Stmt.codeAll, hcode₁, hcode₂, Chunk.stop_eq]

end

end Source

end MiniC
