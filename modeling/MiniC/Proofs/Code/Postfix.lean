import MiniC.Machine.Start
import MiniC.Proofs.Code.Calls
import MiniC.Proofs.Machine.Updates

/-!
# Postfix operators

Wherever `++` or `--` stands behind a variable, a dereference or an indexing, the code of the whole
is the code that finds the address of the object, once, and a block that changes the object
(`Expr.generate_postStep_place`). Nothing around the operator changes this code: only a load at the
end of an operand is ever rewritten or removed, and the block does not end with one
(`Stands.remove`).

So what the block does in a machine it does in every program (`postfix_of_compile`). It leaves the
old value of the object unless that is the last value of a `char`.
-/

namespace MiniC

namespace Syntax

/-! ## Blocks of code in their places -/

/-- A block stands at an index in code that itself begins at `pos`. -/
def Stands (pos : Nat) (code block : List Instr) (index : Nat) : Prop :=
  ∃ front back, code = front ++ block ++ back ∧ index = pos + front.length

/-- A block that does not end with a load. -/
def Firm (block : List Instr) : Prop := ∃ front i, block = front ++ [i] ∧ ∀ w, i ≠ .load w

namespace Stands

variable {pos index : Nat} {code code' block : List Instr} {w : Width}

theorem refl (pos : Nat) (code : List Instr) : Stands pos code code pos := ⟨[], [], by simp, rfl⟩

theorem left (h : Stands pos code block index) : Stands pos (code ++ code') block index := by
  obtain ⟨front, back, rfl, rfl⟩ := h
  exact ⟨front, back ++ code', by simp, rfl⟩

theorem right (h : Stands (pos + code.length) code' block index) :
    Stands pos (code ++ code') block index := by
  obtain ⟨front, back, rfl, rfl⟩ := h
  exact ⟨code ++ front, back, by simp, by simp [Nat.add_assoc]⟩

theorem trans {block' : List Instr} {index' : Nat} (h : Stands pos code block index)
    (h' : Stands index block block' index') : Stands pos code block' index' := by
  obtain ⟨front, back, rfl, rfl⟩ := h
  exact left (right h')

/-- A firm block still stands where a load behind it is removed. -/
theorem remove (h : Stands pos (code ++ [.load w]) block index) (hfirm : Firm block) :
    Stands pos code block index := by
  obtain ⟨front, back, hcode, rfl⟩ := h
  obtain ⟨init, i, rfl, hi⟩ := hfirm
  cases back using List.reverseRecOn with
  | nil =>
    have hlast := congrArg List.getLast? hcode
    simp only [List.append_nil, ← List.append_assoc, List.getLast?_concat,
      Option.some.injEq] at hlast
    exact absurd hlast.symm (hi w)
  | append_singleton back j =>
    rw [← List.append_assoc] at hcode
    exact ⟨front, back, (List.append_inj' hcode rfl).1, rfl⟩

theorem rewrite {c c' : Chunk} (h : Stands pos c.code block index) (hfirm : Firm block)
    (hrew : c.rewriteLoad? = some (w, c')) : Stands pos c'.code block index := by
  obtain ⟨front, hcode, rfl⟩ := Chunk.rewriteLoad?_eq_some hrew
  rw [hcode] at h
  exact left (h.remove hfirm)

end Stands

/-! ## The parts of a tree -/

namespace Expr

/-- `e` is `whole`, an operand of it, an operand of that, and so on. -/
def IsPart (e whole : Expr) : Prop :=
  Relation.ReflTransGen (fun outer inner => inner ∈ outer.operands) whole e

variable {cx : Context} {pos size : Nat} {t : CType} {c : Chunk}

/-- The code of an operand, of which whatever is firm stands in the code of the expression too. -/
def OperandAt (cx : Context) (pos : Nat) (code : List Instr) (e : Expr) : Prop :=
  ∃ pos' size' t' c', e.generate cx pos' size' = some (t', c') ∧
    ∀ block index, Firm block → Stands pos' c'.code block index → Stands pos code block index

namespace OperandAt

variable {code code' : List Instr} {e : Expr}

theorem self (h : e.generate cx pos size = some (t, c)) : OperandAt cx pos c.code e :=
  ⟨pos, size, t, c, h, fun _ _ _ hblock => hblock⟩

theorem left (h : OperandAt cx pos code e) : OperandAt cx pos (code ++ code') e := by
  obtain ⟨pos', size', t', c', hgen, hkeep⟩ := h
  exact ⟨pos', size', t', c', hgen,
    fun block index hfirm hblock => (hkeep block index hfirm hblock).left⟩

theorem right {start : Nat} (h : OperandAt cx start code' e) (hstart : start = pos + code.length) :
    OperandAt cx pos (code ++ code') e := by
  subst hstart
  obtain ⟨pos', size', t', c', hgen, hkeep⟩ := h
  exact ⟨pos', size', t', c', hgen,
    fun block index hfirm hblock => (hkeep block index hfirm hblock).right⟩

theorem rewrite {w : Width} {c' : Chunk} (h : OperandAt cx pos c.code e)
    (hrew : c.rewriteLoad? = some (w, c')) : OperandAt cx pos c'.code e := by
  obtain ⟨pos', size', t', c', hgen, hkeep⟩ := h
  exact ⟨pos', size', t', c', hgen,
    fun block index hfirm hblock => (hkeep block index hfirm hblock).rewrite hfirm hrew⟩

end OperandAt

theorem generateArgs_operand {args : List Expr} {e : Expr} (he : e ∈ args)
    (h : generateArgs cx pos size args = some c) : OperandAt cx pos c.code e := by
  induction args generalizing pos size c with
  | nil => simp at he
  | cons a rest ih =>
    obtain ⟨t₁, c₁, c₂, h₁, h₂, rfl⟩ := generateArgs_cons h
    rcases List.mem_cons.mp he with rfl | he
    · exact (OperandAt.self h₁).left.left
    · exact (ih he h₂).right (by simp [Chunk.stop_eq, Nat.add_assoc])

theorem generate_operand {whole e : Expr} (he : e ∈ whole.operands)
    (h : whole.generate cx pos size = some (t, c)) : OperandAt cx pos c.code e := by
  replace h := generated h
  cases h with
  | number _ | negative _ | text _ | sizeOf _ | name _ => simp [operands] at he
  | call _ hargs => exact (generateArgs_operand he hargs).left
  | cast _ h | paren h | plus h =>
    obtain rfl := List.mem_singleton.mp he
    exact .self h.generate_eq
  | deref h | withConstant _ _ h =>
    obtain rfl := List.mem_singleton.mp he
    exact (OperandAt.self h.generate_eq).left
  | addressOf h hrem =>
    obtain rfl := List.mem_singleton.mp he
    obtain ⟨front, w, hcode, rfl⟩ := Chunk.removeLoad?_eq_some hrem
    exact ⟨_, _, _, _, h.generate_eq,
      fun block index hfirm hblock => (hcode ▸ hblock).remove hfirm⟩
  | negate h =>
    obtain rfl := List.mem_singleton.mp he
    exact ((OperandAt.self h.generate_eq).right rfl).left
  | preStep _ h hrew | postStep _ _ h hrew =>
    obtain rfl := List.mem_singleton.mp he
    exact ((OperandAt.self h.generate_eq).rewrite hrew).left
  | assign h hrew h₁ =>
    rcases List.mem_pair.mp he with rfl | rfl
    · exact ((OperandAt.self h.generate_eq).rewrite hrew).left.left
    · exact ((OperandAt.self h₁.generate_eq).right rfl).left
  | cond h h₁ hsecond h₂ =>
    subst hsecond
    simp only [operands, List.mem_cons, List.not_mem_nil, or_false] at he
    rcases he with rfl | rfl | rfl
    · exact (OperandAt.self h.generate_eq).left.left.left.left.left
    · exact ((OperandAt.self h₁.generate_eq).right (by simp [Chunk.stop_eq]; omega)).left.left.left
    · exact ((OperandAt.self h₂.generate_eq).right (by simp [Chunk.stop_eq]; omega)).left
  | shortCircuit _ h h₁ | binary _ _ _ h h₁ | index _ h h₁ =>
    rcases List.mem_pair.mp he with rfl | rfl
    · exact (OperandAt.self h.generate_eq).left.left.left
    · exact ((OperandAt.self h₁.generate_eq).right (by simp [Chunk.stop_eq]; omega)).left

/-- The same of a part, however deep. -/
theorem IsPart.operandAt {e whole : Expr} (hpart : e.IsPart whole)
    (h : whole.generate cx pos size = some (t, c)) : OperandAt cx pos c.code e := by
  induction hpart using Relation.ReflTransGen.head_induction_on generalizing pos size t c with
  | refl => exact .self h
  | head hstep _ ih =>
    obtain ⟨pos', size', t', c', hgen, hkeep⟩ := generate_operand hstep h
    obtain ⟨pos'', size'', t'', c'', hgen', hkeep'⟩ := ih hgen
    exact ⟨pos'', size'', t'', c'', hgen', fun block index hfirm hblock =>
      hkeep block index hfirm (hkeep' block index hfirm hblock)⟩

end Expr

mutual

/-- The expressions that stand in a statement. -/
def Stmt.exprs : Stmt → List Expr
  | .expr e | .ret (some e) => [e]
  | .ifThen test yes => test :: yes.exprs
  | .ifElse test yes no => test :: (yes.exprs ++ no.exprs)
  | .whileLoop test body => test :: body.exprs
  | .block body => Stmt.exprsIn body
  | .ret none | .empty => []

def Stmt.exprsIn : List Stmt → List Expr
  | [] => []
  | s :: rest => s.exprs ++ Stmt.exprsIn rest

end

mutual

theorem Stmt.generate_exprs {cx : Context} {e : Expr} {pos size : Nat} {c : Chunk} :
    ∀ {s : Stmt}, e ∈ s.exprs → s.generate cx pos size = some c → Expr.OperandAt cx pos c.code e
  | .expr e', he, h => by
    obtain ⟨t, c', h', rfl⟩ := Stmt.generate_expr h
    rw [List.mem_singleton.mp he]
    exact (Expr.OperandAt.self h').right (pos.add_zero : pos = pos + [].length)
  | .ifThen test yes, he, h => by
    obtain ⟨t, c₀, c₁, h₀, h₁, rfl⟩ := Stmt.generate_ifThen h
    rcases List.mem_cons.mp he with rfl | he
    · exact (Expr.OperandAt.self h₀).left.left
    · exact (Stmt.generate_exprs he h₁).right (by simp [Chunk.stop_eq]; omega)
  | .ifElse test yes no, he, h => by
    obtain ⟨t, c₀, c₁, second, c₂, h₀, h₁, rfl, h₂, rfl⟩ := Stmt.generate_ifElse h
    simp only [Stmt.exprs, List.mem_cons, List.mem_append] at he
    rcases he with rfl | he | he
    · exact (Expr.OperandAt.self h₀).left.left.left.left
    · exact ((Stmt.generate_exprs he h₁).right (by simp [Chunk.stop_eq]; omega)).left.left
    · exact (Stmt.generate_exprs he h₂).right (by simp [Chunk.stop_eq]; omega)
  | .whileLoop test body, he, h => by
    obtain ⟨t, c₀, c₁, h₀, h₁, rfl⟩ := Stmt.generate_whileLoop h
    rcases List.mem_cons.mp he with rfl | he
    · exact (Expr.OperandAt.self h₀).left.left.left
    · exact ((Stmt.generate_exprs he h₁).right (by simp [Chunk.stop_eq]; omega)).left
  | .ret none, he, _ => by simp [Stmt.exprs] at he
  | .ret (some e'), he, h => by
    obtain ⟨t, c', h', rfl⟩ := Stmt.generate_ret_some h
    rw [List.mem_singleton.mp he]
    exact (Expr.OperandAt.self h').left
  | .block body, he, h => by
    obtain ⟨c', h', rfl⟩ := Stmt.generate_block h
    exact (Stmt.generateAll_exprs he h').right (pos.add_zero : pos = pos + [].length)
  | .empty, he, _ => by simp [Stmt.exprs] at he

theorem Stmt.generateAll_exprs {cx : Context} {e : Expr} {pos size : Nat} {c : Chunk} :
    ∀ {body : List Stmt}, e ∈ Stmt.exprsIn body → Stmt.generateAll cx pos size body = some c →
      Expr.OperandAt cx pos c.code e
  | [], he, _ => by simp [Stmt.exprsIn] at he
  | s :: rest, he, h => by
    obtain ⟨c₁, c₂, h₁, h₂, rfl⟩ := Stmt.generateAll_cons h
    rcases List.mem_append.mp he with he | he
    · exact (Stmt.generate_exprs he h₁).left
    · exact (Stmt.generateAll_exprs he h₂).right rfl

end

/-! ## Operands with an address -/

/-- A variable, a dereference or an indexing, perhaps in parentheses. -/
def Expr.isPlace : Expr → Bool
  | .name _ | .deref _ | .index _ _ => true
  | .paren e => e.isPlace
  | _ => false

/-- The code of such an operand finds an address and loads from there as the type says. -/
theorem Expr.generate_place {cx : Context} {pos size : Nat} {t : CType} {c c' : Chunk} {w : Width}
    {e : Expr} (hplace : e.isPlace = true) (h : e.generate cx pos size = some (t, c))
    (hrew : c.rewriteLoad? = some (w, c')) :
    w = t.width ∧ ∃ front, c.code = front ++ [.load t.width] ∧ c'.code = front ++ [.push] := by
  obtain ⟨front, hcode, rfl⟩ := Chunk.rewriteLoad?_eq_some hrew
  have hload : ∃ front', c.code = front' ++ [.load t.width] := by
    clear hrew
    induction e generalizing pos size t c with
    | name id =>
      obtain ⟨code, hname, rfl⟩ := generate_name h
      rw [nameCode?] at hname
      split at hname
      all_goals simp only [Option.some.injEq, Prod.mk.injEq, reduceCtorEq] at hname
      all_goals obtain ⟨rfl, rfl⟩ := hname
      · have hlast := congrArg List.getLast? hcode
        simp at hlast
      all_goals exact ⟨[_], rfl⟩
    | deref e _ =>
      obtain ⟨t', c', -, -, rfl⟩ := generate_deref h
      exact ⟨c'.code, rfl⟩
    | index l i _ _ =>
      obtain ⟨t₀, c₀, t₁, c₁, -, -, -, rfl⟩ := generate_index h
      exact ⟨_, by simp [← List.append_assoc]; rfl⟩
    | paren e ih => exact ih hplace h hcode
    | _ => simp [isPlace] at hplace
  obtain ⟨front', hcode'⟩ := hload
  obtain ⟨rfl, hlast⟩ := List.append_inj' (hcode.symm.trans hcode') rfl
  obtain rfl : w = t.width := by simpa using hlast
  exact ⟨rfl, front, hcode, rfl⟩

/-- The block behind the code that finds the address. -/
def postfixCode (t : CType) (op undo : BinOp) : List Instr :=
  .push :: (Compile.stepBy t t.width op ++ [.push, .imm t.step, .binary undo])

theorem Expr.generate_postStep_place {cx : Context} {pos size : Nat} {t : CType} {c : Chunk}
    {op undo : BinOp} {e : Expr} (hplace : e.isPlace = true)
    (h : (postStep op undo e).generate cx pos size = some (t, c)) :
    ∃ c₀ front, e.generate cx pos size = some (t, c₀) ∧ c₀.code = front ++ [.load t.width] ∧
      c.code = front ++ postfixCode t op undo := by
  obtain ⟨c₀, w, c', h', hrew, rfl⟩ := generate_postStep h
  obtain ⟨rfl, front, hcode, hcode'⟩ := generate_place hplace h' hrew
  exact ⟨c₀, front, h', hcode, by simp [hcode', postfixCode]⟩

end Syntax

open Syntax

/-- The body of a function in its place in the program, generated with the file-level bindings of
the items up to the function itself. -/
theorem Program.Built.stands_body {source : List UInt8} {limits : Limits} {p : Program}
    {items : List Item} {o : Output} (hb : p.Built source limits items o) {before after : List Item}
    {id : SymbolId} {type : CType} {params locals : List Variable} {body : List Stmt}
    (hitems : items = before ++ .function id type params locals body :: after) :
    ∃ o' cx pos size c,
      generate (names source limits) (before ++ [.function id type params locals body]) = some o' ∧
      Framed params locals cx o'.symbols.fileBinding ∧
      Stmt.generateAll cx pos size body = some c ∧ Stands 0 p.code.toList c.code pos := by
  obtain ⟨o₁, o₂, hbefore, hitem, hafter⟩ := generate_split (hitems ▸ hb.generated)
  obtain ⟨cx, c, hframed, hc, hbodies, -, -⟩ := Item.generate_function hitem
  obtain ⟨more, hmore⟩ := (extends_of_foldlM hafter).bodies
  refine ⟨o₂, cx, _, _, c, generate_concat hbefore hitem, hframed, hc, ?_⟩
  refine ⟨o₁.code ++ [.enter (Word.ofNat locals.length)], .leave :: more.flatMap Chunk.code, ?_, ?_⟩
  · rw [hb.code_eq, Output.code, ← hmore, hbodies, Output.code]
    simp
  · simp

/-- Code at an index of a program is at that index when the program is loaded. -/
theorem codeAt_load {p : Program} {block : List Instr} {index : Nat}
    (h : Stands 0 p.code.toList block index) (trace : Bool) :
    Machine.CodeAt (p.load trace) index block := by
  obtain ⟨front, back, hcode, rfl⟩ := h
  refine ⟨back ++ [.push, .service .exit], ?_⟩
  rw [Program.load, Array.toList_append, hcode]
  simp

/-- A postfix operator on an object of type `t`, whose address the code up to an index has found:
the machine runs through the block behind the index, which leaves `postValue` in the accumulator,
changes the object by one step, and changes no other byte outside the two words below the top of the
stack.
-/
structure PostfixAt (p : Program) (index : Nat) (t : CType) (op undo : BinOp) : Prop where
  code : Machine.CodeAt (p.load false) index (postfixCode t op undo)
  run : ∀ (s : Machine) (low start : Nat) (u : Word), s.pc = index → s.HasRoom low →
    s.memory.offset? s.acc t.width.size = some start →
    (start + t.width.size ≤ low ∨ low + 2 * wordSize ≤ start) →
    s.memory.load t.width s.acc = .ok u →
    ∃ m', Machine.Reaches (p.load false) 9 s
        { s with acc := t.postValue op u, pc := s.pc + 9, cycle := s.cycle + 9, memory := m' } ∧
      m'.load t.width s.acc = .ok (t.stepped op u) ∧
      s.memory.StoredAt m' low start t.width (op.apply u t.step)

theorem postfixAt_of_code {p : Program} {index : Nat} {t : CType} {op undo : BinOp}
    (hundo : undo.Undoes op) (hcode : Machine.CodeAt (p.load false) index (postfixCode t op undo)) :
    PostfixAt p index t op undo := by
  refine ⟨hcode, fun s low start u hpc hroom hin hapart hload => ?_⟩
  have hdivides : op.divides = false ∧ undo.divides = false := by
    rcases hundo with ⟨rfl, rfl⟩ | ⟨rfl, rfl⟩ <;> exact ⟨rfl, rfl⟩
  subst hpc
  have hblock : Machine.CodeAt (p.load false) s.pc (.push :: (Compile.stepBy t t.width op ++
      .push :: .imm t.step :: .binary undo :: [])) := hcode
  have hrun := Machine.Reaches.postStep rfl hdivides.1 hdivides.2 hroom hin hapart hload hblock
  have hvalue := CType.undo_stepped hundo hload
  rw [CType.stepped] at hvalue
  rw [hvalue] at hrun
  have hstored := Memory.storedAt_put (m := s.memory) (v := op.apply u t.step) (x := s.acc) (y := u)
    (z := t.width.wrap (op.apply u t.step)) (Memory.offset?_eq_some hin).2 hapart
  exact ⟨_, hrun, hstored.load hin, hstored⟩

/-- Postfix operators in a program. Wherever a function of the source has `++` or `--` behind a
variable, a dereference or an indexing, there is code in the program that finds the address of the
object, the code of the operand less its load, and behind it the block that changes the object. The
types and addresses of names are those of the function's own variables and, for all other names,
those that the items up to the function give them. -/
theorem postfix_of_compile {source : List UInt8} {limits : Limits} {p : Program}
    (h : Program.compile source limits = .ok p) :
    ∃ items, Syntax.ofSource source limits = some items ∧
      ∀ before id type params locals body after,
        items = before ++ .function id type params locals body :: after →
        ∃ o cx,
          generate (names source limits) (before ++ [.function id type params locals body]) =
            some o ∧
          Framed params locals cx o.symbols.fileBinding ∧
          ∀ e ∈ Stmt.exprsIn body, ∀ op undo operand, (Expr.postStep op undo operand).IsPart e →
            operand.isPlace = true → undo.Undoes op →
            ∃ pos size t c front, operand.generate cx pos size = some (t, c) ∧
              c.code = front ++ [.load t.width] ∧ Machine.CodeAt (p.load false) pos front ∧
              PostfixAt p (pos + front.length) t op undo := by
  obtain ⟨items, o, hb⟩ := Program.built h
  refine ⟨items, hb.parsed, fun before id type params locals body after hitems => ?_⟩
  obtain ⟨o', cx, start, size₀, c₀, hfile, hframed, hbody, hstands⟩ := hb.stands_body hitems
  refine ⟨o', cx, hfile, hframed, fun e he op undo operand hpart hplace hundo => ?_⟩
  obtain ⟨pos₁, size₁, t₁, c₁, hexpr, hkeep₁⟩ := Stmt.generateAll_exprs he hbody
  obtain ⟨pos, size, t, c₂, hgen, hkeep⟩ := hpart.operandAt hexpr
  obtain ⟨c, front, hoperand, hfront, hcode⟩ := Expr.generate_postStep_place hplace hgen
  -- the code of the operator ends with the operation that undoes the step, not with a load
  have hfirm : Firm c₂.code :=
    ⟨front ++ .push :: (Compile.stepBy t t.width op ++ [.push, .imm t.step]), .binary undo,
      by simp [hcode, postfixCode], by simp⟩
  have hblock := hstands.trans (hkeep₁ _ _ hfirm (hkeep _ _ hfirm (.refl pos c₂.code)))
  rw [hcode] at hblock
  refine ⟨pos, size, t, c, front, hoperand, hfront, ?_, ?_⟩
  · exact codeAt_load (hblock.trans (.left (.refl pos front))) false
  · exact postfixAt_of_code hundo (codeAt_load (hblock.trans (.right (.refl _ _))) false)

/-- Takes the last value of a `char` and increments it. -/
def lastValueSource : List UInt8 := Utf8.encode "int main() \x7b char c; c = 127; return c++; \x7d"

def lastValueLimits : Limits := ⟨64, 64, 8, 96, 64, 64⟩

/-- Whether an item has `++` behind the name of its first local, a `char`, as an expression of its
own. -/
def Syntax.Item.incrementsChar : Item → Bool
  | .function _ _ _ (v :: _) body => v.type = CType.char && (Stmt.exprsIn body).any fun
    | .postStep .add .sub (.name x) => x = v.id
    | _ => false
  | _ => false

theorem postfix_of_lastValue :
    ∃ p index, Program.compile lastValueSource lastValueLimits = .ok p ∧
      PostfixAt p index CType.char .add .sub := by
  have heval : (Program.compile lastValueSource lastValueLimits).toOption.isSome = true ∧
      (Syntax.ofSource lastValueSource lastValueLimits).map (List.any · Item.incrementsChar) =
        some true := by
    decide +kernel
  obtain ⟨hcompile, hany⟩ := heval
  cases h : Program.compile lastValueSource lastValueLimits with
  | error e => simp [h, Except.toOption] at hcompile
  | ok p =>
    obtain ⟨items, hparsed, hpostfix⟩ := postfix_of_compile h
    simp only [hparsed, Option.map_some, Option.some.injEq, List.any_eq_true] at hany
    obtain ⟨item, hitem, hincrements⟩ := hany
    obtain ⟨before, after, hitems⟩ := List.append_of_mem hitem
    unfold Item.incrementsChar at hincrements
    split at hincrements
    · rename_i id type params v locals body
      obtain ⟨hchar, hincrements⟩ := Bool.and_eq_true_iff.mp hincrements
      obtain ⟨e, he, hname⟩ := List.any_eq_true.mp hincrements
      obtain ⟨o, cx, -, hframed, hpostfix⟩ := hpostfix before id type params _ body after hitems
      obtain ⟨slot, hslot, -⟩ := hframed.ofLocal 0 v rfl
      split at hname
      · rename_i x
        obtain rfl := of_decide_eq_true hname
        obtain ⟨pos, _, t, _, front, hoperand, -, -, hat⟩ :=
          hpostfix _ he _ _ _ .refl rfl (.inl ⟨rfl, rfl⟩)
        obtain ⟨_, hcode, -⟩ := Expr.generate_name hoperand
        rw [hslot, of_decide_eq_true hchar] at hcode
        obtain rfl : CType.char = t := congrArg Prod.fst (Option.some.inj hcode)
        exact ⟨p, pos + front.length, rfl, hat⟩
      · cases hname
    · cases hincrements

/-- The value of `c++` is -129, although `c` was 127. -/
theorem run_lastValue :
    (Program.compile lastValueSource lastValueLimits).toOption.map (fun p =>
      (p.run lastValueLimits [] false ⟨⟨[], []⟩, [], [], 3⟩ (.empty none) 32).1) =
        some (.exited (-129)) := by
  decide +kernel

end MiniC
