import MiniC.Proofs.Syntax.Generate

/-!
# Where names are used

Apart from constants, every operand in the code of a tree that stands for a place comes from a name
that the tree uses. The instructions with such operands are, in order, those that the uses of names
ask for (`Refers`): the rest of the code is plain, and neither the removal nor the rewriting of
loads touches anything else.
-/

namespace MiniC

/-- Whether an instruction has an operand that stands for a place other than by a constant. -/
def Instr.refers : Instr → Bool
  | .lea _ | .call _ | .callCell _ | .callSlot _ | .enter _ | .service _ => true
  | .imm _ | .branch _ _ | .adjust _ | .leave | .load _ | .store _ | .push | .binary _ => false

namespace Syntax

/-- A place in a tree where a name is used. -/
inductive Use where
  | value (id : SymbolId)
  | call (id : SymbolId)

def Use.id : Use → SymbolId
  | .value id | .call id => id

/-- The instruction that a use asks for. -/
def Use.instr? (cx : Context) : Use → Option Instr
  | .value id => (nameCode? (cx.binding id) cx.frame).bind (·.2.head?)
  | .call id => Compile.callInstr? (cx.binding id) cx.frame

mutual

/-- The uses of names in an expression, in the order of the code. -/
def Expr.uses : Expr → List Use
  | .number _ | .negative _ | .text _ | .sizeOf _ => []
  | .name id => [.value id]
  | .call id args => Expr.usesIn args ++ [.call id]
  | .cast _ e | .paren e | .deref e | .addressOf e | .withConstant _ _ e | .plus e | .negate e
  | .preStep _ e | .postStep _ _ e => e.uses
  | .assign l r | .shortCircuit _ l r | .binary _ l r | .index l r => l.uses ++ r.uses
  | .cond test yes no => test.uses ++ yes.uses ++ no.uses

def Expr.usesIn : List Expr → List Use
  | [] => []
  | e :: rest => e.uses ++ Expr.usesIn rest

end

mutual

def Stmt.uses : Stmt → List Use
  | .expr e | .ret (some e) => e.uses
  | .ifThen test yes => test.uses ++ yes.uses
  | .ifElse test yes no => test.uses ++ yes.uses ++ no.uses
  | .whileLoop test body => test.uses ++ body.uses
  | .block body => Stmt.usesIn body
  | .ret none | .empty => []

def Stmt.usesIn : List Stmt → List Use
  | [] => []
  | s :: rest => s.uses ++ Stmt.usesIn rest

end

/-- A chunk whose references are those that the given uses ask for. -/
structure Refers (cx : Context) (uses : List Use) (c : Chunk) : Prop where
  references : c.code.filter Instr.refers =
    uses.filterMap fun u => (u.instr? cx).filter Instr.refers
  bound : ∀ u ∈ uses, (u.instr? cx).isSome

namespace Refers

variable {cx : Context} {uses uses' : List Use} {c c' : Chunk} {code : List Instr} {w : Width}

theorem append (h : Refers cx uses c) (h' : Refers cx uses' c') :
    Refers cx (uses ++ uses') (c ++ c') where
  references := by
    rw [Chunk.code_append, List.filter_append, h.references, h'.references, List.filterMap_append]
  bound u hu := (List.mem_append.mp hu).elim (h.bound u) (h'.bound u)

theorem ofCode (h : code.filter Instr.refers = []) : Refers cx [] (.ofCode code) := ⟨h, by simp⟩

/-- Plain instructions behind a chunk. -/
theorem concat (h : Refers cx uses c) (hcode : code.filter Instr.refers = []) :
    Refers cx uses (c ++ .ofCode code) := by
  simpa using h.append (.ofCode hcode)

theorem startAt (pos : Nat) : Refers cx [] (.startAt pos) := ⟨rfl, by simp⟩

theorem joinAt (h : Refers cx uses c) (pos : Nat) : Refers cx uses (c ++ .joinAt pos) :=
  ⟨by simpa using h.references, h.bound⟩

/-- The instruction of one use, with plain ones behind it. -/
theorem single {u : Use} {i : Instr} (hi : u.instr? cx = some i)
    (hcode : code.filter Instr.refers = []) : Refers cx [u] (.ofCode (i :: code)) := by
  refine ⟨?_, by simp [hi]⟩
  rw [Chunk.code_ofCode, List.filter_cons, hcode, List.filterMap_cons, hi, Option.filter_some]
  split <;> rfl

theorem remove {front : List Instr} (h : Refers cx uses c) (hcode : c.code = front ++ [.load w]) :
    Refers cx uses { c with code := front } := by
  refine ⟨?_, h.bound⟩
  rw [← h.references, hcode, List.filter_append]
  exact (List.append_nil _).symm

theorem rewrite (h : Refers cx uses c) (hrew : c.rewriteLoad? = some (w, c')) :
    Refers cx uses c' := by
  obtain ⟨front, hcode, rfl⟩ := Chunk.rewriteLoad?_eq_some hrew
  refine ⟨?_, h.bound⟩
  rw [← h.references, hcode, List.filter_append, List.filter_append]
  rfl

/-- What is picked from the code, where nothing is picked from plain instructions. -/
theorem filterMap_eq {β : Type} {pick : Instr → Option β} (h : Refers cx uses c)
    (hpick : ∀ i, i.refers = false → pick i = none) :
    c.code.filterMap pick = uses.filterMap fun u => (u.instr? cx).bind pick := by
  have hbind (o : Option Instr) : (o.filter Instr.refers).bind pick = o.bind pick := by
    cases o with
    | none => rfl
    | some i => cases hi : i.refers <;> simp [Option.filter_some, hi, hpick]
  have hfilter : c.code.filterMap pick = (c.code.filter Instr.refers).filterMap pick := by
    rw [List.filterMap_filter]
    refine List.filterMap_congr fun i _ => ?_
    cases hi : i.refers <;> simp [hpick, hi]
  rw [hfilter, h.references, List.filterMap_filterMap]
  exact List.filterMap_congr fun u _ => hbind _

end Refers

theorem refers_addOffset (t : CType) (op : BinOp) :
    (Compile.addOffset t op).filter Instr.refers = [] := by
  rw [Compile.addOffset]
  split <;> rfl

theorem refers_binaryCode (op : BinOp) (left right : CType) :
    (binaryCode op left right).2.filter Instr.refers = [] := by
  unfold binaryCode
  split
  · exact refers_addOffset left .add
  · split
    · rfl
    · exact refers_addOffset left .sub
  · rfl

theorem refers_dropArguments (count : Nat) :
    (dropArguments count).filter Instr.refers = [] := by
  rw [dropArguments]
  split <;> rfl

/-- The code of a name: one instruction that may refer to a place, and at most a load. -/
theorem nameCode?_eq_some {b : Binding} {frame : Word} {t : CType} {code : List Instr}
    (h : nameCode? b frame = some (t, code)) :
    ∃ i rest, code = i :: rest ∧ rest.filter Instr.refers = [] := by
  rcases nameCode?_cases h with rfl | rfl | rfl <;> exact ⟨_, _, rfl, rfl⟩

theorem Expr.generateArgs_refers {cx : Context} {args : List Expr} {pos size : Nat} {c : Chunk}
    (he : ∀ e ∈ args, ∀ {pos size t c}, e.generate cx pos size = some (t, c) → Refers cx e.uses c)
    (h : generateArgs cx pos size args = some c) : Refers cx (usesIn args) c := by
  refine generateArgs_induction (motive := fun args _ _ c => Refers cx (usesIn args) c)
    (fun _ _ => .ofCode rfl) ?_ h
  intro e hmem rest pos size t c c' h hrest
  exact ((he e hmem h).concat rfl).append hrest

theorem Expr.generate_refers {cx : Context} {e : Expr} {pos size : Nat} {t : CType} {c : Chunk}
    (h : e.generate cx pos size = some (t, c)) : Refers cx e.uses c := by
  replace h := generated h
  induction h with
  | number _ | negative _ | sizeOf _ => exact .ofCode rfl
  | text _ => exact ⟨rfl, by simp [uses]⟩
  | name hcode =>
    obtain ⟨i, rest, rfl, hrest⟩ := nameCode?_eq_some hcode
    exact .single (by simp [Use.instr?, hcode]) hrest
  | call args hargs _ hi ih =>
    exact (generateArgs_refers ih hargs).append (.single hi (refers_dropArguments args.length))
  | cast _ _ ih | paren _ ih | plus _ ih => exact ih
  | deref _ _ ih | withConstant _ _ _ ih => exact ih.concat rfl
  | addressOf _ hrem ih =>
    obtain ⟨front, w, hcode, rfl⟩ := Chunk.removeLoad?_eq_some hrem
    exact ih.remove hcode
  | negate _ ih =>
    have hfront : Refers cx [] (.ofCode [.imm (-1), .push]) := .ofCode rfl
    exact (hfront.append ih).concat rfl
  | preStep _ _ hrew ih | postStep _ _ _ hrew ih => exact (ih.rewrite hrew).concat rfl
  | assign _ hrew _ ih ih₁ => exact ((ih.rewrite hrew).append ih₁).concat rfl
  | cond _ _ _ _ ih ih₁ ih₂ =>
    exact ((((ih.concat rfl).append ih₁).concat rfl).append ih₂).joinAt _
  | shortCircuit _ _ _ ih ih₁ => exact ((ih.concat rfl).append ih₁).joinAt _
  | binary op t t₁ _ _ ih ih₁ =>
    exact ((ih.concat rfl).append ih₁).concat (refers_binaryCode op t t₁)
  | index _ _ _ _ ih ih₁ =>
    refine ((ih.concat rfl).append ih₁).concat ?_
    rw [List.filter_append, refers_addOffset]
    rfl

mutual

theorem Stmt.generate_refers {cx : Context} {pos size : Nat} {c : Chunk} :
    ∀ {s : Stmt}, s.generate cx pos size = some c → Refers cx s.uses c
  | .expr e, h => by
    obtain ⟨t, c', h', rfl⟩ := Stmt.generate_expr h
    exact (Refers.startAt pos).append (Expr.generate_refers h')
  | .ifThen test yes, h => by
    obtain ⟨t, c₀, c₁, h₀, h₁, rfl⟩ := Stmt.generate_ifThen h
    have htest := (Refers.startAt pos).append (Expr.generate_refers h₀)
    exact (htest.concat rfl).append (Stmt.generate_refers h₁)
  | .ifElse test yes no, h => by
    obtain ⟨t, c₀, c₁, second, c₂, h₀, h₁, -, h₂, rfl⟩ := Stmt.generate_ifElse h
    have htest := (Refers.startAt pos).append (Expr.generate_refers h₀)
    exact (((htest.concat rfl).append (Stmt.generate_refers h₁)).concat rfl).append
      (Stmt.generate_refers h₂)
  | .whileLoop test body, h => by
    obtain ⟨t, c₀, c₁, h₀, h₁, rfl⟩ := Stmt.generate_whileLoop h
    have htest := (Refers.startAt pos).append (Expr.generate_refers h₀)
    exact ((htest.concat rfl).append (Stmt.generate_refers h₁)).concat rfl
  | .ret none, h => by
    simp only [Stmt.generate, Option.some.injEq] at h
    subst h
    exact (Refers.startAt pos).concat rfl
  | .ret (some e), h => by
    obtain ⟨t, c', h', rfl⟩ := Stmt.generate_ret_some h
    exact ((Refers.startAt pos).append (Expr.generate_refers h')).concat rfl
  | .block body, h => by
    obtain ⟨c', h', rfl⟩ := Stmt.generate_block h
    exact (Refers.startAt pos).append (Stmt.generateAll_refers h')
  | .empty, h => by
    simp only [Stmt.generate, Option.some.injEq] at h
    subst h
    exact Refers.startAt pos

theorem Stmt.generateAll_refers {cx : Context} {pos size : Nat} {c : Chunk} :
    ∀ {body : List Stmt}, Stmt.generateAll cx pos size body = some c →
      Refers cx (Stmt.usesIn body) c
  | [], h => by
    simp only [Stmt.generateAll, Option.some.injEq] at h
    subst h
    exact .ofCode rfl
  | s :: rest, h => by
    obtain ⟨c₁, c₂, h₁, h₂, rfl⟩ := Stmt.generateAll_cons h
    exact (Stmt.generate_refers h₁).append (Stmt.generateAll_refers h₂)

end

end Syntax

end MiniC
