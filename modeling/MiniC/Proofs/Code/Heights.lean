import MiniC.Proofs.Compiling.Actions
import MiniC.Proofs.Syntax.Generate

/-!
# Heights of the operand stack

The height counts the words that a function has pushed and not yet taken. Read as one straight line,
the code of an expression begins and ends at the same height and never goes below it, and so does
the code of a statement (`Expr.generate_rises`, `Stmt.generate_rises`). A call drops its arguments
by their number, which is a word; a program that fits its region has fewer pushes than a word can
count (`two_mul_pushes_le`).
-/

namespace MiniC

/-- What an instruction does to the height. Calls and services leave their arguments alone. -/
def Instr.effect : Instr → Int
  | .push => 1
  | .store _ | .binary _ => -1
  | .adjust n => -n.toInt
  | _ => 0

@[simp] theorem Instr.effect_branch (condition : Branch) (target : UInt64) :
    (Instr.branch condition target).effect = 0 := rfl

/-- Whether an instruction begins a function. -/
def Instr.isEnter : Instr → Bool
  | .enter _ => true
  | _ => false

/-- Whether an instruction neither begins a function nor branches. -/
def Instr.isStraight : Instr → Bool
  | .enter _ | .branch _ _ => false
  | _ => true

/-- Straight through the code the height goes from one value to another and is never negative. -/
def Rises : Int → List Instr → Int → Prop
  | h, [], h' => 0 ≤ h ∧ h = h'
  | h, i :: rest, h' => 0 ≤ h ∧ Rises (h + i.effect) rest h'

namespace Rises

variable {h h' h'' : Int} {code code' : List Instr}

theorem nonneg (hr : Rises h code h') : 0 ≤ h := by
  cases code <;> exact hr.1

theorem append (hr : Rises h code h') (hr' : Rises h' code' h'') : Rises h (code ++ code') h'' := by
  induction code generalizing h with
  | nil =>
    rw [hr.2]
    exact hr'
  | cons i rest ih => exact ⟨hr.1, ih hr.2⟩

theorem of_append (hr : Rises h (code ++ code') h'') :
    ∃ h', Rises h code h' ∧ Rises h' code' h'' := by
  induction code generalizing h with
  | nil => exact ⟨h, ⟨hr.nonneg, rfl⟩, hr⟩
  | cons i rest ih =>
    obtain ⟨h', hrest, hr'⟩ := ih hr.2
    exact ⟨h', ⟨hr.1, hrest⟩, hr'⟩

theorem push (hh : 0 ≤ h) : Rises h [.push] (h + 1) :=
  ⟨hh, by show 0 ≤ h + 1; omega, rfl⟩

theorem branch (hh : 0 ≤ h) (condition : Branch) (target : UInt64) :
    Rises h [.branch condition target] h := by
  simp [Rises, Instr.effect, hh]

end Rises

/-! ## Pushes -/

/-- How many words the code pushes. -/
def pushes (code : List Instr) : Nat := code.count .push

@[simp] theorem pushes_nil : pushes [] = 0 := rfl

@[simp] theorem pushes_append (code code' : List Instr) :
    pushes (code ++ code') = pushes code + pushes code' := List.count_append

theorem pushes_cons (i : Instr) (code : List Instr) :
    pushes (i :: code) = pushes code + if i = .push then 1 else 0 := by
  simp [pushes, List.count_cons]

/-- Words of an instruction less two for a push. A load counts nothing, so that it may be removed.
-/
def Instr.slack : Instr → Int
  | .push => -1
  | .load _ => 0
  | i => i.words

/-- The slack of code is what its words exceed twice its pushes by, loads not counted. -/
def slack (code : List Instr) : Int := (code.map Instr.slack).sum

@[simp] theorem slack_nil : slack [] = 0 := rfl

@[simp] theorem slack_cons (i : Instr) (code : List Instr) :
    slack (i :: code) = i.slack + slack code := by
  simp [slack]

@[simp] theorem slack_append (code code' : List Instr) :
    slack (code ++ code') = slack code + slack code' := by
  simp [slack]

theorem two_mul_pushes_le {code : List Instr} (h : 0 ≤ slack code) :
    2 * pushes code ≤ Compile.wordCount code := by
  have key : 2 * (pushes code : Int) + slack code ≤ Compile.wordCount code := by
    clear h
    induction code with
    | nil => simp
    | cons i code ih =>
      rw [pushes_cons, slack_cons, Compile.wordCount_cons]
      cases i <;> simp [Instr.slack, Instr.words, Instr.operand?] <;> omega
  omega

namespace Syntax

variable {cx : Context}

theorem slack_nameCode? {b : Binding} {frame : Word} {t : CType} {code : List Instr}
    (h : nameCode? b frame = some (t, code)) : 1 ≤ slack code := by
  rcases nameCode?_cases h with rfl | rfl | rfl <;>
    simp [Instr.slack, Instr.words, Instr.operand?]

theorem slack_callInstr? {b : Binding} {frame : Word} {i : Instr}
    (h : Compile.callInstr? b frame = some i) : 1 ≤ i.slack := by
  rcases callInstr?_cases h with ⟨s, rfl⟩ | rfl | rfl | rfl <;>
    simp [Instr.slack, Instr.words, Instr.operand?]

theorem slack_dropArguments (n : Nat) : 0 ≤ slack (dropArguments n) := by
  rw [dropArguments]
  split <;> simp [Instr.slack, Instr.words, Instr.operand?]

theorem slack_addOffset (type : CType) (op : BinOp) : 1 ≤ slack (Compile.addOffset type op) := by
  rw [Compile.addOffset]
  split <;> simp [Compile.scale, Instr.slack, Instr.words, Instr.operand?]

theorem slack_binaryCode (op : BinOp) (l r : CType) : 1 ≤ slack (binaryCode op l r).2 := by
  cases op
  case add => exact slack_addOffset l .add
  case sub =>
    rw [binaryCode]
    split
    · simp [Compile.scale, Instr.slack, Instr.words, Instr.operand?]
    · exact slack_addOffset l .sub
  all_goals simp [binaryCode, Instr.slack, Instr.words, Instr.operand?]

theorem Chunk.slack_rewriteLoad? {c c' : Chunk} {w : Width}
    (h : c.rewriteLoad? = some (w, c')) : slack c'.code = slack c.code - 1 := by
  obtain ⟨front, hcode, rfl⟩ := Chunk.rewriteLoad?_eq_some h
  simp [hcode, Instr.slack]
  omega

theorem Expr.generateArgs_slack {args : List Expr} {pos size : Nat} {c : Chunk}
    (he : ∀ e ∈ args, ∀ {pos size t c}, e.generate cx pos size = some (t, c) → 1 ≤ slack c.code)
    (h : generateArgs cx pos size args = some c) : 0 ≤ slack c.code := by
  refine generateArgs_induction (motive := fun _ _ _ c => 0 ≤ slack c.code)
    (fun _ _ => by simp) ?_ h
  intro e hmem rest pos size t c c' h hrest
  have := he e hmem h
  simp [Instr.slack]
  omega

theorem Expr.generate_slack {e : Expr} {pos size : Nat} {t : CType} {c : Chunk}
    (h : e.generate cx pos size = some (t, c)) : 1 ≤ slack c.code := by
  replace h := generated h
  induction h with
  | number _ | negative _ | sizeOf _ | text _ =>
    simp [Chunk.ofCode, Instr.slack, Instr.words, Instr.operand?]
  | name hcode => exact slack_nameCode? hcode
  | call args hargs _ hi ih =>
    have hargs' := generateArgs_slack ih hargs
    have h₁ := slack_callInstr? hi
    have h₂ := slack_dropArguments args.length
    simp
    omega
  | cast _ _ ih | paren _ ih | plus _ ih => exact ih
  | deref _ _ ih => simpa [Instr.slack] using ih
  | addressOf _ hrem ih =>
    obtain ⟨front, w, hcode, rfl⟩ := Chunk.removeLoad?_eq_some hrem
    simpa [hcode, Instr.slack] using ih
  | withConstant _ _ _ ih | negate _ ih =>
    simp [Instr.slack, Instr.words, Instr.operand?]
    omega
  | preStep _ _ hrew ih | postStep _ _ _ hrew ih =>
    have hpush := Chunk.slack_rewriteLoad? hrew
    simp [Compile.stepBy, Instr.slack, Instr.words, Instr.operand?]
    omega
  | assign _ hrew _ ih ih₁ =>
    have hpush := Chunk.slack_rewriteLoad? hrew
    simp [Instr.slack, Instr.words, Instr.operand?]
    omega
  | cond _ _ _ _ ih ih₁ ih₂ =>
    simp [Instr.slack, Instr.words, Instr.operand?]
    omega
  | shortCircuit _ _ _ ih ih₁ =>
    simp [Instr.slack, Instr.words, Instr.operand?]
    omega
  | binary op t t₁ _ _ ih ih₁ =>
    have hop := slack_binaryCode op t t₁
    simp [Instr.slack]
    omega
  | index t _ _ _ ih ih₁ =>
    have hop := slack_addOffset t .add
    simp [Instr.slack]
    omega

mutual

theorem Stmt.generate_slack {pos size : Nat} {c : Chunk} :
    ∀ {s : Stmt}, s.generate cx pos size = some c → 0 ≤ slack c.code
  | .expr e, h => by
    obtain ⟨t, c', h', rfl⟩ := Stmt.generate_expr h
    have := Expr.generate_slack h'
    simp
    omega
  | .ifThen test yes, h => by
    obtain ⟨t, c₀, c₁, h₀, h₁, rfl⟩ := Stmt.generate_ifThen h
    have h₀ := Expr.generate_slack h₀
    have h₁ := Stmt.generate_slack h₁
    simp [Instr.slack, Instr.words, Instr.operand?]
    omega
  | .ifElse test yes no, h => by
    obtain ⟨t, c₀, c₁, second, c₂, h₀, h₁, -, h₂, rfl⟩ := Stmt.generate_ifElse h
    have h₀ := Expr.generate_slack h₀
    have h₁ := Stmt.generate_slack h₁
    have h₂ := Stmt.generate_slack h₂
    simp [Instr.slack, Instr.words, Instr.operand?]
    omega
  | .whileLoop test body, h => by
    obtain ⟨t, c₀, c₁, h₀, h₁, rfl⟩ := Stmt.generate_whileLoop h
    have h₀ := Expr.generate_slack h₀
    have h₁ := Stmt.generate_slack h₁
    simp [Instr.slack, Instr.words, Instr.operand?]
    omega
  | .ret none, h => by
    simp only [Stmt.generate, Option.some.injEq] at h
    subst h
    simp [Instr.slack, Instr.words, Instr.operand?]
  | .ret (some e), h => by
    obtain ⟨t, c', h', rfl⟩ := Stmt.generate_ret_some h
    have := Expr.generate_slack h'
    simp [Instr.slack, Instr.words, Instr.operand?]
    omega
  | .block body, h => by
    obtain ⟨c', h', rfl⟩ := Stmt.generate_block h
    simpa using Stmt.generateAll_slack h'
  | .empty, h => by
    simp only [Stmt.generate, Option.some.injEq] at h
    subst h
    simp

theorem Stmt.generateAll_slack {pos size : Nat} {c : Chunk} :
    ∀ {body : List Stmt}, Stmt.generateAll cx pos size body = some c → 0 ≤ slack c.code
  | [], h => by
    simp only [Stmt.generateAll, Option.some.injEq] at h
    subst h
    simp
  | s :: rest, h => by
    obtain ⟨c₁, c₂, h₁, h₂, rfl⟩ := Stmt.generateAll_cons h
    have h₁ := Stmt.generate_slack h₁
    have h₂ := Stmt.generateAll_slack h₂
    simp
    omega

end

/-! ## Straight instructions -/

theorem isStraight_nameCode? {b : Binding} {frame : Word} {t : CType} {code : List Instr}
    (h : nameCode? b frame = some (t, code)) : code.all Instr.isStraight = true := by
  rcases nameCode?_cases h with rfl | rfl | rfl <;> rfl

theorem isStraight_callInstr? {b : Binding} {frame : Word} {i : Instr}
    (h : Compile.callInstr? b frame = some i) : i.isStraight = true := by
  rcases callInstr?_cases h with ⟨s, rfl⟩ | rfl | rfl | rfl <;> rfl

theorem isStraight_dropArguments (n : Nat) : (dropArguments n).all Instr.isStraight = true := by
  rw [dropArguments]
  split <;> rfl

theorem isStraight_addOffset (type : CType) (op : BinOp) :
    (Compile.addOffset type op).all Instr.isStraight = true := by
  rw [Compile.addOffset]
  split <;> rfl

theorem isStraight_binaryCode (op : BinOp) (l r : CType) :
    (binaryCode op l r).2.all Instr.isStraight = true := by
  cases op
  case add => exact isStraight_addOffset l .add
  case sub =>
    rw [binaryCode]
    split
    · rfl
    · exact isStraight_addOffset l .sub
  all_goals rfl

/-! ## Expressions and statements end at the height at which they begin -/

theorem rises_nameCode? {b : Binding} {frame : Word} {t : CType} {code : List Instr} {h : Int}
    (hcode : nameCode? b frame = some (t, code)) (hh : 0 ≤ h) : Rises h code h := by
  rcases nameCode?_cases hcode with rfl | rfl | rfl <;> simp [Rises, Instr.effect, hh]

theorem effect_callInstr? {b : Binding} {frame : Word} {i : Instr}
    (h : Compile.callInstr? b frame = some i) : i.effect = 0 := by
  rcases callInstr?_cases h with ⟨s, rfl⟩ | rfl | rfl | rfl <;> rfl

theorem rises_dropArguments {n : Nat} {h : Int} (hn : n < 2 ^ 63) (hh : 0 ≤ h) :
    Rises (h + n) (dropArguments n) h := by
  rw [dropArguments]
  split
  · have hword : (Word.ofNat n).toInt = n := by
      rw [Word.ofNat, Int64.toInt_ofNat_of_lt hn]
    simp only [Rises, Instr.effect, hword]
    omega
  · simp only [Rises]
    omega

theorem rises_addOffset {type : CType} {op : BinOp} {h : Int} (hh : 0 ≤ h) :
    Rises (h + 1) (Compile.addOffset type op) h := by
  rw [Compile.addOffset]
  split
  · simp [Compile.scale, Rises, Instr.effect]
    omega
  · simp [Rises, Instr.effect]
    omega

theorem rises_binaryCode {op : BinOp} {l r : CType} {h : Int} (hh : 0 ≤ h) :
    Rises (h + 1) (binaryCode op l r).2 h := by
  cases op
  case add => exact rises_addOffset hh
  case sub =>
    rw [binaryCode]
    split
    · simp [Compile.scale, Rises, Instr.effect]
      omega
    · exact rises_addOffset hh
  all_goals
    simp [binaryCode, Rises, Instr.effect]
    omega

/-- The push that stands for a load leaves its word. -/
theorem Chunk.rises_rewriteLoad? {c c' : Chunk} {w : Width} {h : Int}
    (hrew : c.rewriteLoad? = some (w, c')) (hr : Rises h c.code h) :
    Rises h c'.code (h + 1) := by
  obtain ⟨front, hcode, rfl⟩ := Chunk.rewriteLoad?_eq_some hrew
  rw [hcode] at hr
  obtain ⟨h', hfront, hload⟩ := hr.of_append
  simp only [Rises, Instr.effect] at hload
  obtain rfl : h' = h := by omega
  exact hfront.append (.push hload.1)

theorem Chunk.pushes_rewriteLoad? {c c' : Chunk} {w : Width}
    (hrew : c.rewriteLoad? = some (w, c')) : pushes c.code ≤ pushes c'.code := by
  obtain ⟨front, hcode, rfl⟩ := Chunk.rewriteLoad?_eq_some hrew
  simp [hcode, pushes_cons]

/-- Where a load ends code that keeps the height, the code before it does so too. -/
theorem Chunk.rises_removeLoad? {c c' : Chunk} {h : Int} (hrem : c.removeLoad? = some c')
    (hr : Rises h c.code h) : Rises h c'.code h := by
  obtain ⟨front, w, hcode, rfl⟩ := Chunk.removeLoad?_eq_some hrem
  rw [hcode] at hr
  obtain ⟨h', hfront, hload⟩ := hr.of_append
  simp only [Rises, Instr.effect] at hload
  obtain rfl : h' = h := by omega
  exact hfront

theorem Chunk.pushes_removeLoad? {c c' : Chunk} (hrem : c.removeLoad? = some c') :
    pushes c'.code = pushes c.code := by
  obtain ⟨front, w, hcode, rfl⟩ := Chunk.removeLoad?_eq_some hrem
  simp [hcode, pushes_cons]

/-- Arguments leave one word each, if each of them ends at the height at which it begins. -/
theorem Expr.generateArgs_rises {args : List Expr} {pos size : Nat} {c : Chunk} {h : Int}
    (he : ∀ e ∈ args, ∀ {pos size t c}, e.generate cx pos size = some (t, c) →
      ∀ {h : Int}, pushes c.code < 2 ^ 63 → 0 ≤ h → Rises h c.code h)
    (hargs : generateArgs cx pos size args = some c) (hb : pushes c.code < 2 ^ 63) (hh : 0 ≤ h) :
    Rises h c.code (h + args.length) ∧ args.length ≤ pushes c.code := by
  refine generateArgs_induction (motive := fun args _ _ c => ∀ h, 0 ≤ h →
    pushes c.code < 2 ^ 63 → Rises h c.code (h + args.length) ∧ args.length ≤ pushes c.code)
    (by simp [Rises]) ?_ hargs h hh hb
  intro e hmem rest pos size t c c' hgen hrest h hh hb
  simp only [Chunk.code_append, Chunk.code_ofCode, pushes_append, pushes_cons] at hb ⊢
  obtain ⟨hr, hn⟩ := hrest (h + 1) (by omega) (by omega)
  have hc := he e hmem hgen (by omega) hh
  refine ⟨?_, by simp; omega⟩
  have := (hc.append (.push hh)).append hr
  rwa [Int.add_assoc, Int.add_comm 1] at this

/-- Straight through its code an expression ends at the height at which it begins. -/
theorem Expr.generate_rises {e : Expr} {pos size : Nat} {t : CType} {c : Chunk} {h : Int}
    (hgen : e.generate cx pos size = some (t, c)) (hb : pushes c.code < 2 ^ 63) (hh : 0 ≤ h) :
    Rises h c.code h := by
  replace hgen := generated hgen
  induction hgen generalizing h with
  | number _ | negative _ | sizeOf _ | text _ => simp [Chunk.ofCode, Rises, Instr.effect, hh]
  | name hcode => exact rises_nameCode? hcode hh
  | call args hargs _ hi ih =>
    simp only [Chunk.code_append, Chunk.code_ofCode, pushes_append] at hb ⊢
    obtain ⟨hr, hn⟩ := generateArgs_rises ih hargs (by omega) hh
    refine hr.append ⟨by omega, ?_⟩
    rw [effect_callInstr? hi, Int.add_zero]
    exact rises_dropArguments (by omega) hh
  | cast _ _ ih | paren _ ih | plus _ ih => exact ih hb hh
  | deref _ _ ih =>
    simp only [Chunk.code_append, Chunk.code_ofCode, pushes_append] at hb ⊢
    refine (ih (by omega) hh).append ?_
    simp [Rises, Instr.effect, hh]
  | addressOf _ hrem ih =>
    rw [Chunk.pushes_removeLoad? hrem] at hb
    exact Chunk.rises_removeLoad? hrem (ih hb hh)
  | withConstant _ _ _ ih =>
    simp only [Chunk.code_append, Chunk.code_ofCode, pushes_append] at hb ⊢
    refine (ih (by omega) hh).append ?_
    simp only [Rises, Instr.effect]
    omega
  | negate _ ih =>
    simp only [Chunk.code_append, Chunk.code_ofCode, pushes_append] at hb ⊢
    have hfront : Rises h [.imm (-1), .push] (h + 1) := by
      simp only [Rises, Instr.effect]
      omega
    refine (hfront.append (ih (by omega) (by omega))).append ?_
    simp only [Rises, Instr.effect]
    omega
  | preStep _ _ hrew ih | postStep _ _ _ hrew ih =>
    simp only [Chunk.code_append, Chunk.code_ofCode, pushes_append] at hb ⊢
    have hle := Chunk.pushes_rewriteLoad? hrew
    refine (Chunk.rises_rewriteLoad? hrew (ih (by omega) hh)).append ?_
    simp only [Compile.stepBy, List.cons_append, List.nil_append, Rises, Instr.effect]
    omega
  | assign _ hrew _ ih ih₁ =>
    simp only [Chunk.code_append, Chunk.code_ofCode, pushes_append] at hb ⊢
    have hle := Chunk.pushes_rewriteLoad? hrew
    refine ((Chunk.rises_rewriteLoad? hrew (ih (by omega) hh)).append
      (ih₁ (by omega) (by omega))).append ?_
    simp only [Rises, Instr.effect]
    omega
  | cond _ _ _ _ ih ih₁ ih₂ =>
    simp only [Chunk.code_append, Chunk.code_ofCode, Chunk.code_joinAt, List.append_nil,
      pushes_append] at hb ⊢
    exact ((((ih (by omega) hh).append (.branch hh _ _)).append (ih₁ (by omega) hh)).append
      (.branch hh _ _)).append (ih₂ (by omega) hh)
  | shortCircuit _ _ _ ih ih₁ =>
    simp only [Chunk.code_append, Chunk.code_ofCode, Chunk.code_joinAt, List.append_nil,
      pushes_append] at hb ⊢
    exact ((ih (by omega) hh).append (.branch hh _ _)).append (ih₁ (by omega) hh)
  | binary _ _ _ _ _ ih ih₁ =>
    simp only [Chunk.code_append, Chunk.code_ofCode, pushes_append] at hb ⊢
    exact (((ih (by omega) hh).append (.push hh)).append (ih₁ (by omega) (by omega))).append
      (rises_binaryCode hh)
  | index _ _ _ _ ih ih₁ =>
    simp only [Chunk.code_append, Chunk.code_ofCode, pushes_append] at hb ⊢
    refine (((ih (by omega) hh).append (.push hh)).append (ih₁ (by omega) (by omega))).append
      ((rises_addOffset hh).append ?_)
    simp [Rises, Instr.effect, hh]

mutual

/-- Straight through its code a statement ends at the height at which it begins. -/
theorem Stmt.generate_rises {pos size : Nat} {c : Chunk} {h : Int} (hh : 0 ≤ h) :
    ∀ {s : Stmt}, s.generate cx pos size = some c → pushes c.code < 2 ^ 63 → Rises h c.code h
  | .expr e, hgen, hb => by
    obtain ⟨t, c', h', rfl⟩ := Stmt.generate_expr hgen
    simpa using Expr.generate_rises h' (by simpa using hb) hh
  | .ifThen test yes, hgen, hb => by
    obtain ⟨t, c₀, c₁, h₀, h₁, rfl⟩ := Stmt.generate_ifThen hgen
    simp only [Chunk.code_append, Chunk.code_startAt, Chunk.code_ofCode, List.nil_append,
      pushes_append] at hb ⊢
    exact ((Expr.generate_rises h₀ (by omega) hh).append (.branch hh _ _)).append
      (Stmt.generate_rises hh h₁ (by omega))
  | .ifElse test yes no, hgen, hb => by
    obtain ⟨t, c₀, c₁, second, c₂, h₀, h₁, -, h₂, rfl⟩ := Stmt.generate_ifElse hgen
    simp only [Chunk.code_append, Chunk.code_startAt, Chunk.code_ofCode, List.nil_append,
      pushes_append] at hb ⊢
    exact ((((Expr.generate_rises h₀ (by omega) hh).append (.branch hh _ _)).append
      (Stmt.generate_rises hh h₁ (by omega))).append (.branch hh _ _)).append
      (Stmt.generate_rises hh h₂ (by omega))
  | .whileLoop test body, hgen, hb => by
    obtain ⟨t, c₀, c₁, h₀, h₁, rfl⟩ := Stmt.generate_whileLoop hgen
    simp only [Chunk.code_append, Chunk.code_startAt, Chunk.code_ofCode, List.nil_append,
      pushes_append] at hb ⊢
    exact (((Expr.generate_rises h₀ (by omega) hh).append (.branch hh _ _)).append
      (Stmt.generate_rises hh h₁ (by omega))).append (.branch hh _ _)
  | .ret none, hgen, _ => by
    simp only [Stmt.generate, Option.some.injEq] at hgen
    subst hgen
    simp [Rises, Instr.effect, hh]
  | .ret (some e), hgen, hb => by
    obtain ⟨t, c', h', rfl⟩ := Stmt.generate_ret_some hgen
    simp only [Chunk.code_append, Chunk.code_startAt, Chunk.code_ofCode, List.nil_append,
      pushes_append] at hb ⊢
    refine (Expr.generate_rises h' (by omega) hh).append ?_
    simp [Rises, Instr.effect, hh]
  | .block body, hgen, hb => by
    obtain ⟨c', h', rfl⟩ := Stmt.generate_block hgen
    simpa using Stmt.generateAll_rises hh h' (by simpa using hb)
  | .empty, hgen, _ => by
    simp only [Stmt.generate, Option.some.injEq] at hgen
    subst hgen
    exact ⟨hh, rfl⟩

theorem Stmt.generateAll_rises {pos size : Nat} {c : Chunk} {h : Int} (hh : 0 ≤ h) :
    ∀ {body : List Stmt}, Stmt.generateAll cx pos size body = some c → pushes c.code < 2 ^ 63 →
      Rises h c.code h
  | [], hgen, _ => by
    simp only [Stmt.generateAll, Option.some.injEq] at hgen
    subst hgen
    exact ⟨hh, rfl⟩
  | s :: rest, hgen, hb => by
    obtain ⟨c₁, c₂, h₁, h₂, rfl⟩ := Stmt.generateAll_cons hgen
    simp only [Chunk.code_append, pushes_append] at hb ⊢
    exact (Stmt.generate_rises hh h₁ (by omega)).append
      (Stmt.generateAll_rises hh h₂ (by omega))

end

end Syntax

/-! ## Height functions -/

/-- A function of the index that changes along the code as the height does. -/
def Linear (H : Nat → Int) (pos : Nat) (code : List Instr) : Prop :=
  ∀ k i, code[k]? = some i → H (pos + k + 1) = H (pos + k) + i.effect

theorem getElem?_append_cases {α : Type} {a b : List α} {k : Nat} {x : α}
    (h : (a ++ b)[k]? = some x) :
    a[k]? = some x ∨ ∃ k', k = a.length + k' ∧ b[k']? = some x := by
  by_cases hlt : k < a.length
  · rw [List.getElem?_append_left hlt] at h
    exact .inl h
  · rw [List.getElem?_append_right (by omega)] at h
    exact .inr ⟨k - a.length, by omega, h⟩

theorem eq_of_getElem?_singleton {α : Type} {x y : α} {k : Nat} (h : [x][k]? = some y) :
    k = 0 ∧ x = y := by
  cases k with
  | zero => exact ⟨rfl, by simpa using h⟩
  | succ k => simp at h

namespace Linear

variable {H : Nat → Int} {pos : Nat} {code code' : List Instr} {h h' : Int}

theorem left (hl : Linear H pos (code ++ code')) : Linear H pos code := by
  intro k i hi
  obtain ⟨hlt, -⟩ := List.getElem?_eq_some_iff.mp hi
  exact hl k i (by rw [List.getElem?_append_left hlt, hi])

theorem right (hl : Linear H pos (code ++ code')) : Linear H (pos + code.length) code' := by
  intro k i hi
  have := hl (code.length + k) i (by rw [List.getElem?_append_right (by omega)]; simpa using hi)
  simpa [Nat.add_assoc] using this

theorem cons_iff {i : Instr} :
    Linear H pos (i :: code) ↔ H (pos + 1) = H pos + i.effect ∧ Linear H (pos + 1) code := by
  constructor
  · intro hl
    refine ⟨hl 0 i rfl, fun k j hj => ?_⟩
    have := hl (k + 1) j hj
    simpa [Nat.add_assoc, Nat.add_comm 1] using this
  · rintro ⟨h₀, hl⟩ k j hj
    cases k with
    | zero =>
      simp only [List.getElem?_cons_zero, Option.some.injEq] at hj
      rw [← hj]
      exact h₀
    | succ k =>
      rw [List.getElem?_cons_succ] at hj
      have := hl k j hj
      simpa [Nat.add_assoc, Nat.add_comm 1] using this

/-- A height function changes by what the code rises. -/
theorem stop_eq (hl : Linear H pos code) (hr : Rises h code h') :
    H (pos + code.length) = H pos + (h' - h) := by
  induction code generalizing pos h with
  | nil =>
    obtain ⟨-, rfl⟩ := hr
    simp
  | cons i code ih =>
    obtain ⟨h₀, hl'⟩ := cons_iff.mp hl
    have := ih hl' hr.2
    rw [List.length_cons, Nat.add_comm code.length, ← Nat.add_assoc, this, h₀]
    omega

/-- A height function is nonnegative along code that rises from its value. -/
theorem nonneg (hl : Linear H pos code) (hr : Rises (H pos) code h') {k : Nat}
    (hk : k ≤ code.length) : 0 ≤ H (pos + k) := by
  induction code generalizing pos k with
  | nil =>
    obtain rfl : k = 0 := by simpa using hk
    exact hr.1
  | cons i code ih =>
    cases k with
    | zero => exact hr.1
    | succ k =>
      obtain ⟨h₀, hl'⟩ := cons_iff.mp hl
      have := ih hl' (h₀ ▸ hr.2) (by simpa using hk)
      rwa [Nat.add_comm k, ← Nat.add_assoc]

/-- The height function of code with one more load behind it. -/
theorem concat_load (hl : Linear H pos code) (w : Width) :
    Linear (fun x => if x = pos + code.length + 1 then H (pos + code.length) else H x) pos
      (code ++ [.load w]) := by
  intro k i hi
  rcases getElem?_append_cases hi with hi' | ⟨k', rfl, hi'⟩
  · obtain ⟨hlt, -⟩ := List.getElem?_eq_some_iff.mp hi'
    simp only
    rw [if_neg (by omega), if_neg (by omega)]
    exact hl k i hi'
  · obtain ⟨rfl, rfl⟩ := eq_of_getElem?_singleton hi'
    simp [Instr.effect]

end Linear

end MiniC
