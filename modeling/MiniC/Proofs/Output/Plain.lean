import MiniC.Proofs.Output.Breaks

/-!
# Compiling plain sources

Expressions, statements and declarations keep the listing in step. An operand at a known depth ends
with loads that are not listed yet (`Orderly`): nothing is listed between their emission and the end
of the operand. So `&` removes no load that is listed (`Upholds.addressOf`).

For a source of any kind, `Program.compileListed_rows` says what a listing shows and when compiling
breaks off. In a plain source it never does.
-/

namespace MiniC

namespace Compile

open Listing Lexer

variable {n : Nat} {s : State} {source : List UInt8} {out : Sink} {l : Listing}
  {entries : List Entry} {j : Job} {m : Option Nesting} {p : List Lexeme → Prop} {behind : Bool}
  {outer : List Paren}

/-! ## Expressions -/

/-- A compiler of expressions that keeps the listing in step. Where the operand of an `&` ends with
the expression, the loads at the end of the code are not listed. -/
structure Orderly (j : Job) (sub : Prec → CompileM CType) : Prop where
  advances : ∀ prec, Advances ∅ (sub prec)
  inside : ∀ prec {p behind outer}, Upholds (j.At p (some ⟨behind, outer⟩)) (sub prec)
    (j.At (Asked false outer) (within outer))
  primary : ∀ {p behind outer}, Upholds (j.At p (some ⟨behind, outer⟩)) (sub .primary)
    (j.At (Asked behind outer) (within outer))

theorem addOffset_solid (type : CType) (op : BinOp) (code : List Instr) :
    ∃ i ∈ addOffset type op ++ code, i.isLoad = false :=
  ⟨.binary op, by simp [addOffset], rfl⟩

theorem stepBy_solid (type : CType) (width : Width) (op : BinOp) (code : List Instr) :
    ∃ i ∈ stepBy type width op ++ code, i.isLoad = false :=
  ⟨.push, by simp [stepBy], rfl⟩

namespace Upholds

variable {sub : Prec → CompileM CType}

/-! ### Operators behind an operand -/

theorem assignment (h : Orderly j sub) (left : CType) :
    Upholds (j.At p (within outer)) (assignment sub left) (j.At ⊤ (within outer)) := by
  refine loadToPush.bind fun width => ?_
  cases width with
  | none => exact .fail rfl
  | some width => exact (h.inside _).bind fun _ => (emit_solid rfl).bind fun _ => .pure _

theorem conditional (h : Orderly j sub) :
    Upholds (j.At p (within outer)) (conditional sub) (j.At (Asked false outer) (within outer)) :=
  (emit _).bind fun skipYes => (h.inside _).bind fun _ =>
    (expect (advance rfl rfl) rfl).bind fun _ =>
      (emit _).bind fun skipNo => (patch skipYes).bind fun _ => (h.inside _).bind fun _ =>
        (patch skipNo).bind fun _ => .pure _

theorem shortCircuit (h : Orderly j sub) (condition : Branch) (prec : Prec) :
    Upholds (j.At p (within outer)) (shortCircuit sub condition prec)
      (j.At (Asked false outer) (within outer)) :=
  (emit _).bind fun skip => (h.inside _).bind fun _ => (patch skip).bind fun _ => .pure _

theorem addition (h : Orderly j sub) (left : CType) :
    Upholds (j.At p (within outer)) (addition sub left) (j.At ⊤ (within outer)) :=
  (emit _).bind fun _ => (h.inside _).bind fun _ =>
    (emitAll_solid (by simpa using addOffset_solid left .add [])).bind fun _ => .pure _

theorem subtraction (h : Orderly j sub) (left : CType) :
    Upholds (j.At p (within outer)) (subtraction sub left) (j.At ⊤ (within outer)) := by
  refine (emit _).bind fun _ => (h.inside _).bind fun right => ?_
  split
  · exact (emitAll_solid ⟨.binary .sub, by simp, rfl⟩).bind fun _ => .pure _
  · exact (emitAll_solid (by simpa using addOffset_solid left .sub [])).bind fun _ => .pure _

/-- The operator may be `&`. -/
theorem arithmetic (h : Orderly j sub) (op : BinOp) :
    Upholds (j.At p (some ⟨behind, outer⟩)) (arithmetic sub op) (j.At ⊤ (within outer)) :=
  (emit _).bind fun _ => (h.inside _).bind fun _ => (emit_solid rfl).bind fun _ => .pure _

theorem postStep (left : CType) (apply undo : BinOp) :
    Upholds (j.At p m) (postStep left apply undo) (j.At ⊤ m) := by
  refine loadToPush.bind fun width => ?_
  cases width with
  | none => exact .fail rfl
  | some width => exact (emitAll_solid (stepBy_solid left width apply _)).bind fun _ => .pure _

theorem indexing (h : Orderly j sub) (left : CType) :
    Upholds (j.At p (within outer)) (indexing sub left) (j.At ⊤ (within outer)) := by
  refine (emit _).bind fun _ => (h.inside _).bind fun _ =>
    (expect (advance rfl rfl) rfl).bind fun _ => ?_
  split
  · exact .fail rfl
  · exact (emitAll_solid (addOffset_solid left .add _)).bind fun _ => .pure _

/-- The operators behind an operand. In the operand of an `&` only those that bind tightest are
asked for. -/
theorem operator (h : Orderly j sub) (left : CType) {token : Token} {last : Bool}
    (hprec : last = true → Prec.primary ≤ token.prec) :
    Upholds (fun s => j.At (Asked last outer) (within outer) s ∧ s.current = token)
      (operator sub left) (j.At (Asked last outer) (within outer)) := by
  have hsolid : ∀ s, j.At ⊤ (within outer) s → j.At (Asked last outer) (within outer) s :=
    fun s hs => hs.weaken le_top
  have hloose : (¬ Prec.primary ≤ token.prec) → ∀ s, j.At (Asked false outer) (within outer) s →
      j.At (Asked last outer) (within outer) s :=
    fun hle s hs => hs.weaken (asked_le_of_imp fun hlast => absurd (hprec hlast) hle)
  refine .currentIs ?_
  cases token with
  | assign =>
    exact (advance rfl rfl).bind fun _ => (assignment h left).mono (fun _ hs => hs) hsolid
  | question =>
    exact (advance rfl rfl).bind fun _ =>
      (conditional h).mono (fun _ hs => hs) (hloose (by decide))
  | orElse =>
    exact (advance rfl rfl).bind fun _ =>
      (shortCircuit h _ _).mono (fun _ hs => hs) (hloose (by decide))
  | andAlso =>
    exact (advance rfl rfl).bind fun _ =>
      (shortCircuit h _ _).mono (fun _ hs => hs) (hloose (by decide))
  | binary op =>
    cases op with
    | add => exact (advance rfl rfl).bind fun _ => (addition h left).mono (fun _ hs => hs) hsolid
    | sub => exact (advance rfl rfl).bind fun _ => (subtraction h left).mono (fun _ hs => hs) hsolid
    | _ => exact (advance_over rfl).bind fun _ => (arithmetic h _).mono (fun _ hs => hs) hsolid
  | increment =>
    exact (advance rfl rfl).bind fun _ => (postStep left _ _).mono (fun _ hs => hs) hsolid
  | decrement =>
    exact (advance rfl rfl).bind fun _ => (postStep left _ _).mono (fun _ hs => hs) hsolid
  | leftBracket =>
    exact (advance rfl rfl).bind fun _ => (indexing h left).mono (fun _ hs => hs) hsolid
  | _ => exact advance_any.left.bind fun _ => .fail rfl

/-! ### Operands -/

theorem dataAddress {P : State → Prop} : Upholds P dataAddress P := .get fun _ => .pure _

theorem alignData : Upholds (j.At p m) alignData (j.At p m) := .get fun _ => .storeData _

theorem stringLiterals :
    Upholds (j.At ⊥ (within outer)) stringLiterals (j.At ⊤ (within outer)) := by
  refine dataAddress.bind fun address => Upholds.bind (.whileToken (fun _ => ?_) ()) fun _ =>
    alignData.bind fun _ => (emit_solid rfl).bind fun _ => .pure _
  refine .current fun token => ?_
  cases token with
  | string bytes =>
    have hstore : Upholds (fun s => j.At ⊥ (within outer) s ∧ s.current = .string bytes)
        (Compile.storeData bytes) fun s => j.At ⊥ (within outer) s ∧ s.current = .string bytes :=
      keepsToken (.storeData bytes) (storeData bytes)
    exact (hstore.mono (fun _ hs => ⟨hs.1.1, hs.2⟩) fun _ hs => hs).bind fun _ => advance rfl rfl
  | _ =>
    rintro s ⟨⟨-, hmore⟩, ht⟩
    simp [ht] at hmore

/-- Parentheses that have nothing to do with an `&`. -/
theorem advance_other :
    Upholds (fun s => j.At p (within outer) s ∧ s.current = .leftParen) Compile.advance
      (j.At ⊥ (within (.other :: outer))) := advance_open

theorem advance_close_any {paren : Paren} :
    Upholds (fun s => j.At p (within (paren :: outer)) s ∧ s.current = .rightParen) Compile.advance
      (j.At ⊥ (some ⟨paren = .cast, outer⟩)) := advance_close fun _ _ hq => hq.elim

theorem sizeOf {token : Token} (hpassed : passed token = true)
    (hleads : leads behind token = false) :
    Upholds (fun s => j.At p (some ⟨behind, outer⟩) s ∧ s.current = token) sizeOf
      (j.At ⊤ (within outer)) :=
  (advance hpassed hleads).bind fun _ => (expect advance_other rfl).bind fun _ =>
    (baseType (.inr ⟨_, rfl⟩)).bind fun _ => (pointerLevels (.inr ⟨_, rfl⟩) _).bind fun _ =>
      (expect advance_close_any rfl).bind fun _ => (emit_solid rfl).bind fun _ => .pure _

theorem arguments (h : Orderly j sub) :
    Upholds (j.At ⊥ (within outer)) (arguments sub) fun s =>
      j.At ⊥ (within outer) s ∧ s.current = .rightParen := by
  have hcomma : Upholds (j.At (Asked false outer) (within outer)) (Compile.skipOver .comma)
      (j.At ⊥ (within outer)) :=
    (skipOver (.inr ⟨_, rfl⟩) rfl rfl).mono (fun _ hs => hs.weaken bot_le) fun _ hs => hs
  have hrounds : Upholds (j.At ⊥ (within outer)) (Compile.arguments sub) fun s =>
      j.At ⊥ (within outer) s ∧ decide (s.current ≠ .rightParen) = false := by
    refine upTo (fun _ hs => hs.inStep.1) (fun count => ?_) (fun count => ?_) 0
    · exact (h.advances _).seq fun _ => .seq (.emit (.inl rfl)) fun _ =>
        .seq (.skipOver _) fun _ => .pure _
    · exact (h.inside _).left.bind fun _ => (emit _).bind fun _ => hcomma.bind fun _ => .pure _
  exact hrounds.mono (fun _ hs => hs) fun _ hs => ⟨hs.1, by simpa using hs.2⟩

theorem callInstr_solid {binding : Binding} {frame : Word} {i : Instr}
    (h : callInstr? binding frame = some i) : i.isLoad = false := by
  rw [callInstr?] at h
  split at h <;> cases h <;> rfl

theorem call (h : Orderly j sub) (id : SymbolId) :
    Upholds (fun s => j.At p (within outer) s ∧ s.current = .leftParen) (call sub id)
      (j.At ⊤ (within outer)) := by
  refine advance_other.bind fun _ => (arguments h).bind fun count =>
    advance_close_any.bind fun _ => .get fun s => ?_
  dsimp only
  split
  · exact .fail rfl
  · rename_i i hi
    refine (emit_solid (callInstr_solid hi)).bind fun _ => ?_
    split
    · exact (emit _).bind fun _ => .pure _
    · exact .pure _

theorem variableUse (id : SymbolId) : Upholds (j.At p m) (variableUse id) (j.At ⊤ m) := by
  refine .get fun s => ?_
  dsimp only
  split
  · exact (emit_solid rfl).bind fun _ => .pure _
  · exact (emitAll_solid ⟨_, List.mem_cons_self, rfl⟩).bind fun _ => .pure _
  · exact (emitAll_solid ⟨_, List.mem_cons_self, rfl⟩).bind fun _ => .pure _
  · exact (emitAll_solid ⟨_, List.mem_cons_self, rfl⟩).bind fun _ => .pure _
  · exact .fail rfl

/-- A type in parentheses behind an `&` is that of a cast, anything else is its operand. -/
theorem baseType?_bind {α : Type} {g : Option CType → CompileM α} {Q : State → Prop}
    (hcast : ∀ base token, passed token = true → leads false token = false →
      Upholds (fun s => j.At ⊥ (within ((if behind then .cast else .other) :: outer)) s ∧
        s.current = token) (Compile.advance >>= fun _ => g (some base)) Q)
    (hoperand : Upholds (j.At ⊥ (within ((if behind then .operand else .other) :: outer)))
      (g none) Q) :
    Upholds (fun s => j.At ⊥ (within (.opening behind s.ahead.head? :: outer)) s)
      (baseType? >>= g) Q := by
  rw [Compile.baseType?, bind_assoc]
  refine .current fun token => ?_
  split
  · rw [bind_assoc]
    refine (hcast .int _ rfl rfl).mono (fun s hs => ⟨?_, hs.2⟩) fun _ hs => hs
    have hplace := hs.1
    rw [State.ahead, hs.2] at hplace
    cases behind <;> exact hplace
  · rw [bind_assoc]
    refine (hcast .char _ rfl rfl).mono (fun s hs => ⟨?_, hs.2⟩) fun _ hs => hs
    have hplace := hs.1
    rw [State.ahead, hs.2] at hplace
    cases behind <;> exact hplace
  · rename_i hint hchar
    refine hoperand.mono (fun s hs => ?_) fun _ hs => hs
    have hplace := hs.1
    rw [State.ahead, hs.2, List.head?_cons] at hplace
    unfold Paren.opening at hplace
    split at hplace
    · exact hplace
    · rename_i heq
      exact absurd (by simpa using heq) hint
    · rename_i heq
      exact absurd (by simpa using heq) hchar
    · exact hplace

/-- Behind a parenthesis that ends no line the loads in it are still not listed. -/
theorem parenthesised (h : Orderly j sub) :
    Upholds (fun s => j.At p (some ⟨behind, outer⟩) s ∧ s.current = .leftParen) (parenthesised sub)
      (j.At (Asked behind outer) (within outer)) := by
  refine advance_open.bind fun _ => baseType?_bind (fun base token hpassed hleads => ?_) ?_
  · have hclose : Upholds (j.At ⊥ (within ((if behind then .cast else .other) :: outer)))
        (Compile.expect .rightParen .badCast) (j.At ⊥ (some ⟨behind, outer⟩)) := by
      refine expect (advance_close_any.mono (fun _ hs => hs) fun s hs => ?_) rfl
      cases behind <;> exact hs
    exact (advance hpassed hleads).bind fun _ => (pointerLevels (.inr ⟨_, rfl⟩) _).bind fun _ =>
      hclose.bind fun _ => h.primary.bind fun _ => .pure _
  · have hclose : Upholds (j.At (Asked false ((if behind then .operand else .other) :: outer))
          (within ((if behind then .operand else .other) :: outer)))
        (Compile.expect .rightParen .closeParenExpected)
        (j.At (Asked behind outer) (within outer)) := by
      refine expect ((advance_close (q := Asked behind outer) fun line items hasked => ?_).mono
        (fun _ hs => hs) fun s hs => ?_) rfl
      · have hends : ends ((if behind then .operand else .other) :: outer)
            (⟨line, .ok .rightParen⟩ :: items) = true := by
          cases behind with
          | false => simpa [Asked, ends] using hasked
          | true => simp [ends]
        exact ⟨.inr hends, hends⟩
      · cases behind <;> exact hs
    exact (h.inside _).bind fun type => hclose.bind fun _ => .pure _

theorem dereference (h : Orderly j sub) :
    Upholds (fun s => j.At p (some ⟨behind, outer⟩) s ∧ s.current = .binary .mul) (dereference sub)
      (j.At (Asked behind outer) (within outer)) := by
  refine (advance_over rfl).bind fun _ => h.primary.bind fun type => ?_
  split
  · exact .fail rfl
  · exact (emit _).bind fun _ => .pure _

/-- The load that `&` removes is not listed. -/
theorem addressOf (h : Orderly j sub) :
    Upholds (fun s => j.At p (some ⟨behind, outer⟩) s ∧ s.current = .binary .and) (addressOf sub)
      (j.At ⊤ (within outer)) := by
  have hoperand : Upholds (j.At ⊥ (some ⟨true, outer⟩)) (sub .primary) (j.At ⊤ (within outer)) :=
    h.primary.mono (fun _ hs => hs) fun s hs => hs.weaken fun _ _ => .inl rfl
  refine (advance_over rfl).bind fun _ => hoperand.bind fun type => dropLoad.bind fun dropped => ?_
  split
  · exact .pure _
  · exact .fail rfl

theorem withConstant (h : Orderly j sub) (op : BinOp) (constant : Word) {token : Token}
    (hpassed : passed token = true) (hleads : leads behind token = false) :
    Upholds (fun s => j.At p (some ⟨behind, outer⟩) s ∧ s.current = token)
      (withConstant sub op constant) (j.At ⊤ (within outer)) :=
  (advance hpassed hleads).bind fun _ => (h.inside _).bind fun _ =>
    (emitAll_solid ⟨.push, by simp, rfl⟩).bind fun _ => .pure _

theorem emit_back {token : Token} (i : Instr) :
    Upholds (fun s => j.At p m s ∧ s.current = token) (Compile.emit i)
      fun s => (j.At p m s ∧ s.current = token) ∧ s.code.back? = some i := by
  refine (keepsToken (.emit i) (emit i)).and fun s _ => ?_
  rw [emit_apply]
  split_ifs
  · exact Array.back?_push
  · rfl

/-- An instruction that is no load may be listed. -/
theorem advance_solid {token : Token} {i : Instr} (hpassed : passed token = true)
    (hleads : leads false token = false) (hi : i.isLoad = false) :
    Upholds (fun s => (j.At p (within outer) s ∧ s.current = token) ∧ s.code.back? = some i)
      Compile.advance (j.At ⊤ (within outer)) := by
  have hback : Upholds (fun s => (j.At p (within outer) s ∧ s.current = token) ∧
      s.code.back? = some i) Compile.advance fun s => s.code.back? = some i :=
    moveOn (fun _ hs => hs.1.1.inStep) fun s s' hs _ _ hcode _ => by rw [hcode, hs.2]
  exact ((advance hpassed hleads).left.and hback).mono (fun _ hs => hs) fun s hs =>
    ⟨hs.1.inStep, hs.1.calm, fun _ => hs.1.inStep.freshLoads hs.2 hi⟩

theorem negation (h : Orderly j sub) {token : Token} (hpassed : passed token = true)
    (hleads : leads behind token = false) :
    Upholds (fun s => j.At p (some ⟨behind, outer⟩) s ∧ s.current = token) (negation sub)
      (j.At ⊤ (within outer)) := by
  refine (advance hpassed hleads).bind fun _ => .current fun token => ?_
  split
  · exact (emit_back _).bind fun _ => (advance_solid rfl rfl rfl).bind fun _ => .pure _
  · exact (emitAll _).left.bind fun _ => (h.inside _).bind fun _ =>
      (emit_solid rfl).bind fun _ => .pure _

theorem preStep (h : Orderly j sub) (op : BinOp) {token : Token} (hpassed : passed token = true)
    (hleads : leads behind token = false) :
    Upholds (fun s => j.At p (some ⟨behind, outer⟩) s ∧ s.current = token) (preStep sub op)
      (j.At ⊤ (within outer)) := by
  refine (advance hpassed hleads).bind fun _ => (h.inside _).bind fun type =>
    loadToPush.bind fun width => ?_
  cases width with
  | none => exact .fail rfl
  | some width =>
    exact (emitAll_solid (by simpa using stepBy_solid type width op [])).bind fun _ => .pure _

theorem unary (h : Orderly j sub) :
    Upholds (j.At p (some ⟨behind, outer⟩)) (unary sub)
      (j.At (Asked behind outer) (within outer)) := by
  have hsolid : ∀ s, j.At ⊤ (within outer) s → j.At (Asked behind outer) (within outer) s :=
    fun s hs => hs.weaken le_top
  unfold Compile.unary
  refine .current fun token => ?_
  cases token with
  | number value =>
    exact (advance rfl rfl).bind fun _ =>
      ((emit_solid rfl).mono (fun _ hs => hs) hsolid).bind fun _ => .pure _
  | string bytes =>
    refine stringLiterals.mono (fun s hs => ⟨hs.1.inStep, ?_, False.elim⟩) hsolid
    show Lexer.calm _ (⟨s.line, .ok s.current⟩ :: s.rest.items) = true
    rw [hs.2]
    exact hs.1.calm.ahead hs.2
  | keyword keyword =>
    cases keyword with
    | sizeofKw => exact (sizeOf rfl rfl).mono (fun _ hs => hs) hsolid
    | _ => exact .fail rfl
  | ident id =>
    refine (advance rfl rfl).bind fun _ => .current fun next => ?_
    split
    · rename_i hnext
      subst hnext
      exact (call h id).mono (fun _ hs => hs) hsolid
    · exact (variableUse id).left.mono (fun _ hs => hs) hsolid
  | leftParen => exact parenthesised h
  | bang => exact (withConstant h _ _ rfl rfl).mono (fun _ hs => hs) hsolid
  | tilde => exact (withConstant h _ _ rfl rfl).mono (fun _ hs => hs) hsolid
  | increment => exact (preStep h _ rfl rfl).mono (fun _ hs => hs) hsolid
  | decrement => exact (preStep h _ rfl rfl).mono (fun _ hs => hs) hsolid
  | binary op =>
    cases op with
    | mul => exact dereference h
    | and => exact (addressOf h).mono (fun _ hs => hs) hsolid
    | add => exact (advance_over rfl).bind fun _ => h.primary.bind fun _ => .pure _
    | sub => exact (negation h rfl rfl).mono (fun _ hs => hs) hsolid
    | _ => exact .fail rfl
  | _ => exact .fail rfl

end Upholds

theorem orderly_expr (j : Job) (levels : Nat) : Orderly j (expr levels) := by
  induction levels with
  | zero => exact ⟨fun prec => .expr 0 prec, fun _ => .fail rfl, .fail rfl⟩
  | succ levels ih =>
    have hlevel : ∀ prec p behind outer last, (last = true → behind = true ∧ prec = .primary) →
        Upholds (j.At p (some ⟨behind, outer⟩)) (expr (levels + 1) prec)
          (j.At (Asked last outer) (within outer)) := by
      intro prec p behind outer last hlast
      have hoperand : Upholds (j.At p (some ⟨behind, outer⟩)) (unary (expr levels))
          (j.At (Asked last outer) (within outer)) :=
        (Upholds.unary ih).mono (fun _ hs => hs) fun s hs =>
          hs.weaken (asked_le_of_imp fun h => (hlast h).1)
      refine hoperand.bind fun type => .whileToken (fun left => ?_) type
      rintro s ⟨hs, hmore⟩
      refine Upholds.operator ih left (fun h => ?_) s ⟨hs, rfl⟩
      rw [(hlast h).2] at hmore
      exact of_decide_eq_true hmore
    exact ⟨fun prec => .expr _ prec, fun prec => hlevel prec _ _ _ false (by simp),
      hlevel .primary _ _ _ _ fun h => ⟨h, rfl⟩⟩

/-! ## Statements and declarations -/

namespace Upholds

variable {sub : Prec → CompileM CType} {body : CompileM Unit}

/-- Outside of expressions nothing is said about the place. -/
theorem expression (h : Orderly j sub) (prec : Prec) :
    Upholds (j.At ⊥ none) (sub prec) (j.At ⊥ none) :=
  somewhere fun _ => (h.inside prec).mono (fun _ hs => hs) fun _ hs => (hs.weaken bot_le).somewhere

theorem expectAny {token : Token} {reason : Reason} (hreason : reason.isCrash = false) :
    Upholds (j.At ⊥ none) (Compile.expect token reason) (j.At ⊥ none) :=
  expect advance_any.left hreason

theorem skipAny (token : Token) :
    Upholds (j.At ⊥ none) (Compile.skipOver token) (j.At ⊥ none) := by
  refine .current fun t => ?_
  split
  · exact advance_any.left
  · exact (Upholds.pure _).left

theorem semicolon : Upholds (j.At ⊥ none) semicolon (j.At ⊥ none) := by
  refine Upholds.bind (R := j.At ⊥ none) (.get fun s => ?_) fun name => expectAny rfl
  split
  · exact .pure _
  · exact .pure _

theorem condition (h : Orderly j sub) :
    Upholds (j.At ⊥ none) (condition sub) (j.At ⊥ none) :=
  (expectAny rfl).bind fun _ => (expression h _).bind fun _ => expectAny rfl

theorem here {P : State → Prop} : Upholds P here P := .get fun _ => .pure _

theorem statements (hbody : Upholds (j.At ⊥ none) body (j.At ⊥ none)) :
    Upholds (j.At ⊥ none) (statements body) (j.At ⊥ none) := by
  refine .whileToken (fun _ => .current fun token => ?_) ()
  split
  · exact Upholds.bind (R := j.At ⊥ none) (.fail rfl) fun _ => hbody
  · exact hbody.left.left

theorem ifStmt (h : Orderly j sub) (hbody : Upholds (j.At ⊥ none) body (j.At ⊥ none)) :
    Upholds (j.At ⊥ none) (ifStmt sub body) (j.At ⊥ none) := by
  refine advance_any.bind fun _ => (condition h).bind fun _ => (emit _).bind fun skipYes =>
    hbody.bind fun _ => .current fun token => ?_
  split
  · exact (emit _).left.bind fun skipNo => (patch _).bind fun _ => advance_any.bind fun _ =>
      hbody.bind fun _ => patch _
  · exact (patch _).left

theorem whileStmt (h : Orderly j sub) (hbody : Upholds (j.At ⊥ none) body (j.At ⊥ none)) :
    Upholds (j.At ⊥ none) (whileStmt sub body) (j.At ⊥ none) :=
  advance_any.bind fun _ => here.bind fun _ => (condition h).bind fun _ => (emit _).bind fun _ =>
    hbody.bind fun _ => (emit _).bind fun _ => patch _

theorem returnStmt (h : Orderly j sub) :
    Upholds (j.At ⊥ none) (returnStmt sub) (j.At ⊥ none) := by
  refine advance_any.bind fun _ => .current fun token => ?_
  split
  · exact (expression h _).left.bind fun _ => (emit _).bind fun _ => semicolon
  · exact (emit _).left.bind fun _ => semicolon

theorem statement (h : Orderly j sub) (hbody : Upholds (j.At ⊥ none) body (j.At ⊥ none)) :
    Upholds (j.At ⊥ none) (statement sub body) (j.At ⊥ none) := by
  refine .current fun token => ?_
  split
  · exact (ifStmt h hbody).left
  · exact (whileStmt h hbody).left
  · exact (returnStmt h).left
  · exact advance_any.left.bind fun _ => (statements hbody).bind fun _ => advance_any
  · exact advance_any.left
  · exact (expression h _).left.bind fun _ => semicolon

theorem stmt (levels : Nat) : Upholds (j.At ⊥ none) (stmt levels) (j.At ⊥ none) := by
  induction levels with
  | zero => exact .fail rfl
  | succ levels ih => exact statement (orderly_expr j levels) ih

theorem enumerator (next : Word) :
    Upholds (j.At ⊥ none) (enumerator next) (j.At ⊥ none) := by
  refine .current fun token => ?_
  split
  · rename_i id
    have hdefine : ∀ value, Upholds (j.At ⊥ none) (do
        Compile.defineGlobal id ⟨.constant, .int, value⟩
        Compile.skipOver .comma
        return value + 1) (j.At ⊥ none) := fun value =>
      (defineGlobal id _).bind fun _ => (skipAny _).bind fun _ => .pure _
    refine advance_any.left.bind fun _ => .current fun token => ?_
    split
    · refine advance_any.left.bind fun _ => .current fun token => ?_
      split
      · exact advance_any.left.bind fun _ => (Upholds.pure _).bind hdefine
      · exact Upholds.bind (.fail rfl) hdefine
    · exact (Upholds.pure _).left.bind hdefine
  · exact .fail rfl

theorem enumeration : Upholds (j.At ⊥ none) enumeration (j.At ⊥ none) := by
  have hbraces : Upholds (j.At ⊥ none) (do
      if (← Compile.current) = .leftBrace then
        Compile.advance
        let _ ← Compile.whileToken (· ≠ .rightBrace) Compile.enumerator 0
        Compile.advance : CompileM Unit) (j.At ⊥ none) := by
    refine .current fun token => ?_
    split
    · exact advance_any.left.bind fun _ =>
        (whileToken (fun next => (enumerator next).left) 0).bind fun _ => advance_any
    · exact (Upholds.pure _).left
  refine advance_any.bind fun _ => .current fun token => ?_
  split
  · exact advance_any.left.bind fun _ => hbraces
  · exact hbraces.left

theorem globalVariable (id : SymbolId) (type : CType) :
    Upholds (j.At ⊥ none) (globalVariable id type) (j.At ⊥ none) :=
  dataAddress.bind fun _ => (defineGlobal id _).bind fun _ => storeData _

/-- A parameter or a local variable behind its base type. -/
theorem namedVariable (base : CType) (slot next : Word) {duplicate : String → Reason}
    {reason : Reason} (hduplicate : ∀ name, (duplicate name).isCrash = false)
    (hreason : reason.isCrash = false) : Upholds (j.At ⊥ none) (do
      let type ← Compile.pointerLevels base
      match ← Compile.current with
      | .ident id => do
        Compile.declare id type slot duplicate
        Compile.advance
        Compile.skipOver .comma
        return next
      | _ => Compile.fail reason : CompileM Word) (j.At ⊥ none) := by
  refine (pointerLevels (.inl rfl) base).bind fun type => .current fun token => ?_
  split
  · exact (declare _ _ _ hduplicate).left.bind fun _ => advance_any.bind fun _ =>
      (skipAny _).bind fun _ => .pure _
  · exact .fail hreason

theorem parameter (slot : Word) : Upholds (j.At ⊥ none) (parameter slot) (j.At ⊥ none) :=
  (baseType (.inl rfl)).bind fun base => namedVariable base slot (slot + 1) (fun _ => rfl) rfl

theorem localVariable (base : CType) (slot : Word) :
    Upholds (j.At ⊥ none) (localVariable base slot) (j.At ⊥ none) :=
  namedVariable base (slot + 1) (slot + 1) (fun _ => rfl) rfl

theorem localVariables (slot : Word) :
    Upholds (j.At ⊥ none) (localVariables slot) (j.At ⊥ none) :=
  .whileToken (fun slot => (baseType (.inl rfl)).left.bind fun base =>
    (whileToken (fun slot => (localVariable base slot).left) slot).bind fun _ =>
      advance_any.bind fun _ => .pure _) slot

theorem setFrame (frame : Word) :
    Upholds (j.At p m) (modify fun s => { s with frame }) (j.At p m) :=
  change (fun _ _ => rfl) (fun _ => rfl) (fun _ => rfl) fun _ => rfl

/-- Definitions and scopes. -/
theorem setSymbols (g : SymbolTable → SymbolTable) :
    Upholds (j.At p m) (modify fun s => { s with symbols := g s.symbols }) (j.At p m) :=
  change (fun _ _ => rfl) (fun _ => rfl) (fun _ => rfl) fun _ => rfl

theorem functionDefinition (id : SymbolId) (type : CType) :
    Upholds (j.At ⊥ none) (functionDefinition id type) (j.At ⊥ none) := by
  have hbody : ∀ slot : Word, Upholds (j.At ⊥ none) (do
      let frame := slot + 1
      modify fun s => { s with frame }
      Compile.advance
      let last ← Compile.localVariables frame
      let _ ← Compile.emit (.enter (last - frame))
      Compile.statements (Compile.stmt maxNesting)
      let _ ← Compile.emit .leave
      modify fun s => { s with symbols := s.symbols.closeScope } : CompileM Unit)
      (j.At ⊥ none) := fun slot =>
    (setFrame _).bind fun _ => advance_any.bind fun _ => (localVariables _).bind fun _ =>
      (emit _).bind fun _ => (statements (stmt maxNesting)).bind fun _ => (emit _).bind fun _ =>
        setSymbols SymbolTable.closeScope
  refine here.bind fun start => (setSymbols fun t =>
      (t.define? id ⟨.function, type, Word.ofNat start⟩).getD t).bind fun _ =>
    advance_any.bind fun _ => (setSymbols SymbolTable.openScope).bind fun _ =>
      (whileToken (fun slot => (parameter slot).left) 0).bind fun slot =>
        advance_any.bind fun _ => .current fun token => ?_
  split
  · exact Upholds.bind (.fail rfl) fun _ => hbody slot
  · exact (hbody slot).left

theorem declarator (base : CType) :
    Upholds (j.At ⊥ none) (declarator base) (j.At ⊥ none) := by
  refine (pointerLevels (.inl rfl) base).bind fun type => .current fun token => ?_
  split
  · refine advance_any.left.bind fun _ => .current fun next => ?_
    split
    · exact (functionDefinition _ type).left.bind fun _ => skipAny _
    · exact (globalVariable _ type).left.bind fun _ => skipAny _
  · exact .fail rfl

theorem declaration : Upholds (j.At ⊥ none) declaration (j.At ⊥ none) := by
  have hnames : ∀ base, Upholds (j.At ⊥ none) (do
      Compile.whileToken (fun token => token ≠ .semicolon ∧ token ≠ .rightBrace)
        (fun _ => Compile.declarator base) ()
      Compile.advance) (j.At ⊥ none) := fun base =>
    (whileToken (fun _ => (declarator base).left) ()).bind fun _ => advance_any
  refine .current fun token => ?_
  split
  · exact enumeration.left.bind fun _ => (Upholds.pure _).bind hnames
  · exact (baseType (.inl rfl)).left.bind hnames

end Upholds

/-! ## Whole sources -/

theorem keepsUp_start (source : List UInt8) (limits : Limits) (out : Sink) :
    KeepsUp source out (start source limits (some out)) ⟨source, 1, 0, out⟩ [] where
  recording := recording_start source limits out
  rows := .nil
  reached := .inr le_rfl
  readable := (reads_start source limits (some out)).readable

theorem KeepsUp.finish (hout : out.capacity = none) (h : KeepsUp source out s l entries) :
    match finish s with
    | .ok p s' => ∃ l' entries', s'.listing = some l' ∧ Records source out l' entries' ∧
        l'.RowsOf entries' p.code
    | .error e _ => e.reason.isCrash = false := by
  obtain ⟨hlt, -⟩ | ⟨more, l', hlists, -, hend⟩ := finish_run hout h.recording
  · exact absurd hlt (Nat.not_lt.mpr h.listed_le)
  · rw [hend]
    split_ifs
    · exact ⟨l', _, rfl, hlists.records h.recording.records, hlists.rowsOf h.rows⟩
    · rfl

theorem declarations_inStep (limits : Limits) (hout : out.capacity = none)
    (hplain : plain (reader source limits).lexemes.1 = true) :
    match declarations (start source limits (some out)) with
    | .ok _ s => ∃ l entries, KeepsUp source out s l entries
    | .error e _ => e.reason.isCrash = false := by
  let j : Job := ⟨source, out, hout⟩
  have hready := ready_start source limits (some out)
  have hfirst := (keepsUp_start source limits out).advance hout
  rw [declarations]
  cases hadv : advance (start source limits (some out)) with
  | error e s =>
    rw [hadv] at hfirst
    rw [bind_of_error hadv]
    exact hfirst
  | ok u s =>
    rw [hadv] at hfirst
    obtain ⟨hahead, -, hkeeps, -⟩ := hfirst
    have hcalm : Calm s none := by
      rcases hahead with ⟨-, rfl⟩ | hahead
      · exact ⟨⟨false, []⟩, hplain⟩
      · exact ⟨⟨false, []⟩, hahead ▸ hplain⟩
    have hat : j.At ⊥ none s := ⟨⟨(hready.proper hadv).closed, hkeeps⟩, hcalm, False.elim⟩
    have hloop : Upholds (j.At ⊥ none) (whileToken (· ≠ .eof) (fun _ => declaration) ())
        (j.At ⊥ none) := .whileToken (fun _ => Upholds.declaration.left) ()
    rw [bind_of_ok hadv]
    have hend := hloop s hat
    split at hend <;> rename_i hrun <;> rw [hrun]
    · exact hend.inStep.2
    · exact hend

/-- A plain source is compiled with a listing that keeps in step to the end. -/
theorem program_plain (limits : Limits) (hout : out.capacity = none)
    (hplain : plain (reader source limits).lexemes.1 = true) :
    match program (start source limits (some out)) with
    | .ok p s => ∃ l entries, s.listing = some l ∧ Records source out l entries ∧
        l.RowsOf entries p.code
    | .error e _ => e.reason.isCrash = false := by
  have hdeclarations := declarations_inStep limits hout hplain
  rw [program_eq]
  cases h : declarations (start source limits (some out)) with
  | error e s =>
    rw [h] at hdeclarations
    rw [bind_of_error h]
    exact hdeclarations
  | ok u s =>
    rw [h] at hdeclarations
    obtain ⟨l, entries, hkeeps⟩ := hdeclarations
    rw [bind_of_ok h]
    exact hkeeps.finish hout

theorem outcome_relist {α : Type} (g : Option Listing → Option Listing)
    (r : EStateM.Result CompileError State α) : outcome (relist g r) = outcome r := by
  cases r <;> rfl

theorem outcome_eq_ok {α : Type} {r : EStateM.Result CompileError State α} {a : α}
    (h : outcome r = .ok a) : ∃ s, r = .ok a s := by
  cases r with
  | ok a' s =>
    cases h
    exact ⟨s, rfl⟩
  | error e s => cases h

end Compile

namespace Program

open Listing

variable (source : List UInt8) (limits : Limits) {out : Sink}

theorem compile_outcome : compile source limits =
    Compile.outcome (Compile.program (Compile.start source limits none)) := by
  rw [compile]
  cases Compile.program (Compile.start source limits none) <;> rfl

theorem compileListed_outcome {l : Listing} (hl :
      (Compile.after Compile.program (Compile.start source limits (some out))).listing = some l) :
    compileListed source limits out =
      (Compile.outcome (Compile.program (Compile.start source limits (some out))), l.out) := by
  rw [compileListed]
  cases h : Compile.program (Compile.start source limits (some out)) with
  | ok p s =>
    rw [Compile.after_of_ok h] at hl
    simp only [hl, Compile.outcome]
  | error e s =>
    rw [Compile.after_of_error h] at hl
    simp only [hl, Compile.outcome]

/-- The entries of a listing, which for a plain source show what the instructions have been. -/
theorem entries_of_plain {l : Listing} {entries : List Entry} (hout : out.capacity = none)
    (hl : (Compile.after Compile.program (Compile.start source limits (some out))).listing = some l)
    (hrecords : Records source out l entries) :
    ∃ entries', Records source out l entries' ∧
      (Lexer.plain (Compile.reader source limits).lexemes.1 = true →
        ∀ p s, Compile.program (Compile.start source limits (some out)) = .ok p s →
          l.RowsOf entries' p.code) := by
  by_cases hplain : Lexer.plain (Compile.reader source limits).lexemes.1 = true
  · have hend := Compile.program_plain limits hout hplain
    cases h : Compile.program (Compile.start source limits (some out)) with
    | error e s => exact ⟨entries, hrecords, fun _ p s hp => by cases hp⟩
    | ok p s =>
      rw [h] at hend
      rw [Compile.after_of_ok h] at hl
      obtain ⟨l', entries', hl', hrecords', hrows⟩ := hend
      obtain rfl : l' = l := Option.some.inj (hl'.symm.trans hl)
      refine ⟨entries', hrecords', fun _ p' s' hp => ?_⟩
      cases hp
      exact hrows
  · exact ⟨entries, hrecords, fun h => absurd h hplain⟩

/-- A listing shows the lines of the source, as far as compiling gets. With a sink that takes
everything, compiling comes to the same end as without a listing and shows as many instructions as
the program has, unless the listing is ahead of the code when a line is due: then it breaks off. In
a plain source it never is, and each row shows what the instruction at its place has been. -/
theorem compileListed_rows (hout : out.capacity = none) :
    ∃ entries, ShowsLines source entries ∧
      (compileListed source limits out).2 = out.write (text entries) ∧
      ((compileListed source limits out).1 = compile source limits ∧
          (∀ p, compile source limits = .ok p → (rows entries).length = p.code.size) ∨
        ∃ line size, size < (rows entries).length ∧ (compileListed source limits out).1 =
          .error ⟨line, .listingAhead (rows entries).length size⟩) ∧
      (Lexer.plain (Compile.reader source limits).lexemes.1 = true →
        (compileListed source limits out).1 = compile source limits ∧
          ∀ p, compile source limits = .ok p →
            List.Forall₂ Revised (rows entries) p.code.toList) := by
  obtain ⟨l, entries₀, hl, hrecords₀, hend⟩ := Compile.program_listed source limits hout
  obtain ⟨entries, hrecords, hplain⟩ := entries_of_plain source limits hout hl hrecords₀
  rw [compileListed_outcome source limits hl, compile_outcome]
  refine ⟨entries, hrecords.lines, hrecords.out_eq, ?_, fun h => ?_⟩
  · rw [← hrecords.listed_eq]
    rcases hend with ⟨line, t, herror, hlt⟩ | ⟨hsame, hlisted⟩
    · exact .inr ⟨line, t.code.size, hlt, by rw [herror]; rfl⟩
    · rw [hsame, Compile.outcome_relist]
      refine .inl ⟨rfl, fun p hp => ?_⟩
      obtain ⟨s, hs⟩ := Compile.outcome_eq_ok hp
      exact hlisted p s hs
  · have hnocrash := Compile.program_plain limits hout h
    rcases hend with ⟨line, t, herror, -⟩ | ⟨hsame, hlisted⟩
    · rw [herror] at hnocrash
      cases hnocrash
    · rw [hsame, Compile.outcome_relist]
      refine ⟨rfl, fun p hp => ?_⟩
      obtain ⟨s, hs⟩ := Compile.outcome_eq_ok hp
      have hrows := hplain h p s hs
      rwa [RowsOf, hlisted p s hs, ← Array.length_toList, List.take_length] at hrows

/-- Addresses of operands in parentheses, with lines that end behind other tokens and other
parentheses. -/
def brokenSource : List UInt8 := Utf8.encode
  "int *y;
int f(int n) \x7b return n; \x7d
int main() \x7b
  int x;
  y = &(x);
  y = &(y[f(0)
    ]);
  return *&(y[0]) +
    (x
    );
\x7d"

theorem compileListed_rows_broken :
    ∃ p entries, compile brokenSource (.ofPoolSize Limits.defaultPoolSize) = .ok p ∧
      compileListed brokenSource (.ofPoolSize Limits.defaultPoolSize) (.empty none) =
        (.ok p, (Sink.empty none).write (text entries)) ∧
      ShowsLines brokenSource entries ∧ List.Forall₂ Revised (rows entries) p.code.toList := by
  have heval : (compile brokenSource (.ofPoolSize Limits.defaultPoolSize)).toOption.isSome = true ∧
      Lexer.plain (Compile.reader brokenSource
        (.ofPoolSize Limits.defaultPoolSize)).lexemes.1 = true := by
    decide +kernel
  obtain ⟨hcompile, hplain⟩ := heval
  obtain ⟨entries, hlines, hout, -, hrows⟩ := compileListed_rows brokenSource
    (.ofPoolSize Limits.defaultPoolSize) (show (Sink.empty none).capacity = none from rfl)
  obtain ⟨hsame, hrows⟩ := hrows hplain
  cases h : compile brokenSource (.ofPoolSize Limits.defaultPoolSize) with
  | error e => simp [h, Except.toOption] at hcompile
  | ok p => exact ⟨p, entries, rfl, Prod.ext (hsame.trans h) hout, hlines, hrows p h⟩

/-- A line that ends behind the operand of `&`. -/
def splitSource : List UInt8 := Utf8.encode "int main() \x7b int x; &(x)\n;\n\x7d"

/-- The program has three instructions, but the listing breaks off: the load of `x` is listed with
the first line and gone when the second one is due. -/
theorem compileListed_split :
    (compile splitSource (.ofPoolSize Limits.defaultPoolSize)).toOption.map (·.code.size) = some 3 ∧
      (compileListed splitSource (.ofPoolSize Limits.defaultPoolSize) (.empty none)).1 =
        .error ⟨2, .listingAhead 3 2⟩ := by
  decide +kernel

end Program

end MiniC
