import MiniC.Proofs.Compiling.Placeholders
import MiniC.Proofs.Syntax.Lexemes

/-!
# What compiling is composed of

Every action of the compiler is composed of the basic ones, from the expectation of a single token
up to all declarations of a source (`Composed.declarations`). It is realized by the plan whose name
it has, and what the plan costs is read off it: a step for each single action, and what a call or a
loop costs in its place. Expressions, statements and all rounds of loops leave something of what
their lexemes pay (`Realizes.expr`, `Realizes.stmt`), at every number of levels, and so do
declarations (`Realizes.declaration`). So none of them can be compiled without moving over a lexeme.
And no branch that one of them emits waits for its target behind it.
-/

namespace MiniC.Compile

namespace Realizes

variable {ids : Set SymbolId} {levels : Nat} {inv : State → Prop} {pre : Token → Prop} {t : Token}
  {sub : Prec → CompileM CType} {body : CompileM Unit}

/-! ## Calls -/

/-- Calls for an expression do what `sub` does, and leave 20 of the steps they are paid. -/
abbrev ExprCalls (levels : Nat) (sub : Prec → CompileM CType) : Prop :=
  ∀ p {ids pre}, Realizes ids levels Inside pre (Plan.expr p) (sub p) anyToken Inside (-20) 8

/-- Calls for a statement do what `body` does, and leave 16 of the steps they are paid. -/
abbrev StmtCalls (levels : Nat) (body : CompileM Unit) : Prop :=
  ∀ {ids pre}, Realizes ids levels Inside pre Plan.stmt body anyToken Inside (-16) 10

/-! ## Types -/

theorem star [AboutCode inv] (type : CType) : Realizes ids levels inv (Loop.stars.more · = true)
    (Loop.stars.body type) (do Compile.advance; return type.pointerTo) anyToken inv (-31) 1 :=
  .mono (by decide)
    (.seq (.move .advance (moves_advance (by simp [Loop.more]))) fun _ => .done _)

theorem pointerLevels [AboutCode inv] (type : CType) : Realizes ids levels inv pre
    (Plan.pointerLevels type) (pointerLevels type) anyToken inv 1 2 :=
  .repeated .stars (by decide) star type

/-! ## Operators behind an operand -/

theorem assignment (hsub : ExprCalls levels sub) (left : CType) : Realizes ids levels Inside pre
    (Plan.assignment left) (assignment sub left) anyToken Inside 4 12 := by
  refine .mono (by decide) (.seq (d := 0) (k := 8) (.act (.still .loadToPush)) fun width => ?_)
  cases width with
  | none => exact .fail _ (by simp)
  | some width =>
    exact .mono (by decide)
      (.seq (hsub _) fun _ => .seq (.emit (by simp [Complete])) fun _ => .done _)

theorem conditional (hsub : ExprCalls levels sub) : Realizes ids levels Inside pre
    Plan.conditional (conditional sub) anyToken Inside 4 12 where
  toPerforms := .mono (by decide) (.seq (.act (.emit (.inl rfl))) fun _ =>
    .seq (hsub _).toPerforms fun _ => .seq (.act (.expect _ _ (by simp))) fun _ =>
      .seq (.act (.emit (.inl rfl))) fun _ => .seq (.act (.patch _)) fun _ =>
        .seq (hsub _).toPerforms fun _ => .seq (.act (.patch _)) fun _ => .done _)
  repays := .conditional

theorem shortCircuit (hsub : ExprCalls levels sub) {condition : Branch} {prec : Prec}
    (h : ∀ {α : Type} (index : Nat) (rest : CType → Plan α), Plan.Skips index condition
      (Plan.shortCircuit condition prec >>= rest) ((do
        patch index
        return .int : Plan CType) >>= rest)) : Realizes ids levels Inside pre
    (Plan.shortCircuit condition prec) (shortCircuit sub condition prec) anyToken Inside 4 12 where
  toPerforms := .mono (by decide) (.seq (.act (.emit (.inl rfl))) fun _ =>
    .seq (hsub _).toPerforms fun _ => .seq (.act (.patch _)) fun _ => .done _)
  repays := .shortCircuit h

theorem complete_addOffset (type : CType) (op : BinOp) : ∀ i ∈ addOffset type op, Complete i := by
  rw [addOffset]
  split_ifs <;> simp [scale, Complete]

theorem addition (hsub : ExprCalls levels sub) (left : CType) : Realizes ids levels Inside pre
    (Plan.addition left) (addition sub left) anyToken Inside 4 12 :=
  .mono (by decide) (.seq (.emit (by simp [Complete])) fun _ => .seq (hsub _) fun _ =>
    .seq (.emitAll (complete_addOffset left .add)) fun _ => .done _)

theorem subtraction (hsub : ExprCalls levels sub) (left : CType) : Realizes ids levels Inside pre
    (Plan.subtraction left) (subtraction sub left) anyToken Inside 4 12 := by
  refine .mono (by decide) (.seq (.emit (by simp [Complete])) fun _ =>
    .seq (d := 1) (k := 1) (hsub _) fun right => ?_)
  split_ifs
  · exact .mono (by decide) (.seq (.emitAll (by simp [scale, Complete])) fun _ => .done _)
  · exact .mono (by decide) (.seq (.emitAll (complete_addOffset left .sub)) fun _ => .done _)

theorem arithmetic (hsub : ExprCalls levels sub) (op : BinOp) : Realizes ids levels Inside pre
    (Plan.arithmetic op) (arithmetic sub op) anyToken Inside 4 12 :=
  .mono (by decide) (.seq (.emit (by simp [Complete])) fun _ => .seq (hsub _) fun _ =>
    .seq (.emit (by simp [Complete])) fun _ => .done _)

theorem postStep (left : CType) (apply undo : BinOp) : Realizes ids levels Inside pre
    (liftM (postStep left apply undo)) (postStep left apply undo) anyToken Inside 4 12 :=
  .mono (by decide) (.act (.still (.postStep left apply undo)))

theorem indexing (hsub : ExprCalls levels sub) (left : CType) : Realizes ids levels Inside pre
    (Plan.indexing left) (indexing sub left) anyToken Inside 4 12 := by
  refine .mono (by decide) (.seq (.emit (by simp [Complete])) fun _ => .seq (hsub _) fun _ =>
    .seq (d := 1) (k := 1) (.quiet (.expect _ _ (by simp))) fun _ => ?_)
  cases left.deref? with
  | none => exact .fail _ (by simp)
  | some element =>
    refine .mono (by decide) (.seq (.emitAll fun i hi => ?_) fun _ => .done _)
    rcases List.mem_append.mp hi with hi | hi
    · exact complete_addOffset left .add i hi
    · simp_all [Complete]

theorem operator (hsub : ExprCalls levels sub) (left : CType) : Realizes ids levels Inside pre
    (Plan.operator left) (operator sub left) anyToken Inside (-26) 3 := by
  refine .mono (by decide) (.current (c := -27) (e := 2) fun token => ?_)
  by_cases hne : token = .eof
  · -- The end is no operator. Nothing is moved over, but the failure may be said to leave anything.
    subst hne
    exact .mono (by decide) (.seq (d := -28) (k := 1) (.quiet .advance) fun _ => .fail _ (by simp))
  · refine .mono (by decide) (.seq (d := 4) (k := 12) (.advance hne) fun _ => ?_)
    cases token with
    | assign => exact .assignment hsub left
    | question => exact .conditional hsub
    | orElse => exact .shortCircuit hsub fun _ rest => .orElse rest
    | andAlso => exact .shortCircuit hsub fun _ rest => .andAlso rest
    | binary op =>
      cases op with
      | add => exact .addition hsub left
      | sub => exact .subtraction hsub left
      | _ => exact .arithmetic hsub _
    | increment => exact .postStep left _ _
    | decrement => exact .postStep left _ _
    | leftBracket => exact .indexing hsub left
    | _ => exact .fail _ (by simp)

/-! ## Operands -/

theorem argument (hsub : ExprCalls levels sub) (count : Nat) : Realizes ids levels Inside
    (Loop.arguments.more · = true) (Loop.arguments.body count) (do
      let _ ← sub .assign
      let _ ← Compile.emit .push
      skipOver .comma
      return count + 1) anyToken Inside (-18) 8 :=
  .mono (by decide) (.seq (hsub _) fun _ => .seq (.emit (by simp [Complete])) fun _ =>
    .seq (.quiet (.skipOver _)) fun _ => .done _)

theorem invoke (hsub : ExprCalls levels sub) {id : SymbolId} (hid : id ∈ ids) :
    Realizes ids levels Inside pre (Plan.invoke id) (call sub id) anyToken Inside 4 12 :=
  .mono (by decide) (.seq (.quiet .advance) fun _ =>
    .seq (.repeated .arguments (by decide) (.argument hsub) 0) fun count =>
      .seq (.quiet .advance) fun _ => .act (.still (.invocation hid count)))

theorem string [AboutCode inv] : Realizes ids levels inv (Loop.strings.more · = true)
    (Loop.strings.body ()) (do
      match ← Compile.current with
      | .string bytes => storeData bytes
      | _ => pure ()
      Compile.advance) anyToken inv (-29) 3 := by
  -- At another token nothing would be left, but there the round does not begin.
  refine .mono (by decide)
    (.looked (c := -30) (e := 2) (fun token => ?_) (fun token htoken => ?_) fun token => ?_)
  · split
    · exact .seq (.storeData _) fun _ => .advance
    · exact .advance
  · cases token with
    | string bytes =>
      exact .mono (by decide) (.seq (.stay (.storeData bytes)) fun _ =>
        .move .advance (moves_advance (by simp)))
    | _ => simp [Loop.more] at htoken
  · cases token with
    | string bytes =>
      exact .seq (.quiet fun h => (storeData_ok h).1.layout_eq) fun _ => .quiet layout_advance
    | _ => exact .quiet layout_advance

theorem stringLiterals {bytes : List UInt8} : Realizes ids levels Inside (· = .string bytes)
    Plan.stringLiterals stringLiterals anyToken Inside (-24) 5 := by
  refine .mono (by decide) (.seq (.stay .dataAddress) fun _ =>
    .seq (.begun .strings (by decide) (fun _ => .string) (fun t ht => ?_) ()) fun _ =>
      .seq (.quiet (.still .alignData)) fun _ => .seq (.emit (by simp [Complete])) fun _ => .done _)
  rw [ht]
  rfl

theorem sizeOf (ht : t ≠ .eof) : Realizes ids levels Inside (· = t) Plan.sizeOf sizeOf anyToken
    Inside (-24) 5 :=
  .mono (by decide) (.seq (.advance ht) fun _ =>
    .seq (.quiet (.expect _ _ (by simp))) fun _ => .seq (.quiet .baseType) fun _ =>
      .seq (.pointerLevels _) fun _ => .seq (.quiet (.expect _ _ (by simp))) fun _ =>
        .seq (.emit (by simp [Complete])) fun _ => .done _)

theorem parenthesised (ht : t ≠ .eof) (hsub : ExprCalls levels sub) : Realizes ids levels Inside
    (· = t) Plan.parenthesised (parenthesised sub) anyToken Inside (-24) 5 := by
  refine .mono (by decide) (.seq (.advance ht) fun _ =>
    .seq (d := 0) (k := 12) (.quiet .baseType?) fun base => ?_)
  cases base with
  | some base =>
    exact .mono (by decide) (.seq (.pointerLevels _) fun _ =>
      .seq (.quiet (.expect _ _ (by simp))) fun _ => .seq (hsub _) fun _ => .done _)
  | none =>
    exact .mono (by decide)
      (.seq (hsub _) fun _ => .seq (.quiet (.expect _ _ (by simp))) fun _ => .done _)

theorem dereference (ht : t ≠ .eof) (hsub : ExprCalls levels sub) : Realizes ids levels Inside
    (· = t) Plan.dereference (dereference sub) anyToken Inside (-24) 5 := by
  refine .mono (by decide) (.seq (.advance ht) fun _ =>
    .seq (d := 1) (k := 1) (hsub _) fun type => ?_)
  cases type.deref? with
  | none => exact .fail _ (by simp)
  | some target =>
    exact .mono (by decide) (.seq (.emit (by simp [Complete])) fun _ => .done _)

theorem addressOf (ht : t ≠ .eof) (hsub : ExprCalls levels sub) : Realizes ids levels Inside
    (· = t) Plan.addressOf (addressOf sub) anyToken Inside (-24) 5 := by
  refine .mono (by decide) (.seq (.advance ht) fun _ => .seq (hsub _) fun type =>
    .seq (d := 0) (k := 1) (.act (.still (.basic (.dropLoad rfl)))) fun dropped => ?_)
  split_ifs
  · exact .mono (by decide) (.done _)
  · exact .fail _ (by simp)

theorem withConstant (ht : t ≠ .eof) (hsub : ExprCalls levels sub) (op : BinOp) (constant : Word) :
    Realizes ids levels Inside (· = t) (Plan.withConstant op constant)
      (withConstant sub op constant) anyToken Inside (-24) 5 :=
  .mono (by decide) (.seq (.advance ht) fun _ => .seq (hsub _) fun _ =>
    .seq (.emitAll (by simp [Complete])) fun _ => .done _)

theorem negation (ht : t ≠ .eof) (hsub : ExprCalls levels sub) : Realizes ids levels Inside
    (· = t) Plan.negation (negation sub) anyToken Inside (-24) 5 := by
  have hother : ∀ {ids pre}, Realizes ids levels Inside pre (do
      Compile.emitAll [.imm (-1), .push]
      let _ ← Plan.expr .primary
      let _ ← Compile.emit (.binary .mul)
      return CType.int : Plan CType) (do
      Compile.emitAll [.imm (-1), .push]
      let _ ← sub .primary
      let _ ← Compile.emit (.binary .mul)
      return CType.int) anyToken Inside 2 12 :=
    .mono (by decide) (.seq (.emitAll (by simp [Complete])) fun _ => .seq (hsub _) fun _ =>
      .seq (.emit (by simp [Complete])) fun _ => .done _)
  refine .mono (by decide) (.seq (.advance ht) fun _ =>
    .current (c := 2) (e := 12) fun token => ?_)
  cases token with
  | number m =>
    exact .mono (by decide) (.seq (.emit (by simp [Complete])) fun _ =>
      .seq (.quiet .advance) fun _ => .done _)
  | _ => exact hother

theorem preStep (ht : t ≠ .eof) (hsub : ExprCalls levels sub) (op : BinOp) : Realizes ids levels
    Inside (· = t) (Plan.preStep op) (preStep sub op) anyToken Inside (-24) 5 := by
  refine .mono (by decide) (.seq (.advance ht) fun _ => .seq (hsub _) fun type =>
    .seq (d := 1) (k := 1) (.act (.still .loadToPush)) fun width => ?_)
  cases width with
  | none => exact .fail _ (by simp)
  | some width =>
    exact .mono (by decide) (.seq (.emitAll (by simp [stepBy, Complete])) fun _ => .done _)

theorem unary (hsub : ExprCalls levels sub) : Realizes ids levels Inside pre Plan.unary (unary sub)
    anyToken Inside (-23) 6 := by
  refine .mono (by decide) (.current (c := -24) (e := 5) fun token => ?_)
  cases token with
  | number m =>
    exact .mono (by decide)
      (.seq (.advance (by simp)) fun _ => .seq (.emit (by simp [Complete])) fun _ => .done _)
  | string bytes => exact .stringLiterals
  | keyword k =>
    cases k with
    | sizeofKw => exact .sizeOf (by simp)
    | _ => exact .fail _ (by simp)
  | ident id =>
    refine .mono (by decide) (.seq (.advance (by simp)) fun _ =>
      .current (c := 4) (e := 12) fun next => ?_)
    have hid : id ∈ ids ∪ (Token.ident id).names ∪ next.names := .inl (.inr (Token.mem_names id))
    split_ifs
    · exact .invoke hsub hid
    · exact .mono (by decide) (.act (.still (.variableUse hid)))
  | leftParen => exact .parenthesised (by simp) hsub
  | bang => exact .withConstant (by simp) hsub _ _
  | tilde => exact .withConstant (by simp) hsub _ _
  | increment => exact .preStep (by simp) hsub _
  | decrement => exact .preStep (by simp) hsub _
  | binary op =>
    cases op with
    | mul => exact .dereference (by simp) hsub
    | and => exact .addressOf (by simp) hsub
    | add =>
      exact .mono (by decide)
        (.seq (.advance (by simp)) fun _ => .seq (hsub _) fun _ => .done _)
    | sub => exact .negation (by simp) hsub
    | _ => exact .fail _ (by simp)
  | _ => exact .fail _ (by simp)

theorem exprBody (hsub : ExprCalls levels sub) (prec : Prec) : Realizes ids levels Inside pre
    (Procedure.expr prec).body (do
      whileToken (Loop.operators prec).more (Compile.operator sub) (← Compile.unary sub)) anyToken
      Inside (-22) 6 :=
  .mono (by decide) (.seq (.unary hsub) fun type =>
    .repeated (.operators prec) (by decide) (.operator hsub) type)

theorem expr (levels : Nat) : ExprCalls levels (expr levels) := by
  induction levels with
  | zero => exact fun prec _ _ => ⟨.mono ⟨le_rfl, by decide⟩ .too_deep, .expr prec⟩
  | succ levels ih =>
    exact fun prec _ _ => ⟨.mono (by decide) (.nested (exprBody ih prec).toPerforms), .expr prec⟩

/-! ## Statements -/

theorem condition (hsub : ExprCalls levels sub) : Realizes ids levels Inside pre Plan.condition
    (condition sub) anyToken Inside (-18) 9 :=
  .mono (by decide) (.seq (.quiet (.expect _ _ (by simp))) fun _ => .seq (hsub _) fun _ =>
    .quiet (.expect _ _ (by simp)))

theorem repays_condition (hsub : ExprCalls levels sub) : Repays Inside Plan.condition Inside :=
  (condition hsub : Realizes ∅ levels Inside anyToken Plan.condition _ anyToken Inside _ _).repays

theorem inner (hbody : StmtCalls levels body) : Realizes ids levels Inside
    (Loop.statements.more · = true) (Loop.statements.body ()) (do
      if (← Compile.current) = .eof then Compile.fail .unexpectedEof
      body) anyToken Inside (-15) 11 := by
  refine .mono (by decide) (.current (c := -16) (e := 10) fun token => ?_)
  split_ifs
  · exact .fail_seq _ (by simp)
  · exact hbody

theorem statements (hbody : StmtCalls levels body) : Realizes ids levels Inside pre
    (Plan.repeated .statements ()) (statements body) anyToken Inside 1 12 :=
  .repeated .statements (by decide) (fun _ => .inner hbody) ()

theorem ifStmt (ht : t ≠ .eof) (hsub : ExprCalls levels sub) (hbody : StmtCalls levels body) :
    Realizes ids levels Inside (· = t) Plan.ifStmt (ifStmt sub body) anyToken Inside (-19) 8 where
  toPerforms := by
    refine .mono (by decide) (.seq (.move .advance (moves_advance ht.symm)) fun _ =>
      .seq (condition hsub).toPerforms fun _ => .seq (.act (.emit (.inl rfl))) fun _ =>
        .seq hbody.toPerforms fun _ => .current (c := 4) (e := 14) fun token => ?_)
    split_ifs
    · exact .mono (by decide) (.seq (.act (.emit (.inl rfl))) fun _ =>
        .seq (.act (.patch _)) fun _ => .seq (.act .advance) fun _ => .seq hbody.toPerforms fun _ =>
          .act (.patch _))
    · exact .mono (by decide) (.act (.patch _))
  repays := .ifStmt (repays_condition hsub)

theorem whileStmt (ht : t ≠ .eof) (hsub : ExprCalls levels sub) (hbody : StmtCalls levels body) :
    Realizes ids levels Inside (· = t) Plan.whileStmt (whileStmt sub body) anyToken Inside (-19)
      8 where
  toPerforms := .mono (by decide) (.seq (.move .advance (moves_advance ht.symm)) fun _ =>
    .seq (.act (.still .here)) fun _ => .seq (condition hsub).toPerforms fun _ =>
      .seq (.act (.emit (.inl rfl))) fun _ => .seq hbody.toPerforms fun _ =>
        .seq (.act (.emit (.inl rfl))) fun _ => .act (.patch _))
  repays := .whileStmt (repays_condition hsub)

theorem returnStmt (ht : t ≠ .eof) (hsub : ExprCalls levels sub) : Realizes ids levels Inside
    (· = t) Plan.returnStmt (returnStmt sub) anyToken Inside (-19) 8 := by
  refine .mono (by decide) (.seq (.advance ht) fun _ =>
    .current (c := 2) (e := 8) fun token => ?_)
  split_ifs
  · exact .mono (by decide) (.seq (hsub _) fun _ => .seq (.emit (by simp [Complete])) fun _ =>
      .quiet .semicolon)
  · exact .mono (by decide) (.seq (.emit (by simp [Complete])) fun _ => .quiet .semicolon)

theorem statement (hsub : ExprCalls levels sub) (hbody : StmtCalls levels body) : Realizes ids
    levels Inside pre Plan.statement (statement sub body) anyToken Inside (-18) 9 := by
  refine .mono (by decide) (.current (c := -19) (e := 8) fun token => ?_)
  have hexpr : ∀ {ids}, Realizes ids levels Inside (· = token) (do
      let _ ← Plan.expr .assign
      semicolon : Plan Unit) (do
      let _ ← sub .assign
      semicolon) anyToken Inside (-19) 8 :=
    .mono (by decide) (.seq (hsub _) fun _ => .quiet .semicolon)
  cases token with
  | keyword k =>
    cases k with
    | ifKw => exact .ifStmt (by simp) hsub hbody
    | whileKw => exact .whileStmt (by simp) hsub hbody
    | returnKw => exact .returnStmt (by simp) hsub
    | _ => exact hexpr
  | leftBrace =>
    exact .mono (by decide) (.seq (.advance (by simp)) fun _ =>
      .seq (.statements hbody) fun _ => .quiet .advance)
  | semicolon => exact .mono (by decide) (.advance (by simp))
  | _ => exact hexpr

theorem stmt (levels : Nat) : StmtCalls levels (stmt levels) := by
  induction levels with
  | zero => exact ⟨.mono ⟨le_rfl, by decide⟩ .too_deep, .stmt⟩
  | succ levels ih =>
    exact ⟨.mono (by decide) (.nested (statement (.expr levels) ih).toPerforms), .stmt⟩

/-! ## Declarations -/

section Quiet

variable [AboutCode inv]

theorem enumerator (next : Word) : Realizes ids levels inv pre (Plan.enumerator next)
    (enumerator next) anyToken inv (-22) 3 := by
  refine .mono (by decide) (.current (c := -23) (e := 2) fun token => ?_)
  cases token with
  | ident id =>
    have hdefine : ∀ {ids : Set SymbolId}, id ∈ ids → ∀ value {pre}, Realizes ids levels inv pre (do
        defineGlobal id ⟨.constant, .int, value⟩
        skipOver .comma
        return value + 1 : Plan Word) (do
        defineGlobal id ⟨.constant, .int, value⟩
        skipOver .comma
        return value + 1) anyToken inv 2 2 := fun hid value _ =>
      .mono (by decide) (.seq (.quiet (.still (.basic (.defineGlobal hid (by simp))))) fun _ =>
        .seq (.quiet (.skipOver _)) fun _ => .done _)
    have hid : id ∈ ids ∪ (Token.ident id).names := .inr (Token.mem_names id)
    refine .mono (by decide) (.seq (.advance (by simp)) fun _ =>
      .current (c := 6) (e := 8) fun token => ?_)
    split_ifs
    · refine .mono (by decide) (.seq (.quiet .advance) fun _ =>
        .current (c := 4) (e := 6) fun token => ?_)
      cases token with
      | number m =>
        exact .mono (by decide) (.seq (.quiet .advance) fun _ =>
          .seq (.done _) fun value => hdefine (.inl (.inl hid)) value)
      | _ => exact .fail_seq _ (by simp)
    · exact .mono (by decide) (.seq (.done _) fun value => hdefine (.inl hid) value)
  | _ => exact .fail _ (by simp)

theorem enumeration (ht : t ≠ .eof) : Realizes ids levels inv (· = t) Plan.enumeration enumeration
    anyToken inv (-24) 5 := by
  have hbraces : ∀ {ids pre}, Realizes ids levels inv pre (do
      if (← Compile.current) = .leftBrace then
        Compile.advance
        let _ ← Plan.repeated .enumerators 0
        Compile.advance : Plan Unit) (do
      if (← Compile.current) = .leftBrace then
        Compile.advance
        let _ ← whileToken (· ≠ .rightBrace) Compile.enumerator 0
        Compile.advance) anyToken inv 4 10 := by
    intro ids pre
    refine .mono (by decide) (.current (c := 3) (e := 9) fun token => ?_)
    split_ifs
    · exact .mono (by decide) (.seq (.quiet .advance) fun _ =>
        .seq (.repeated .enumerators (by decide) enumerator 0) fun _ => .quiet .advance)
    · exact .mono (by decide) (.done _)
  refine .mono (by decide) (.seq (.advance ht) fun _ =>
    .current (c := 5) (e := 12) fun token => ?_)
  split_ifs
  · exact .mono (by decide) (.seq (.quiet .advance) fun _ => hbraces)
  · exact .mono (by decide) hbraces

/-- A parameter or a local variable behind its base type. -/
theorem namedVariable (base : CType) (slot next : Word) {duplicate : String → Reason}
    {reason : Reason} (hduplicate : ∀ name, duplicate name ≠ .mainNotDefined)
    (hreason : reason ≠ .mainNotDefined) : Realizes ids levels inv pre (do
      let type ← Plan.pointerLevels base
      match ← Compile.current with
      | .ident id => do
        declare id type slot duplicate
        Compile.advance
        skipOver .comma
        return next
      | _ => Compile.fail reason : Plan Word) (do
      let type ← Compile.pointerLevels base
      match ← Compile.current with
      | .ident id => do
        declare id type slot duplicate
        Compile.advance
        skipOver .comma
        return next
      | _ => Compile.fail reason) anyToken inv (-27) 5 := by
  refine .mono (by decide) (.seq (.pointerLevels base) fun type =>
    .current (c := -29) (e := 2) fun token => ?_)
  cases token with
  | ident id =>
    exact .mono (by decide)
      (.seq (.stay (.basic (.declare (.inr (Token.mem_names id)) _ _ hduplicate))) fun _ =>
        .seq (.advance (by simp)) fun _ => .seq (.quiet (.skipOver _)) fun _ => .done _)
  | _ => exact .fail _ hreason

theorem parameter (slot : Word) : Realizes ids levels inv pre (Plan.parameter slot)
    (parameter slot) anyToken inv (-26) 6 :=
  .mono (by decide)
    (.seq (.quiet .baseType) fun base => .namedVariable base slot (slot + 1) (by simp) (by simp))

theorem localVariable (base : CType) (slot : Word) : Realizes ids levels inv pre
    (Plan.localVariable base slot) (localVariable base slot) anyToken inv (-27) 5 :=
  .namedVariable base (slot + 1) (slot + 1) (by simp) (by simp)

theorem localLine (slot : Word) : Realizes ids levels inv (Loop.localLines.more · = true)
    (Loop.localLines.body slot) (do
      let base ← baseType
      let slot ← whileToken (· ≠ .semicolon) (Compile.localVariable base) slot
      Compile.advance
      return slot) anyToken inv (-29) 7 := by
  have hmoves : Moves (Loop.localLines.more · = true) baseType := fun _ _ _ hs ht =>
    moves_baseType hs (by simpa [Loop.more] using ht)
  exact .mono (by decide) (.seq (.move .baseType hmoves) fun base =>
    .seq (.repeated (.locals base) (by decide) (localVariable base) slot) fun _ =>
      .seq (.quiet .advance) fun _ => .done _)

end Quiet

theorem functionDefinition {id : SymbolId} (hid : id ∈ ids) (type : CType) :
    Realizes ids maxNesting Headed pre (Plan.functionDefinition id type)
      (functionDefinition id type) anyToken Headed 14 26 := by
  refine .mono (by decide) (.seq (.quiet (.still .here)) fun start =>
    .seq (.quiet (.still (.basic (.defineFunction hid (by simp))))) fun _ =>
      .seq (.quiet .advance) fun _ => .seq (.quiet (.still (.basic .openScope))) fun _ =>
        .seq (.repeated .parameters (by decide) parameter 0) fun slot =>
          .seq (.quiet .advance) fun _ => .current (c := 7) (e := 18) fun token => ?_)
  split_ifs
  · exact .fail_seq _ (by simp)
  · exact .mono (by decide) (.seq (.quiet (.still (.basic (.setFrame _)))) fun _ =>
      .seq (.quiet .advance) fun _ => .seq (.repeated .localLines (by decide) localLine _) fun _ =>
        .seq (.enter _) fun _ => .headed (.seq (.statements (.stmt maxNesting)) fun _ =>
          .seq (.emit (by simp [Complete])) fun _ => .quiet (.still (.basic .closeScope))))

theorem declarator (base : CType) : Realizes ids maxNesting Headed pre (Plan.declarator base)
    (declarator base) anyToken Headed (-13) 4 := by
  refine .mono (by decide) (.seq (.pointerLevels base) fun type =>
    .current (c := -15) (e := 2) fun token => ?_)
  cases token with
  | ident id =>
    refine .mono (by decide) (.seq (.advance (by simp)) fun _ =>
      .current (c := 15) (e := 28) fun next => ?_)
    have hid : id ∈ ids ∪ (Token.ident id).names ∪ next.names := .inl (.inr (Token.mem_names id))
    split_ifs
    · exact .mono (by decide) (.seq (.functionDefinition hid type) fun _ => .quiet (.skipOver _))
    · exact .mono (by decide) (.seq (.quiet (.still (.globalVariable hid type))) fun _ =>
        .quiet (.skipOver _))
  | _ => exact .fail _ (by simp)

/-- The names of a declaration, up to the token that ends it. -/
theorem declarators (base : CType) : Realizes ids maxNesting Headed pre (do
    Plan.repeated (.declarators base) ()
    Compile.advance : Plan Unit) (do
    whileToken (fun token => token ≠ .semicolon ∧ token ≠ .rightBrace)
      (fun _ => Compile.declarator base) ()
    Compile.advance) anyToken Headed (-30) 5 :=
  .mono (by decide)
    (.seq (.upTo (.declarators base) (by decide) (fun _ => .declarator base) ()) fun _ =>
      .move .advance (moves_advance (by simp [Loop.more])))

theorem declaration : Realizes ids maxNesting Headed pre Plan.declaration declaration anyToken
    Headed (-28) 8 := by
  refine .mono (by decide) (.current (c := -29) (e := 7) fun token => ?_)
  split_ifs with henum
  · exact .mono (by decide) (.seq (.enumeration (by simp [henum])) fun _ =>
      .seq (.done _) fun base => .declarators base)
  · exact .mono (by decide) (.seq (.quiet .baseType) fun base => .declarators base)

end Realizes

/-! ## Promises kept -/

/-- What a procedure does is what calls rely on. -/
theorem Procedure.repays_body {β : Type} (p : Procedure β) : Repays Inside p.body Inside := by
  have hbody : ∀ {x : CompileM β} {c e}, Realizes ∅ 0 Inside anyToken p.body x anyToken Inside c e →
      Repays Inside p.body Inside := (·.repays)
  cases p with
  | expr prec => exact hbody (.exprBody (.expr 0) prec)
  | stmt => exact hbody (.statement (.expr 0) (.stmt 0))

theorem Loop.Keeps.repays_body {β : Type} {inv : State → Prop} {l : Loop β} (hl : l.Keeps inv)
    (b : β) : Repays inv (l.body b) inv := by
  have hround : ∀ {x : CompileM β} {c e}, Realizes ∅ maxNesting inv (l.more · = true) (l.body b) x
      anyToken inv c e → Repays inv (l.body b) inv := (·.repays)
  cases hl with
  | stars => exact hround (.star b)
  | strings => exact hround .string
  | arguments => exact hround (.argument (.expr maxNesting) b)
  | operators => exact hround (.operator (.expr maxNesting) b)
  | statements => exact hround (.inner (.stmt maxNesting))
  | enumerators => exact hround (.enumerator b)
  | parameters => exact hround (.parameter b)
  | locals base => exact hround (.localVariable base b)
  | localLines => exact hround (.localLine b)
  | declarators base => exact hround (.declarator base)
  | declarations => exact hround .declaration

theorem Repays.program : Repays Headed Plan.program Headed :=
  .seq (.quiet layout_advance) fun _ => .seq (.repeated .declarations ()) fun _ =>
    .quiet finish_layout

/-! ## Moving on -/

theorem Advances.expr (levels : Nat) (prec : Prec) : Advances ∅ (expr levels prec) :=
  (Realizes.expr levels prec).advances (by decide)

theorem Advances.declarator (base : CType) : Advances ∅ (declarator base) :=
  (Realizes.declarator base).advances (by decide)

theorem Advances.declarators (base : CType) : Advances ∅ (do
    whileToken (fun token => token ≠ .semicolon ∧ token ≠ .rightBrace)
      (fun _ => Compile.declarator base) ()
    advance) :=
  (Realizes.declarators base).advances (by decide)

theorem Composed.pointerLevels (type : CType) : Composed .all ∅ (pointerLevels type) := by
  have h : Realizes ∅ 0 Headed anyToken (Plan.pointerLevels type) (Compile.pointerLevels type)
      anyToken Headed 1 2 := .pointerLevels type
  exact h.composed

theorem Composed.enumeration : Composed .all ∅ enumeration := by
  have h : Realizes ∅ 0 Headed (· = .keyword .enumKw) Plan.enumeration Compile.enumeration anyToken
      Headed (-24) 5 := .enumeration (by simp)
  exact h.composed

theorem Advances.declaration : Advances ∅ declaration :=
  Realizes.declaration.advances (by decide)

/-! ## Sources -/

/-- The declarations of a source, up to its end. -/
def declarations : CompileM Unit := do
  advance
  whileToken (· ≠ .eof) (fun _ => declaration) ()

theorem program_eq : program = declarations >>= fun _ => finish := by
  rw [program, declarations, bind_assoc]
  rfl

theorem Composed.declarations :
    Composed .all ∅ (Compile.whileToken (· ≠ .eof) (fun _ => declaration) ()) :=
  .rounds (fun _ => .declaration) ()

theorem composed_declarations : Composed .all ∅ declarations := .seq .advance fun _ => .declarations

variable {s s' : State} {n : Nat}

/-- Declarations go on up to the end of the source. -/
theorem declarations_stop {u : Unit} (hs : Closed s)
    (h : whileToken (· ≠ .eof) (fun _ => declaration) () s = .ok u s') : s'.current = .eof := by
  simpa using Composed.not_more (fun _ => Advances.declaration.composed)
    (fun _ _ _ _ hs _ h => Advances.declaration.left_lt hs h) hs h

theorem steps_finish (s : State) : Steps s (after finish s) := by
  rw [finish, after_get_bind]
  refine path_bind (path_listBefore _ s) fun _ s' _ => ?_
  split
  · exact .refl
  · exact .refl

theorem finish_apply (h : s.listing = none) :
    finish s = if (s.symbols.binding SymbolTable.entry).kind = .function then
      .ok ⟨s.code, s.data, s.symbols⟩ s
    else .error ⟨s.line, .mainNotDefined⟩ s := by
  rw [finish, get_bind, bind_of_ok (listBefore_of_none h)]
  split <;> rfl

/-- A program is made of the three regions as they are in the end. -/
theorem finish_ok {p : Program} (h : finish s = .ok p s') : p = ⟨s'.code, s'.data, s'.symbols⟩ := by
  rw [finish] at h
  obtain ⟨_, _, hget, h⟩ := bind_eq_ok.mp h
  obtain ⟨rfl, rfl⟩ := get_eq_ok.mp hget
  obtain ⟨_, s₁, hlist, h⟩ := bind_eq_ok.mp h
  obtain ⟨hg, -⟩ := listBefore_ok hlist
  split at h
  · obtain ⟨rfl, rfl⟩ := pure_eq_ok.mp h
    have hcode : s₁.code = s.code := Array.toList_inj.mp (by simpa using hg.code_eq)
    have hdata : s₁.data = s.data := Array.toList_inj.mp (by simpa using hg.data_eq)
    rw [hcode, hdata, hg.symbols_eq]
  · exact absurd h fail_ne_ok

/-- A state before its first token: all lexemes are still to come. -/
structure Ready (n : Nat) (s : State) : Prop where
  terminated : Terminated s.rest.items
  rest_known : ∀ l ∈ s.rest.items, ∀ token, l.token = .ok token → Known n token

theorem Ready.proper {u : Unit} (hs : Ready n s) (h : advance s = .ok u s') : Proper n s' := by
  obtain ⟨lexeme, items, hitems⟩ : ∃ lexeme items, s.rest.items = lexeme :: items := by
    obtain ⟨front, line, hfront, -⟩ := hs.terminated
    cases front <;> exact ⟨_, _, hfront⟩
  simp only [advance_apply, hitems] at h
  cases htoken : lexeme.token with
  | error reason => simp [htoken] at h
  | ok token =>
    simp only [htoken] at h
    have hsteps : Steps _ _ := path_listBefore lexeme.line
      { s with current := token, line := lexeme.line, rest := .ofList items }
    rw [after_of_ok h] at hsteps
    refine hsteps.proper ⟨Terminated.move (hitems ▸ hs.terminated) htoken, ?_, fun l hl => ?_⟩
    · exact hs.rest_known lexeme (hitems ▸ List.mem_cons_self) token htoken
    · exact hs.rest_known l (hitems ▸ List.mem_cons_of_mem _ hl)

theorem steps_declarations (s : State) : Steps s (after declarations s) :=
  composed_declarations.steps s

/-- Declarations that compile end where the source ends, and all lexemes of it are tokens. -/
theorem Ready.declarations_ok {u : Unit} (hs : Ready n s) (h : declarations s = .ok u s') :
    s'.rest.items = [] ∧ ∀ l ∈ s.rest.items, ∃ token, l.token = .ok token := by
  obtain ⟨_, s₁, hadv, hloop⟩ := bind_eq_ok.mp h
  have hclosed := (hs.proper hadv).closed
  have heof : s'.current = .eof := declarations_stop hclosed hloop
  have hnil : s'.rest.items = [] :=
    ((Composed.declarations.steps_ok hloop).closed hclosed).elim (·.2) fun hne =>
      absurd heof hne.1
  have hall := steps_declarations s
  rw [after_of_ok h] at hall
  obtain ⟨front, hfront, hread⟩ := hall.read
  rw [hnil, List.append_nil] at hfront
  exact ⟨hnil, hfront ▸ hread⟩

/-- Compiling a source makes no changes other than steps. -/
theorem steps_program (s : State) : Steps s (after program s) := by
  rw [program_eq]
  exact path_bind (steps_declarations s) fun _ s' _ => steps_finish s'

section Start

variable (source : List UInt8) (limits : Limits) (listing : Option Sink)

/-- The lexer at the beginning of a source. -/
def reader : Lexer := Lexer.ofSource source (SymbolTable.builtin limits.symbols.toNat)

theorem fresh_reader : (reader source limits).symbols.Fresh := SymbolTable.fresh_builtin _

theorem bounded_reader : Lexer.Bounded limits.symbols.toNat (reader source limits).symbols :=
  Lexer.bounded_builtin _

theorem reads_start : (reader source limits).Reads (start source limits listing).rest.items
    (start source limits listing).symbols :=
  Lexer.reads_lexemes _

theorem ready_start : Ready (start source limits listing).symbols.size
    (start source limits listing) :=
  ⟨(reads_start source limits listing).terminated,
    (reads_start source limits listing).known (fresh_reader source limits)⟩

theorem compile_eq : Program.compile source limits =
    match declarations (start source limits none) with
    | .error e _ => .error e
    | .ok _ s =>
      if (s.symbols.binding SymbolTable.entry).kind = .function then
        .ok ⟨s.code, s.data, s.symbols⟩
      else .error ⟨s.line, .mainNotDefined⟩ := by
  rw [Program.compile, program_eq]
  cases h : declarations (start source limits none) with
  | error e s => rw [bind_of_error h]
  | ok u s =>
    have hsteps := steps_declarations (start source limits none)
    rw [after_of_ok h] at hsteps
    rw [bind_of_ok h, finish_apply (hsteps.keep Step.unlisted rfl)]
    dsimp only
    split_ifs <;> rfl

end Start

end MiniC.Compile
