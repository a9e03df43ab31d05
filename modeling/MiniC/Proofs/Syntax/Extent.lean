import MiniC.Proofs.Syntax.Lexemes

/-!
# How many names a source declares

Every name that is declared is a token of its own, so a tree declares no more names than its source
has bytes (`declared_le`). The parsers are followed with a weight: one that `Spends` reads a token
for each unit by which the weight of its result grows. For most of them the weight does not change,
which says that they never move back (`Forward`).
-/

namespace MiniC

namespace Syntax

/-- The tokens up to the end of the source. -/
def Stream.tokens (st : Stream) : List (Except Reason Token) :=
  .ok st.current :: st.rest.map Lexeme.token

/-- A stream that ends as a source does. -/
def Stream.Closed (st : Stream) : Prop := st.tokens.getLast? = some (.ok .eof)

/-- Before the end of a source there is a token to move to. -/
theorem Stream.Closed.rest_ne_nil {st : Stream} (h : st.Closed) (hne : st.current ≠ .eof) :
    st.rest ≠ [] := by
  intro hrest
  simp [Closed, tokens, hrest, hne] at h

namespace Parser

variable {α β : Type} {x : Parser α} {f : α → Parser β} {k : Nat} {w : α → Nat} {v : β → Nat}

/-- A parser that turns the weight `k` into that of its result and pays for what is added with
tokens. -/
def Spends (x : Parser α) (k : Nat) (w : α → Nat) : Prop :=
  ∀ st a st', st.Closed → x st = some (a, st') →
    st'.Closed ∧ w a + st'.rest.length ≤ k + st.rest.length

/-- A parser that does not move back. -/
def Forward (x : Parser α) : Prop := ∀ k, Spends x k fun _ => k

namespace Spends

theorem bind (hx : Spends x k w) (hf : ∀ a, Spends (f a) (w a) v) : Spends (x >>= f) k v := by
  intro st b st' hclosed h
  rw [bind_apply, Option.bind_eq_some_iff] at h
  obtain ⟨⟨a, st₁⟩, hfirst, hrest⟩ := h
  obtain ⟨hclosed₁, hle₁⟩ := hx st a st₁ hclosed hfirst
  obtain ⟨hclosed', hle⟩ := hf a st₁ b st' hclosed₁ hrest
  exact ⟨hclosed', by omega⟩

theorem pure {a : α} (h : w a ≤ k) : Spends (Pure.pure a) k w := by
  intro st a' st' hclosed h'
  rw [pure_apply] at h'
  cases h'
  exact ⟨hclosed, by omega⟩

theorem failure : Spends (Alternative.failure : Parser α) k w := by
  intro st a st' _ h
  cases h

theorem current : Spends Parser.current k fun _ => k := by
  intro st a st' hclosed h
  cases h
  exact ⟨hclosed, le_rfl⟩

theorem advance : Spends Parser.advance k fun _ => k := by
  intro st a st' hclosed h
  rw [Parser.advance] at h
  cases hrest : st.rest with
  | nil =>
    rw [hrest] at h
    cases h
    exact ⟨hclosed, by rw [hrest]⟩
  | cons lexeme rest =>
    cases htoken : lexeme.token with
    | error reason => simp [hrest, htoken] at h
    | ok token =>
      simp only [hrest, htoken] at h
      cases h
      rw [Stream.Closed, Stream.tokens, hrest, List.map_cons, htoken, List.getLast?_cons_cons]
        at hclosed
      exact ⟨hclosed, Nat.add_le_add_left (by simp) k⟩

/-- Where there is a token to move to, moving to it pays for one unit. -/
theorem advance_pays {st st' : Stream} {u : Unit} (hclosed : st.Closed) (hne : st.rest ≠ [])
    (h : Parser.advance st = some (u, st')) :
    st'.Closed ∧ st'.rest.length + 1 ≤ st.rest.length := by
  refine ⟨(advance (k := 0) st u st' hclosed h).1, ?_⟩
  rw [Parser.advance] at h
  cases hrest : st.rest with
  | nil => exact absurd hrest hne
  | cons lexeme rest =>
    cases htoken : lexeme.token with
    | error reason => simp [hrest, htoken] at h
    | ok token =>
      simp only [hrest, htoken] at h
      cases h
      exact le_rfl

theorem loop {body : α → Parser α} (hbody : ∀ a, Spends (body a) (w a) w) (more : Token → Bool)
    (fuel : Nat) (a : α) : Spends (Parser.loop more body fuel a) (w a) w := by
  induction fuel generalizing a with
  | zero => exact .pure le_rfl
  | succ fuel ih =>
    refine .bind .current fun token => ?_
    split
    · exact .bind (hbody a) ih
    · exact .pure le_rfl

theorem whileToken {body : α → Parser α} (hbody : ∀ a, Spends (body a) (w a) w)
    (more : Token → Bool) (a : α) : Spends (Parser.whileToken more body a) (w a) w :=
  fun st => loop hbody more _ a st

theorem collect (hx : ∀ k, Spends x k fun a => k + w a) (more : Token → Bool) :
    Spends (Parser.collect more x) k fun read => k + (read.map w).sum := by
  refine whileToken (w := fun read : List α => k + (read.map w).sum) (fun read => ?_) more []
  refine .bind (hx _) fun a => .pure ?_
  simp [Nat.add_assoc]

end Spends

namespace Forward

theorem bind (hx : Forward x) (hf : ∀ a, Forward (f a)) : Forward (x >>= f) :=
  fun k => .bind (hx k) fun a => hf a k

theorem pure (a : α) : Forward (Pure.pure a) := fun _ => .pure le_rfl

theorem failure : Forward (Alternative.failure : Parser α) := fun _ => .failure

theorem current : Forward Parser.current := fun _ => .current

theorem advance : Forward Parser.advance := fun _ => .advance

theorem whileToken {body : α → Parser α} (hbody : ∀ a, Forward (body a)) (more : Token → Bool)
    (a : α) : Forward (Parser.whileToken more body a) :=
  fun k => .whileToken (fun a => hbody a k) more a

theorem collect (hx : Forward x) (more : Token → Bool) : Forward (Parser.collect more x) :=
  whileToken (fun _ => .bind hx fun _ => .pure _) more []

theorem expect (token : Token) : Forward (Parser.expect token) := by
  refine .bind .current fun t => ?_
  split
  · exact .advance
  · exact .failure

theorem skipOver (token : Token) : Forward (Parser.skipOver token) := by
  refine .bind .current fun t => ?_
  split
  · exact .advance
  · exact .pure _

/-! ## Types and expressions -/

theorem baseType? : Forward Parser.baseType? := by
  refine .bind .current fun token => ?_
  split
  · exact .bind .advance fun _ => .pure _
  · exact .bind .advance fun _ => .pure _
  · exact .pure _

theorem baseType : Forward Parser.baseType := .bind .baseType? fun _ => .pure _

theorem pointerLevels (type : CType) : Forward (Parser.pointerLevels type) :=
  .whileToken (fun _ => .bind .advance fun _ => .pure _) _ _

variable {sub : Prec → Parser Expr}

theorem operator (hsub : ∀ prec, Forward (sub prec)) (left : Expr) :
    Forward (Parser.operator sub left) := by
  refine .bind .current fun token => .bind .advance fun _ => ?_
  split
  · exact .bind (hsub _) fun _ => .pure _
  · exact .bind (hsub _) fun _ => .bind (.expect _) fun _ => .bind (hsub _) fun _ => .pure _
  · exact .bind (hsub _) fun _ => .pure _
  · exact .bind (hsub _) fun _ => .pure _
  · exact .bind (hsub _) fun _ => .pure _
  · exact .pure _
  · exact .pure _
  · exact .bind (hsub _) fun _ => .bind (.expect _) fun _ => .pure _
  · exact .failure

theorem literal (read : List UInt8) : Forward (Parser.literal read) := by
  refine .bind .current fun token => ?_
  split
  · exact .bind .advance fun _ => .pure _
  · exact .bind .advance fun _ => .pure _

theorem text : Forward Parser.text := .bind (.whileToken .literal _ _) fun _ => .pure _

theorem sizeOf : Forward Parser.sizeOf :=
  .bind .advance fun _ => .bind (.expect _) fun _ => .bind .baseType fun _ =>
    .bind (.pointerLevels _) fun _ => .bind (.expect _) fun _ => .pure _

theorem argument (hsub : ∀ prec, Forward (sub prec)) : Forward (Parser.argument sub) :=
  .bind (hsub _) fun _ => .bind (.skipOver _) fun _ => .pure _

theorem call (hsub : ∀ prec, Forward (sub prec)) (id : SymbolId) : Forward (Parser.call sub id) :=
  .bind .advance fun _ => .bind (.collect (.argument hsub) _) fun _ => .bind .advance fun _ =>
    .pure _

theorem parenthesised (hsub : ∀ prec, Forward (sub prec)) : Forward (Parser.parenthesised sub) := by
  refine .bind .advance fun _ => .bind .baseType? fun base => ?_
  split
  · exact .bind (.pointerLevels _) fun _ => .bind (.expect _) fun _ => .bind (hsub _) fun _ =>
      .pure _
  · exact .bind (hsub _) fun _ => .bind (.expect _) fun _ => .pure _

theorem inFront (hsub : ∀ prec, Forward (sub prec)) (build : Expr → Expr) :
    Forward (Parser.inFront sub build) :=
  .bind .advance fun _ => .bind (hsub _) fun _ => .pure _

theorem negation (hsub : ∀ prec, Forward (sub prec)) : Forward (Parser.negation sub) := by
  refine .bind .advance fun _ => .bind .current fun token => ?_
  split
  · exact .bind .advance fun _ => .pure _
  · exact .bind (hsub _) fun _ => .pure _

theorem unary (hsub : ∀ prec, Forward (sub prec)) : Forward (Parser.unary sub) := by
  refine .bind .current fun token => ?_
  cases token with
  | number n => exact .bind .advance fun _ => .pure _
  | string bytes => exact .text
  | keyword k =>
    cases k with
    | sizeofKw => exact .sizeOf
    | _ => exact .failure
  | ident id =>
    refine .bind .advance fun _ => .bind .current fun next => ?_
    split
    · exact .call hsub _
    · exact .pure _
  | leftParen => exact .parenthesised hsub
  | bang | tilde | increment | decrement => exact .inFront hsub _
  | binary op =>
    cases op with
    | mul | and | add => exact .inFront hsub _
    | sub => exact .negation hsub
    | _ => exact .failure
  | _ => exact .failure

theorem expr (levels : Nat) (prec : Prec) : Forward (Parser.expr levels prec) := by
  induction levels generalizing prec with
  | zero => exact .failure
  | succ levels ih =>
    exact .bind (.unary ih) fun first => .whileToken (.operator ih) _ _

/-! ## Statements -/

variable {body : Parser Stmt}

theorem condition (hsub : ∀ prec, Forward (sub prec)) : Forward (Parser.condition sub) :=
  .bind (.expect _) fun _ => .bind (hsub _) fun _ => .bind (.expect _) fun _ => .pure _

theorem ifStmt (hsub : ∀ prec, Forward (sub prec)) (hbody : Forward body) :
    Forward (Parser.ifStmt sub body) := by
  refine .bind .advance fun _ => .bind (.condition hsub) fun _ => .bind hbody fun _ =>
    .bind .current fun token => ?_
  split
  · exact .bind .advance fun _ => .bind hbody fun _ => .pure _
  · exact .pure _

theorem whileStmt (hsub : ∀ prec, Forward (sub prec)) (hbody : Forward body) :
    Forward (Parser.whileStmt sub body) :=
  .bind .advance fun _ => .bind (.condition hsub) fun _ => .bind hbody fun _ => .pure _

theorem returnStmt (hsub : ∀ prec, Forward (sub prec)) : Forward (Parser.returnStmt sub) := by
  refine .bind .advance fun _ => .bind .current fun token => ?_
  split
  · exact .bind (hsub _) fun _ => .bind (.expect _) fun _ => .pure _
  · exact .bind (.expect _) fun _ => .pure _

theorem statements (hbody : Forward body) : Forward (Parser.statements body) := by
  refine .collect (.bind .current fun token => ?_) _
  split
  · exact .bind .failure fun _ => hbody
  · exact hbody

theorem statement (hsub : ∀ prec, Forward (sub prec)) (hbody : Forward body) :
    Forward (Parser.statement sub body) := by
  refine .bind .current fun token => ?_
  split
  · exact .ifStmt hsub hbody
  · exact .whileStmt hsub hbody
  · exact .returnStmt hsub
  · exact .bind .advance fun _ => .bind (.statements hbody) fun _ => .bind .advance fun _ => .pure _
  · exact .bind .advance fun _ => .pure _
  · exact .bind (hsub _) fun _ => .bind (.expect _) fun _ => .pure _

theorem stmt (levels : Nat) : Forward (Parser.stmt levels) := by
  induction levels with
  | zero => exact .failure
  | succ levels ih => exact .statement (.expr levels) ih

theorem enumeratorValue (next : Word) : Forward (Parser.enumeratorValue next) := by
  refine .bind .current fun token => ?_
  split
  · refine .bind .advance fun _ => .bind .current fun token => ?_
    split
    · exact .bind .advance fun _ => .pure _
    · exact .failure
  · exact .pure _

end Forward

end Parser

/-! ## Declarations -/

/-- How many names an item declares, with the variables of a function. -/
def Item.declared : Item → Nat
  | .constant _ _ | .globalVar _ _ => 1
  | .function _ _ params locals _ => params.length + locals.length + 1

namespace Parser

namespace Spends

variable {α : Type} {k : Nat} {w : α → Nat}

/-- What a parser reads behind a name that it asks for may weigh one unit more. -/
theorem ident {f : Token → Parser α} {g : SymbolId → Parser α}
    (hname : ∀ id, f (.ident id) = Parser.advance >>= fun _ => g id)
    (hother : ∀ token, (∀ id, token ≠ .ident id) → f token = Alternative.failure)
    (hg : ∀ id, Spends (g id) (k + 1) w) : Spends (Parser.current >>= f) k w := by
  intro st a st' hclosed h
  rw [bind_apply, current_apply, Option.bind_some] at h
  by_cases hcurrent : ∃ id, st.current = .ident id
  · obtain ⟨id, hid⟩ := hcurrent
    rw [hid, hname, bind_apply, Option.bind_eq_some_iff] at h
    obtain ⟨⟨u, st₁⟩, hadvance, h⟩ := h
    obtain ⟨hclosed₁, hlt⟩ :=
      advance_pays hclosed (hclosed.rest_ne_nil (by simp [hid])) hadvance
    obtain ⟨hclosed', hle⟩ := hg id st₁ a st' hclosed₁ h
    exact ⟨hclosed', by omega⟩
  · rw [hother _ fun id hid => hcurrent ⟨id, hid⟩] at h
    cases h

theorem namedVariable (base : CType) : Spends (Parser.namedVariable base) k fun _ => k + 1 := by
  refine .bind (Forward.pointerLevels base k) fun type => .ident (fun _ => rfl) ?_ fun id =>
    .bind (Forward.skipOver _ _) fun _ => .pure le_rfl
  intro token htoken
  cases token <;> first | rfl | exact absurd rfl (htoken _)

theorem parameter : Spends Parser.parameter k fun _ => k + 1 :=
  .bind (Forward.baseType k) fun _ => .namedVariable _

theorem localVariables : Spends Parser.localVariables k fun vars => k + vars.length := by
  refine whileToken (w := fun vars : List Variable => k + vars.length) (fun read => ?_) _ []
  refine .bind (Forward.baseType _) fun base =>
    .bind (.collect (w := fun _ => 1) (fun _ => .namedVariable base) _) fun more =>
    .bind .advance fun _ => .pure ?_
  simp [Nat.add_assoc]

theorem functionDefinition (id : SymbolId) (type : CType) :
    Spends (Parser.functionDefinition id type) (k + 1) fun item => k + item.declared := by
  refine .bind .advance fun _ =>
    .bind (.collect (w := fun _ => 1) (fun _ => .parameter) _) fun params =>
    .bind .advance fun _ => .bind .current fun token => ?_
  have hbody : Spends (do
      Parser.advance
      let locals ← Parser.localVariables
      return Item.function id type params locals (← Parser.statements (.stmt Compile.maxNesting)))
      (k + 1 + (params.map fun _ => 1).sum) fun item => k + item.declared := by
    refine .bind .advance fun _ => .bind .localVariables fun locals =>
      .bind (Forward.statements (.stmt _) _) fun body => .pure ?_
    simp only [Item.declared, List.map_const', List.sum_replicate, smul_eq_mul, Nat.mul_one]
    omega
  dsimp only
  split
  · exact .bind .failure fun _ => hbody
  · exact hbody

theorem declarator (base : CType) :
    Spends (Parser.declarator base) k fun item => k + item.declared := by
  refine .bind (Forward.pointerLevels base k) fun type => .ident (fun _ => rfl) ?_ fun id =>
    .bind .current fun next => ?_
  · intro token htoken
    cases token <;> first | rfl | exact absurd rfl (htoken _)
  · dsimp only
    split
    · exact .bind (.functionDefinition id type) fun _ => .bind (Forward.skipOver _ _) fun _ =>
        .pure le_rfl
    · exact .bind (.pure le_rfl) fun _ => .bind (Forward.skipOver _ _) fun _ => .pure le_rfl

theorem enumerator (read : List Item × Word) :
    Spends (Parser.enumerator read) (k + (read.1.map Item.declared).sum)
      fun read => k + (read.1.map Item.declared).sum := by
  refine .ident (fun _ => rfl) ?_ fun id => .bind (Forward.enumeratorValue _ _) fun value =>
    .bind (Forward.skipOver _ _) fun _ => .pure ?_
  · intro token htoken
    cases token <;> first | rfl | exact absurd rfl (htoken _)
  · simp [Item.declared, Nat.add_assoc]

theorem enumeratorList :
    Spends Parser.enumeratorList k fun items => k + (items.map Item.declared).sum := by
  refine .bind .current fun token => ?_
  split
  · refine .bind .advance fun _ => .bind
      (.whileToken (w := fun read => k + (read.1.map Item.declared).sum) .enumerator _ ([], 0))
      fun read => .bind .advance fun _ => .pure le_rfl
  · exact .pure le_rfl

theorem enumeration :
    Spends Parser.enumeration k fun items => k + (items.map Item.declared).sum := by
  refine .bind .advance fun _ => .bind .current fun token => ?_
  split
  · exact .bind .advance fun _ => .enumeratorList
  · exact .enumeratorList

theorem declaration :
    Spends Parser.declaration k fun items => k + (items.map Item.declared).sum := by
  have hrest (constants : List Item) (base : CType) :
      Spends (do
        let items ← Parser.collect (fun token => token ≠ .semicolon ∧ token ≠ .rightBrace)
          (Parser.declarator base)
        Parser.advance
        return constants ++ items)
        (k + (constants.map Item.declared).sum) fun items => k + (items.map Item.declared).sum := by
    refine .bind (.collect (fun _ => .declarator base) _) fun items => .bind .advance fun _ =>
      .pure ?_
    simp [Nat.add_assoc]
  refine .bind .current fun token => ?_
  dsimp only
  split
  · exact .bind .enumeration fun constants => .bind (.pure le_rfl) fun _ => hrest _ _
  · exact .bind (Forward.baseType k) fun base => .bind (.pure le_rfl) fun _ => hrest _ _

theorem items : Spends
    (Parser.whileToken (· ≠ .eof) (fun read => do return read ++ (← Parser.declaration)) []) k
      fun items => k + (items.map Item.declared).sum := by
  refine .whileToken (w := fun items : List Item => k + (items.map Item.declared).sum)
    (fun read => .bind .declaration fun more => .pure ?_) _ []
  simp [Nat.add_assoc]

end Spends

end Parser

theorem declared_le {source : List UInt8} {limits : Limits} {items : List Item}
    (h : ofSource source limits = some items) : (items.map Item.declared).sum ≤ source.length := by
  have hreads := Lexer.reads_lexemes
    (Lexer.ofSource source (SymbolTable.builtin limits.symbols.toNat))
  have hlength : _ ≤ source.length + 1 := Lexer.Reads.length_le hreads
  obtain ⟨front, line, hlexemes, -⟩ := hreads.terminated
  rw [ofSource, parse, Option.map_eq_some_iff, hlexemes] at h
  rw [hlexemes] at hlength
  obtain ⟨⟨items, st⟩, h, rfl⟩ := h
  rw [Parser.items, Parser.bind_apply, Option.bind_eq_some_iff] at h
  obtain ⟨⟨u, st₁⟩, hadvance, h⟩ := h
  obtain ⟨hclosed, hlt⟩ := Parser.Spends.advance_pays
    (by simp [Stream.Closed, Stream.tokens, List.getLast?_cons]) (by simp) hadvance
  have hle := (Parser.Spends.items (k := 0) st₁ items st hclosed h).2
  dsimp only at hle hlt ⊢
  omega

end Syntax

end MiniC
