import MiniC.Proofs.Compiling.Expressions
import MiniC.Proofs.Compiling.Tails
import MiniC.Proofs.Syntax.Phrases

/-!
# Indexing is pointer arithmetic

The code of `base[position]` is that of `*(base + position)`, and the address of the element is the
sum (`Expr.generate_index_eq`, `Expr.generate_addressOf_index`). These are facts about trees. To say
the same of texts, any two texts that are expressions are put into parentheses and joined, and what
is compiled from there on is compared (`indexing_agrees`). Where the base is no pointer, both forms
are rejected: a compilation of either holds one of the base alone, which neither the lexemes behind
the parenthesis nor the names that they bring into the table disturb (`expression_of_operand`).
-/

namespace MiniC

/-! ## Trees -/

namespace CType

theorem isPointer_of_deref? {t target : CType} (h : t.deref? = some target) :
    t.isPointer = true ∧ target.pointerTo = t := by
  obtain ⟨base, levels⟩ := t
  cases levels with
  | zero => cases h
  | succ levels =>
    cases h
    exact ⟨rfl, rfl⟩

end CType

namespace Syntax.Expr

variable {cx : Context} {pos size : Nat} {base position : Expr} {t : CType} {c : Chunk}

/-- An index is what the sum points to. -/
theorem generate_index_eq (cx : Context) (pos size : Nat) (base position : Expr) :
    (index base position).generate cx pos size =
      (deref (paren (binary .add base position))).generate cx pos size := by
  simp only [generate, binaryCode, Option.bind_eq_bind]
  cases base.generate cx pos size with
  | none => rfl
  | some operand =>
    obtain ⟨left, c⟩ := operand
    simp only [Option.bind_some]
    cases position.generate cx (c.stop pos + 1) (size + c.data.length) with
    | none => rfl
    | some operand =>
      simp only [Option.bind_some]
      cases left.deref? with
      | none => rfl
      | some target =>
        refine congrArg (fun c => some (target, c)) ?_
        ext1 <;> simp

/-- The address of the element is the sum. -/
theorem generate_addressOf_index
    (h : (addressOf (paren (index base position))).generate cx pos size = some (t, c)) :
    (binary .add base position).generate cx pos size = some (t, c) := by
  obtain ⟨element, c', hindex, hremove, rfl⟩ := generate_addressOf h
  rw [generate, generate_index_eq] at hindex
  obtain ⟨pointer, c'', hsum, hderef, rfl⟩ := generate_deref hindex
  rw [(CType.isPointer_of_deref? hderef).2]
  have hlast : (c'' ++ Chunk.ofCode [.load element.width]).removeLoad? = some c'' := by
    simp only [Chunk.removeLoad?, Chunk.code_append, Chunk.code_ofCode, List.getLast?_concat,
      List.dropLast_concat]
    refine congrArg some ?_
    ext1 <;> simp
  cases hlast.symm.trans hremove
  exact hsum

end Syntax.Expr

namespace Compile

open Syntax

variable {s u w : State} {t : CType} {text : List UInt8} {items rest : List Lexeme}
  {names names' : SymbolTable} {line line' line₀ levels : Nat} {token : Token} {prec : Prec}
  {e : Expr}

/-! ## Compiling a text -/

/-- The state with another table of names. -/
def State.knowing (s : State) (names : SymbolTable) : State := { s with symbols := names }

/-- The state with a token in view and lexemes to come, without a listing. -/
def State.seeing (s : State) (token : Token) (line : Nat) (items : List Lexeme) : State :=
  { s with current := token, line, rest := .ofList items, listing := none }

/-- The state in which a text is about to be read from the line that was reached. -/
def State.reading (s : State) (text : List UInt8) : State :=
  let lexemes := (⟨text, s.line, s.symbols⟩ : Lexer).lexemes
  { s with current := .eof, rest := .ofList lexemes.1, symbols := lexemes.2, listing := none }

/-- Compiles a text as an expression, with so many levels of nesting left. -/
def State.expression (s : State) (levels : Nat) (text : List UInt8) :
    EStateM.Result CompileError State CType :=
  (advance >>= fun _ => expr levels .assign) (s.reading text)

theorem reading_eq (h : (⟨text, s.line, s.symbols⟩ : Lexer).Reads items names) :
    s.reading text = (s.knowing names).seeing .eof s.line items := by
  obtain ⟨hitems, hsymbols⟩ := (Lexer.reads_lexemes ⟨text, s.line, s.symbols⟩).unique h
  rw [State.reading, hitems, hsymbols]
  rfl

theorem advance_seeing (s : State) (token token' : Token) (line line' : Nat)
    (items : List Lexeme) :
    advance (s.seeing token line (⟨line', .ok token'⟩ :: items)) =
      .ok () (s.seeing token' line' items) := by
  rw [advance_apply]
  exact listBefore_of_none rfl

/-- What is compiled behind the next token is the code of the tree that is read there. -/
theorem advance_expr_ok (h : (advance >>= fun _ => expr levels prec) s = .ok t u) :
    ∃ e c, (Parser.advance >>= fun _ => Parser.expr levels prec) s.stream = some (e, u.stream) ∧
      e.generate s.context s.code.size s.data.size = some (t, c) ∧ Grows s u c.code c.data := by
  obtain ⟨_, v, hadvance, h⟩ := bind_eq_ok.mp h
  obtain ⟨hg, hread⟩ := advance_ok hadvance
  obtain ⟨e, c, hexpr, hgenerate, hg'⟩ := (expr_ok levels prec).after hg h
  refine ⟨e, c, ?_, hgenerate, hg'⟩
  rw [Parser.bind_apply, hread]
  exact hexpr

/-- A text whose lexemes form an expression is compiled to the code of that expression. -/
theorem expression_ok (hreads : (⟨text, s.line, s.symbols⟩ : Lexer).Reads
      (items ++ [⟨line, .ok .eof⟩]) names) (hforms : Forms items .assign e)
    (h : s.expression levels text = .ok t u) :
    ∃ c, e.generate (s.knowing names).context s.code.size s.data.size = some (t, c) ∧
      Grows (s.knowing names) u c.code c.data := by
  rw [State.expression, reading_eq hreads] at h
  obtain ⟨e', c, hread, hgenerate, hg⟩ := advance_expr_ok h
  have hclosed : Stream.Closed ⟨.eof, []⟩ := rfl
  obtain ⟨rfl, -⟩ := hforms hclosed (by decide) hread
  exact ⟨c, hgenerate, { hg with }⟩

/-! ## The base alone -/

theorem Terminated.suffix {items' : List Lexeme} (h : Terminated items) (hs : items' <:+ items)
    (hne : items' ≠ []) : Terminated items' := by
  obtain ⟨front, line, rfl, hfront⟩ := h
  obtain ⟨more, hmore⟩ := hs
  rw [← List.dropLast_append_getLast hne, ← List.append_assoc] at hmore
  obtain ⟨hfront', hlast⟩ := List.append_inj' hmore rfl
  refine ⟨items'.dropLast, line, ?_, fun l hl => hfront l ?_⟩
  · rw [← hlast, List.dropLast_append_getLast]
  · exact hfront' ▸ List.mem_append_right _ hl

theorem Terminated.closed (h : Terminated items) (token : Token) :
    Stream.Closed ⟨token, items⟩ := by
  obtain ⟨front, line, rfl, -⟩ := h
  have heof : Stream.Closed ⟨.eof, []⟩ := rfl
  exact heof.behind token front line

theorem baseType?_eq_none (h : baseType? s = .ok none u) : u = s := by
  rw [baseType?] at h
  obtain ⟨token, _, hcurrent, h⟩ := bind_eq_ok.mp h
  obtain ⟨-, rfl⟩ := current_eq_ok.mp hcurrent
  split at h
  · obtain ⟨_, _, -, h⟩ := bind_eq_ok.mp h
    cases (pure_eq_ok.mp h).1
  · obtain ⟨_, _, -, h⟩ := bind_eq_ok.mp h
    cases (pure_eq_ok.mp h).1
  · exact (pure_eq_ok.mp h).2.symm

theorem baseType?_of_untyped (h : Parser.baseType? s.stream = some (none, s.stream)) :
    baseType? s = .ok none s := by
  have hcurrent : ∀ k, k = .intKw ∨ k = .charKw → s.current ≠ .keyword k := by
    rintro k hk hcurrent
    have hstream : s.stream.current = .keyword k := hcurrent
    rw [Parser.baseType?, Parser.bind_apply, Parser.current_apply, Option.bind_some, hstream] at h
    rcases hk with rfl | rfl
    all_goals
      obtain ⟨_, -, hreturn⟩ := Option.bind_eq_some_iff.mp h
      cases hreturn
  rw [baseType?, bind_of_ok (current_eq_ok.mpr ⟨rfl, rfl⟩)]
  cases htoken : s.current with
  | keyword k =>
    cases k with
    | intKw | charKw => exact absurd htoken (hcurrent _ (by simp))
    | _ => rfl
  | _ => rfl

/-- Where an operand in parentheses is compiled, so is what they enclose. -/
theorem inner_of_operand (henc : Encloses items line' e)
    (h : (advance >>= fun _ => expr levels prec)
      (s.seeing token line₀ (enclosedItems line items line' ++ rest)) = .ok t u) :
    ∃ n t₀ w, (advance >>= fun _ => expr n .assign)
      (s.seeing .leftParen line (items ++ ⟨line', .ok .rightParen⟩ :: rest)) = .ok t₀ w := by
  rw [enclosedItems, List.cons_append, List.append_assoc] at h
  obtain ⟨_, v, hadvance, h⟩ := bind_eq_ok.mp h
  cases (advance_seeing s token .leftParen line₀ line _).symm.trans hadvance
  cases levels with
  | zero => exact absurd h fail_ne_ok
  | succ n =>
    rw [expr] at h
    obtain ⟨t₁, u₁, hunary, -⟩ := bind_eq_ok.mp h
    have hparen : parenthesised (expr n) (s.seeing .leftParen line
        (items ++ ⟨line', .ok .rightParen⟩ :: rest)) = .ok t₁ u₁ := hunary
    rw [parenthesised] at hparen
    obtain ⟨_, v, hmove, hparen⟩ := bind_eq_ok.mp hparen
    obtain ⟨o, v', hbase, hparen⟩ := bind_eq_ok.mp hparen
    have huntyped := (baseType?_ok hbase).2.symm.trans (henc.untyped (advance_ok hmove).2)
    obtain rfl : o = none := (Prod.mk.inj (Option.some.inj huntyped)).1
    cases baseType?_eq_none hbase
    obtain ⟨t₀, w, hinner, -⟩ := bind_eq_ok.mp hparen
    exact ⟨n, t₀, w, bind_eq_ok.mpr ⟨(), v, hmove, hinner⟩⟩

theorem operand_of_dereference
    (h : (advance >>= fun _ => expr levels .assign)
      (s.seeing token line₀ (⟨line, .ok (.binary .mul)⟩ :: items)) = .ok t u) :
    ∃ n t₀ w, (advance >>= fun _ => expr n .primary) (s.seeing (.binary .mul) line items) =
      .ok t₀ w := by
  obtain ⟨_, v, hadvance, h⟩ := bind_eq_ok.mp h
  cases (advance_seeing s token (.binary .mul) line₀ line _).symm.trans hadvance
  cases levels with
  | zero => exact absurd h fail_ne_ok
  | succ n =>
    rw [expr] at h
    obtain ⟨t₁, u₁, hunary, -⟩ := bind_eq_ok.mp h
    have hderef : dereference (expr n) (s.seeing (.binary .mul) line items) = .ok t₁ u₁ := hunary
    rw [dereference] at hderef
    obtain ⟨_, v, hmove, hderef⟩ := bind_eq_ok.mp hderef
    obtain ⟨t₀, w, hoperand, -⟩ := bind_eq_ok.mp hderef
    exact ⟨n, t₀, w, bind_eq_ok.mpr ⟨_, v, hmove, hoperand⟩⟩

theorem composed_advance_expr (levels : Nat) (prec : Prec) :
    Composed .all ∅ (advance >>= fun _ => expr levels prec) :=
  .seq .advance fun _ => (Advances.expr levels prec).composed

/-- What parentheses enclose is compiled in the same way when the source ends behind them. -/
theorem inner_alone (henc : Encloses items line' e)
    (hterm : Terminated (items ++ ⟨line', .ok .rightParen⟩ :: rest))
    (h : (advance >>= fun _ => expr levels .assign)
      (s.seeing .leftParen line (items ++ ⟨line', .ok .rightParen⟩ :: rest)) = .ok t u) :
    ∃ w, (advance >>= fun _ => expr levels .assign) (s.seeing .leftParen line
        (items ++ [⟨line', .ok .rightParen⟩, ⟨line', .ok .eof⟩])) = .ok t w ∧ w.listing = none := by
  have hne : rest ≠ [] := by
    rintro rfl
    obtain ⟨front, l, heq, -⟩ := hterm
    cases (List.append_inj' heq rfl).2
  have hrest : Terminated rest :=
    hterm.suffix ((List.suffix_cons _ _).trans (List.suffix_append _ _)) hne
  have hclosed : Closed (s.seeing .leftParen line (items ++ ⟨line', .ok .rightParen⟩ :: rest)) :=
    .inr ⟨nofun, hterm⟩
  obtain ⟨e', c, hread, -, -⟩ := advance_expr_ok h
  obtain ⟨rfl, hstream⟩ := henc.unique (hrest.closed _) hread
  have hitems : u.rest.items = rest := congrArg Stream.rest hstream
  have hbeside : Beside rest [⟨line', .ok .eof⟩]
      (s.seeing .leftParen line (items ++ ⟨line', .ok .rightParen⟩ :: rest))
      (s.seeing .leftParen line (items ++ [⟨line', .ok .rightParen⟩, ⟨line', .ok .eof⟩])) := by
    refine ⟨hne, rfl, items ++ [⟨line', .ok .rightParen⟩], ?_, ?_⟩
    · exact (List.append_assoc items [_] rest).symm
    · rw [List.append_assoc]
      rfl
  obtain ⟨w, hw, hbeside'⟩ := (composed_advance_expr levels .assign).carried hclosed hbeside t u h
    (hitems ▸ le_rfl)
  obtain ⟨front, -, rfl⟩ := hbeside'.common
  exact ⟨_, hw, hbeside'.unlisted⟩

/-- What is compiled with a table is compiled with another one that has the same names up to all
those that are mentioned. -/
theorem inner_knowing {n : Nat} (hterm : Terminated items)
    (hknown : ∀ l ∈ items, ∀ token, l.token = .ok token → Known n token)
    (hagree : SymbolTable.Agree n names names')
    (h : (advance >>= fun _ => expr levels .assign)
      ((s.knowing names).seeing .leftParen line items) = .ok t w) :
    ∃ w', (advance >>= fun _ => expr levels .assign)
        ((s.knowing names').seeing .leftParen line items) = .ok t w' ∧ w'.listing = none := by
  have hproper : Proper n ((s.knowing names).seeing .leftParen line items) :=
    ⟨.inr ⟨nofun, hterm⟩, nofun, hknown⟩
  have htracks : Tracks False n 0 ((s.knowing names).seeing .leftParen line items)
      ((s.knowing names').seeing .leftParen line items) :=
    ⟨rfl, rfl, .refl False items, rfl, hagree, rfl, rfl, rfl, rfl, le_rfl, le_rfl, rfl, rfl⟩
  cases (composed_advance_expr levels .assign).together (fun _ h => h.elim) hproper htracks with
  | ok hw hw' ht =>
    cases h.symm.trans hw
    exact ⟨_, hw', ht.unlisted'⟩
  | error hw => cases h.symm.trans hw
  | full hw => cases h.symm.trans hw
  | past hseam => exact hseam.elim

/-- A text in parentheses is compiled where what they enclose is. -/
theorem expression_enclosed (henc : Encloses items line' e)
    (hreads : (⟨enclosed text, s.line, s.symbols⟩ : Lexer).Reads
      (enclosedItems s.line items line' ++ [⟨line', .ok .eof⟩]) names)
    (h : (advance >>= fun _ => expr levels .assign) ((s.knowing names).seeing .leftParen s.line
      (items ++ [⟨line', .ok .rightParen⟩, ⟨line', .ok .eof⟩])) = .ok t w)
    (hlisting : w.listing = none) :
    ∃ u, s.expression (levels + 1) (enclosed text) = .ok t u := by
  obtain ⟨_, v, hmove, hinner⟩ := bind_eq_ok.mp h
  have hbase := baseType?_of_untyped (henc.untyped (advance_ok hmove).2)
  obtain ⟨_, _, hread, -, -⟩ := advance_expr_ok h
  obtain ⟨-, hstream⟩ := henc.unique (Stream.closed_eof .rightParen line') hread
  have hcurrent : w.current = .rightParen := congrArg Stream.current hstream
  have hitems : w.rest.items = [⟨line', .ok .eof⟩] := congrArg Stream.rest hstream
  have hend : advance w = .ok () { w with current := .eof, line := line', rest := .ofList [] } := by
    rw [advance_apply, hitems]
    exact listBefore_of_none hlisting
  have hclose : expect .rightParen .closeParenExpected w =
      .ok () { w with current := .eof, line := line', rest := .ofList [] } :=
    bind_eq_ok.mpr ⟨.rightParen, w, current_eq_ok.mpr ⟨hcurrent, rfl⟩, hend⟩
  have hparen : parenthesised (expr levels) ((s.knowing names).seeing .leftParen s.line
      (items ++ [⟨line', .ok .rightParen⟩, ⟨line', .ok .eof⟩])) =
        .ok t { w with current := .eof, line := line', rest := .ofList [] } :=
    bind_eq_ok.mpr ⟨_, v, hmove, bind_eq_ok.mpr ⟨none, v, hbase, bind_eq_ok.mpr ⟨t, w, hinner,
      bind_eq_ok.mpr ⟨(), _, hclose, rfl⟩⟩⟩⟩
  refine ⟨{ w with current := .eof, line := line', rest := .ofList [] }, ?_⟩
  rw [State.expression, reading_eq hreads, enclosedItems, List.cons_append, List.append_assoc]
  refine bind_eq_ok.mpr ⟨(), _, advance_seeing _ .eof .leftParen s.line s.line _, ?_⟩
  refine bind_eq_ok.mpr ⟨t, _, hparen, ?_⟩
  rw [whileToken_apply]
  exact loop_succ_of_not_more rfl

/-- Where a text in parentheses is compiled in front of other lexemes, it is compiled alone, and to
the type of its tree. The table may have names behind those of the text. -/
theorem expression_of_operand (hread : ReadAs s.symbols s.line text items names line' e)
    (hagree : SymbolTable.Agree names.size names' names)
    (hterm : Terminated (enclosedItems s.line items line' ++ rest))
    (h : (advance >>= fun _ => expr levels prec) ((s.knowing names').seeing token line₀
      (enclosedItems s.line items line' ++ rest)) = .ok t u) :
    ∃ n t₀ u₀ c, s.expression n (enclosed text) = .ok t₀ u₀ ∧
      e.generate (s.knowing names').context s.code.size s.data.size = some (t₀, c) := by
  have henc := hread.encloses
  obtain ⟨n, t₀, v, hinner⟩ := inner_of_operand henc h
  rw [enclosedItems, List.cons_append, List.append_assoc] at hterm
  obtain ⟨w, halone, -⟩ :=
    inner_alone henc (hterm.suffix (List.suffix_cons _ _) (by simp)) hinner
  obtain ⟨e', c, hread', hgenerate, -⟩ := advance_expr_ok halone
  obtain ⟨rfl, -⟩ := henc.unique (Stream.closed_eof .rightParen line') hread'
  obtain ⟨w', hown, hlisting⟩ := inner_knowing hread.terminated hread.known_enclosed hagree halone
  have hreads := (hread.takes_enclosed []).reads (.eof rfl)
  rw [List.append_nil] at hreads
  obtain ⟨u₀, hu₀⟩ := expression_enclosed henc hreads hown hlisting
  exact ⟨n + 1, t₀, u₀, c, hu₀, hgenerate⟩

/-! ## The four forms -/

section Forms

variable {base position : List UInt8} {p i : List Lexeme} {l l' : Nat} {e₁ e₂ : Expr}
  (hbase : ReadAs s.symbols s.line base p names l e₁)
  (hposition : ReadAs names l position i names' l' e₂)

include hbase hposition

theorem reads_index : (⟨indexText base position, s.line, s.symbols⟩ : Lexer).Reads
    (indexItems s.line p l i l' ++ [⟨l', .ok .eof⟩]) names' := by
  have h := (takes_index hbase hposition []).reads (.eof rfl)
  rwa [List.append_nil] at h

theorem reads_sum : (⟨sumText base position, s.line, s.symbols⟩ : Lexer).Reads
    (sumItems s.line p l i l' ++ [⟨l', .ok .eof⟩]) names' := by
  have h := (takes_sum hbase hposition []).reads (.eof rfl)
  rwa [List.append_nil] at h

theorem reads_element :
    (⟨'*'.toUInt8 :: enclosed (sumText base position), s.line, s.symbols⟩ : Lexer).Reads
      (⟨s.line, .ok (.binary .mul)⟩ :: enclosedItems s.line (sumItems s.line p l i l') l' ++
        [⟨l', .ok .eof⟩]) names' := by
  have hstar := Lexer.takes_mark s.line s.symbols (enclosed (sumText base position))
    (by simp : ('*'.toUInt8, Token.binary .mul) ∈ _)
  have hsum := takes_parentheses (takes_sum hbase hposition) []
  rw [List.append_nil] at hsum
  exact (hstar.append hsum).reads (.eof rfl)

theorem reads_address :
    (⟨'&'.toUInt8 :: enclosed (indexText base position), s.line, s.symbols⟩ : Lexer).Reads
      (⟨s.line, .ok (.binary .and)⟩ :: enclosedItems s.line (indexItems s.line p l i l') l' ++
        [⟨l', .ok .eof⟩]) names' := by
  have hand : Lexer.Takes ⟨'&'.toUInt8 :: enclosed (indexText base position), s.line, s.symbols⟩
      [⟨s.line, .ok (.binary .and)⟩] ⟨enclosed (indexText base position), s.line, s.symbols⟩ :=
    Lexer.takes_operator s.line s.symbols rfl (by decide) rfl
  have hindex := takes_parentheses (takes_index hbase hposition) []
  rw [List.append_nil] at hindex
  exact (hand.append hindex).reads (.eof rfl)

theorem forms_element : Forms
    (⟨s.line, .ok (.binary .mul)⟩ :: enclosedItems s.line (sumItems s.line p l i l') l') .assign
    (.deref (.paren (.binary .add (.paren e₁) (.paren e₂)))) :=
  forms_inFront (.of_forms (forms_sum hbase.encloses hposition.encloses) (by simp))
    (fun _ _ => rfl) s.line

theorem forms_address : Forms
    (⟨s.line, .ok (.binary .and)⟩ :: enclosedItems s.line (indexItems s.line p l i l') l') .assign
    (.addressOf (.paren (.index (.paren e₁) (.paren e₂)))) :=
  forms_inFront (.of_forms (forms_index hbase.encloses hposition.encloses) (by simp))
    (fun _ _ => rfl) s.line

/-- Where the index is compiled, the base alone is compiled to a pointer. -/
theorem pointer_of_index (h : s.expression levels (indexText base position) = .ok t u) :
    ∃ n t₀ u₀, s.expression n (enclosed base) = .ok t₀ u₀ ∧ t₀.isPointer = true := by
  have hreads := reads_index hbase hposition
  have hagree := hposition.takes.agree.1.symm
  obtain ⟨c, hgenerate, -⟩ :=
    expression_ok hreads (forms_index hbase.encloses hposition.encloses) h
  obtain ⟨t₀, c₀, _, _, hgenerate₀, -, hderef, -⟩ := Expr.generate_index hgenerate
  have hterm := hreads.terminated
  rw [State.expression, reading_eq hreads] at h
  rw [indexItems, List.append_assoc] at h hterm
  obtain ⟨n, t₁, u₁, c₁, hu₁, hgenerate₁⟩ := expression_of_operand hbase hagree hterm h
  cases hgenerate₁.symm.trans hgenerate₀
  exact ⟨n, _, u₁, hu₁, (CType.isPointer_of_deref? hderef).1⟩

/-- Where the element behind the sum is compiled, the base alone is compiled to a pointer. -/
theorem pointer_of_element
    (h : s.expression levels ('*'.toUInt8 :: enclosed (sumText base position)) = .ok t u) :
    ∃ n t₀ u₀, s.expression n (enclosed base) = .ok t₀ u₀ ∧ t₀.isPointer = true := by
  have hreads := reads_element hbase hposition
  have hagree := hposition.takes.agree.1.symm
  have hterm := hreads.terminated
  obtain ⟨c, hgenerate, -⟩ := expression_ok hreads (forms_element hbase hposition) h
  obtain ⟨t₀, c₀, hsum, hderef, -⟩ := Expr.generate_deref hgenerate
  obtain ⟨_, _, _, _, hgenerate₀, -, rfl, -⟩ := Expr.generate_binary hsum
  rw [State.expression, reading_eq hreads] at h
  -- the operand of the star is the sum in parentheses, and it begins with the base
  obtain ⟨n, t₁, u₁, hoperand⟩ := operand_of_dereference h
  have henc : Encloses (sumItems s.line p l i l') l' _ :=
    .of_forms (forms_sum hbase.encloses hposition.encloses) (by simp)
  obtain ⟨m, t₂, u₂, hinner⟩ := inner_of_operand henc hoperand
  rw [sumItems, List.append_assoc] at hinner
  rw [List.cons_append, enclosedItems, List.cons_append, List.append_assoc, sumItems,
    List.append_assoc] at hterm
  have hsuffix := hterm.suffix ((List.suffix_cons _ _).trans (List.suffix_cons _ _))
    (by simp [enclosedItems])
  obtain ⟨n, t₁, u₁, c₁, hu₁, hgenerate₁⟩ := expression_of_operand hbase hagree hsuffix hinner
  cases hgenerate₁.symm.trans hgenerate₀
  exact ⟨n, _, u₁, hu₁, (CType.isPointer_of_deref? hderef).1⟩

end Forms

/-- Texts compiled from the same state to the code of trees that are generated alike. -/
theorem same_of_grows {u' : State} {t' : CType} {c c' : Chunk} (h : some (t, c) = some (t', c'))
    (hg : Grows s u c.code c.data) (hg' : Grows s u' c'.code c'.data) :
    t = t' ∧ u.code = u'.code ∧ u.data = u'.data := by
  cases h
  refine ⟨rfl, Array.toList_inj.mp ?_, Array.toList_inj.mp ?_⟩
  · rw [hg.code_eq, hg'.code_eq]
  · rw [hg.data_eq, hg'.data_eq]

theorem error_of_ne_ok {r : EStateM.Result CompileError State CType}
    (h : ∀ t u, r ≠ .ok t u) : ∃ e u, r = .error e u := by
  cases r with
  | ok t u => exact absurd rfl (h t u)
  | error e u => exact ⟨e, u, rfl⟩

/-- Any two expressions, in parentheses, as the base and the position of an index. Where it is
compiled, it has the type and the code of the element behind the sum of the two, and its address
those of the sum. Where the base alone has no pointer type, both the index and the element are
rejected. -/
theorem indexing_agrees {s : State} {base position : List UInt8} {names names' : SymbolTable}
    {line line' : Nat} (hbase : IsExpr s.symbols s.line base names line)
    (hposition : IsExpr names line position names' line') :
    (∀ n n' t t' u u', s.expression n (indexText base position) = .ok t u →
      s.expression n' ('*'.toUInt8 :: enclosed (sumText base position)) = .ok t' u' →
      t = t' ∧ u.code = u'.code ∧ u.data = u'.data) ∧
    (∀ n n' t t' u u',
      s.expression n ('&'.toUInt8 :: enclosed (indexText base position)) = .ok t u →
      s.expression n' (sumText base position) = .ok t' u' →
      t = t' ∧ u.code = u'.code ∧ u.data = u'.data) ∧
    ((∀ n t u, s.expression n (enclosed base) = .ok t u → t.isPointer = false) →
      ∀ n, (∃ e u, s.expression n (indexText base position) = .error e u) ∧
        ∃ e u, s.expression n ('*'.toUInt8 :: enclosed (sumText base position)) = .error e u) := by
  obtain ⟨p, e₁, hbase⟩ := hbase
  obtain ⟨i, e₂, hposition⟩ := hposition
  refine ⟨fun n n' t t' u u' h h' => ?_, fun n n' t t' u u' h h' => ?_, fun hpointer n => ?_⟩
  · obtain ⟨c, hgenerate, hg⟩ := expression_ok (reads_index hbase hposition)
      (forms_index hbase.encloses hposition.encloses) h
    obtain ⟨c', hgenerate', hg'⟩ :=
      expression_ok (reads_element hbase hposition) (forms_element hbase hposition) h'
    rw [Expr.generate_index_eq] at hgenerate
    exact same_of_grows (hgenerate.symm.trans hgenerate') hg hg'
  · obtain ⟨c, hgenerate, hg⟩ :=
      expression_ok (reads_address hbase hposition) (forms_address hbase hposition) h
    obtain ⟨c', hgenerate', hg'⟩ := expression_ok (reads_sum hbase hposition)
      (forms_sum hbase.encloses hposition.encloses) h'
    have hgenerate := Expr.generate_addressOf_index hgenerate
    exact same_of_grows (hgenerate.symm.trans hgenerate') hg hg'
  · refine ⟨error_of_ne_ok fun t u h => ?_, error_of_ne_ok fun t u h => ?_⟩
    · obtain ⟨m, t₀, u₀, hu₀, ht₀⟩ := pointer_of_index hbase hposition h
      simp [hpointer m t₀ u₀ hu₀] at ht₀
    · obtain ⟨m, t₀, u₀, hu₀, ht₀⟩ := pointer_of_element hbase hposition h
      simp [hpointer m t₀ u₀ hu₀] at ht₀

/-- Whether a text is compiled. -/
def State.accepts (s : State) (levels : Nat) (text : List UInt8) : Bool :=
  match s.expression levels text with
  | .ok _ _ => true
  | .error _ _ => false

theorem ok_of_accepts (h : s.accepts levels text = true) :
    ∃ t u, s.expression levels text = .ok t u := by
  rw [State.accepts] at h
  split at h
  · exact ⟨_, _, ‹_›⟩
  · cases h

/-- A state without code that knows a global pointer to words and a global word. -/
def pointerAndWord : State :=
  { current := .eof, line := 1, rest := .ofList [],
    symbols := [⟨"p", ⟨.globalVar, CType.int.pointerTo, 0⟩⟩, ⟨"n", ⟨.globalVar, .int, 8⟩⟩].foldl
      .add ⟨#[], [], [], 8⟩,
    code := #[], words := 0, data := .replicate 16 0, frame := 0,
    limits := ⟨64, 64, 8, 96, 64, 64⟩, listing := none }

/-- Index and element, address and sum for the two globals, and an index of the word. -/
theorem indexing_agrees_globals :
    let p := Utf8.encode "p"
    let n := Utf8.encode "n"
    (∃ t u u', pointerAndWord.expression 8 (indexText p n) = .ok t u ∧
      pointerAndWord.expression 8 ('*'.toUInt8 :: enclosed (sumText p n)) = .ok t u' ∧
      u.code = u'.code) ∧
    (∃ t u u', pointerAndWord.expression 8 ('&'.toUInt8 :: enclosed (indexText p n)) = .ok t u ∧
      pointerAndWord.expression 8 (sumText p n) = .ok t u' ∧ u.code = u'.code) ∧
    ∃ e u, pointerAndWord.expression 8 (indexText n p) = .error e u := by
  intro p n
  have hindexed : pointerAndWord.symbols.Indexed := ⟨by decide, rfl⟩
  have hp : ReadAs pointerAndWord.symbols 1 p _ pointerAndWord.symbols 1 (.name 0) :=
    readAs_name hindexed (by cbv)
  have hn : ReadAs pointerAndWord.symbols 1 n _ pointerAndWord.symbols 1 (.name 1) :=
    readAs_name hindexed (by cbv)
  have haccepts : pointerAndWord.accepts 8 (indexText p n) = true ∧
      pointerAndWord.accepts 8 ('*'.toUInt8 :: enclosed (sumText p n)) = true ∧
      pointerAndWord.accepts 8 ('&'.toUInt8 :: enclosed (indexText p n)) = true ∧
      pointerAndWord.accepts 8 (sumText p n) = true := by
    decide +kernel
  obtain ⟨h₁, h₂, h₃, h₄⟩ := haccepts
  obtain ⟨hindex, haddress, -⟩ := indexing_agrees (s := pointerAndWord) ⟨_, _, hp⟩ ⟨_, _, hn⟩
  refine ⟨?_, ?_, ?_⟩
  · obtain ⟨t, u, h⟩ := ok_of_accepts h₁
    obtain ⟨t', u', h'⟩ := ok_of_accepts h₂
    obtain ⟨rfl, hcode, -⟩ := hindex 8 8 t t' u u' h h'
    exact ⟨t, u, u', h, h', hcode⟩
  · obtain ⟨t, u, h⟩ := ok_of_accepts h₃
    obtain ⟨t', u', h'⟩ := ok_of_accepts h₄
    obtain ⟨rfl, hcode, -⟩ := haddress 8 8 t t' u u' h h'
    exact ⟨t, u, u', h, h', hcode⟩
  · obtain ⟨-, -, hrejected⟩ := indexing_agrees (s := pointerAndWord) ⟨_, _, hn⟩ ⟨_, _, hp⟩
    refine (hrejected (fun m t u h => ?_) 8).1
    have hreads := (hn.takes_enclosed []).reads (.eof rfl)
    rw [List.append_nil] at hreads
    obtain ⟨c, hgenerate, -⟩ := expression_ok hreads (hn.encloses.forms 1 .assign) h
    cases hgenerate
    rfl

end Compile

end MiniC
