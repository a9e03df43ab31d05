import MiniC.Proofs.Compiling.Lockstep
import MiniC.Proofs.Syntax.Agreement
import MiniC.Proofs.Syntax.Seams

/-!
# Expressions in parentheses

A text is an expression (`IsExpr`) when the bytes in front of a closing parenthesis are read to
tokens that an expression is made of, and the parenthesis to a token of its own behind them: no
comment or literal runs over it. Such a text can be put into parentheses anywhere. Its lexemes are
the same whatever bytes follow (`ReadAs.takes_enclosed`), and so is the tree that they are read to
(`ReadAs.encloses`). What is built from two such texts with brackets or a plus sign is read as an
index or a sum of the two trees.
-/

namespace MiniC

namespace Lexer

/-! ## Reading a part of a source -/

/-- Reading yields the lexemes, none of them the end, and is to go on from the second lexer. -/
inductive Takes : Lexer → List Lexeme → Lexer → Prop
  | nil (lx : Lexer) : Takes lx [] lx
  | next {lx lx' : Lexer} {items : List Lexeme} (h : lx.scan.1 ≠ .eof)
      (hrest : Takes lx.next.2 items lx') : Takes lx (⟨lx.next.2.line, lx.next.1⟩ :: items) lx'

namespace Takes

variable {lx lx' lx'' : Lexer} {items items' : List Lexeme} {e : UInt8}

/-- A token is read, and then the others. -/
theorem token {token : Token} (h : lx.next = (.ok token, lx')) (hne : token ≠ .eof)
    (hrest : Takes lx' items lx'') : Takes lx (⟨lx'.line, .ok token⟩ :: items) lx'' := by
  have hfound : lx.scan.1 ≠ .eof := by
    rw [ne_eq, ← next_eq_eof, h]
    exact fun heof => hne (Except.ok.inj heof)
  have htakes := Takes.next hfound (h ▸ hrest : Takes lx.next.2 items lx'')
  rwa [h] at htakes

theorem append (h : Takes lx items lx') (h' : Takes lx' items' lx'') :
    Takes lx (items ++ items') lx'' := by
  induction h with
  | nil => exact h'
  | next hfound _ ih => exact .next hfound (ih h')

theorem reads {t : SymbolTable} (h : Takes lx items lx') (h' : Reads lx' items' t) :
    Reads lx (items ++ items') t := by
  induction h with
  | nil => exact h'
  | next hfound _ ih => exact .next hfound (ih h')

/-- Tokens in front of a delimiter are read in the same way when more bytes follow. -/
theorem extend (h : Takes lx items lx') (he : Delimits e) (hend : Ended e lx.rest)
    (hok : ∀ l ∈ items, ∃ token, l.token = .ok token) (more : List UInt8) :
    Takes { lx with rest := lx.rest ++ more } items { lx' with rest := lx'.rest ++ more } := by
  induction h with
  | nil => exact .nil _
  | @next lx lx' items hfound _ ih =>
    have hread : ∀ reason, lx.next.1 ≠ .error reason := by
      obtain ⟨token, htoken⟩ := hok _ List.mem_cons_self
      intro reason herror
      cases htoken.symm.trans herror
    obtain ⟨hfound', hnext⟩ := hend.next_append he hfound hread more
    have hrest : Takes ({ lx with rest := lx.rest ++ more } : Lexer).next.2 items
        { lx' with rest := lx'.rest ++ more } := by
      rw [hnext]
      exact ih (hend.of_suffix (next_suffix hfound)) fun l hl => hok l (List.mem_cons_of_mem _ hl)
    have h := Takes.next hfound' hrest
    rwa [hnext] at h

end Takes

/-- Entering a name leaves the names before it as they are. -/
theorem enter_agree (t : SymbolTable) (name : String) :
    SymbolTable.Agree t.size t (enter t name).2 ∧ t.size ≤ (enter t name).2.size := by
  cases hlookup : t.lookup name with
  | some id =>
    rw [enter_of_lookup hlookup]
    exact ⟨⟨fun _ _ => rfl, rfl⟩, le_rfl⟩
  | none =>
    by_cases hroom : t.size < t.capacity
    · rw [enter_of_room hlookup hroom]
      refine ⟨⟨fun id hid => ?_, rfl⟩, ?_⟩
      · exact (Array.getElem?_push_lt hid).trans (Array.getElem?_eq_getElem hid).symm
      · simp [SymbolTable.size, SymbolTable.add]
    · rw [enter_of_full hlookup (Nat.le_of_not_lt hroom)]
      exact ⟨⟨fun _ _ => rfl, rfl⟩, le_rfl⟩

theorem next_agree (lx : Lexer) :
    SymbolTable.Agree lx.symbols.size lx.symbols lx.next.2.symbols ∧
      lx.symbols.size ≤ lx.next.2.symbols.size := by
  rw [next_eq]
  dsimp only
  cases lx.scan.1 with
  | name text => exact enter_agree lx.symbols text
  | eof | other => exact ⟨⟨fun _ _ => rfl, rfl⟩, le_rfl⟩

namespace Takes

variable {lx lx' : Lexer} {items : List Lexeme}

/-- The names that are met are entered behind those of the table. -/
theorem agree (h : Takes lx items lx') :
    SymbolTable.Agree lx.symbols.size lx.symbols lx'.symbols ∧
      lx.symbols.size ≤ lx'.symbols.size := by
  induction h with
  | nil => exact ⟨⟨fun _ _ => rfl, rfl⟩, le_rfl⟩
  | @next lx lx' items _ _ ih =>
    obtain ⟨hagree, hle⟩ := lx.next_agree
    obtain ⟨hagree', hle'⟩ := ih
    refine ⟨⟨fun id hid => ?_, hagree'.scopes_eq.trans hagree.scopes_eq⟩, hle.trans hle'⟩
    rw [hagree'.symbols_eq id (hid.trans_le hle), hagree.symbols_eq id hid]

end Takes

theorem Reads.unique {lx : Lexer} {items items' : List Lexeme} {t t' : SymbolTable}
    (h : Reads lx items t) (h' : Reads lx items' t') : items = items' ∧ t = t' := by
  induction h generalizing items' with
  | eof hfound =>
    cases h' with
    | eof => exact ⟨rfl, rfl⟩
    | next hfound' => exact absurd hfound hfound'
  | next hfound _ ih =>
    cases h' with
    | eof hfound' => exact absurd hfound' hfound
    | next _ hrest =>
      obtain ⟨rfl, rfl⟩ := ih hrest
      exact ⟨rfl, rfl⟩

section Marks

variable {b : UInt8} {rest : List UInt8} {token : Token} (line : Nat) (names : SymbolTable)

theorem takes_operator (hsolid : Source.isSolid b rest = true)
    (hclass : b ≠ 0 ∧ Byte.isLetter b = false ∧ Byte.isDigit b = false ∧ Char.ofUInt8 b ≠ '"' ∧
      Char.ofUInt8 b ≠ '\'') (h : operator b rest = (token, rest)) :
    Takes ⟨b :: rest, line, names⟩ [⟨line, .ok token⟩] ⟨rest, line, names⟩ := by
  have hne := (operator_ne b rest).1
  rw [h] at hne
  exact .token (Source.next_operator hsolid hclass h) hne (.nil _)

/-- Marks that are read alike whatever is behind them. -/
theorem takes_mark (rest : List UInt8)
    (h : (b, token) ∈ [('('.toUInt8, Token.leftParen), (')'.toUInt8, .rightParen),
      ('['.toUInt8, .leftBracket), (']'.toUInt8, .rightBracket), ('*'.toUInt8, .binary .mul)]) :
    Takes ⟨b :: rest, line, names⟩ [⟨line, .ok token⟩] ⟨rest, line, names⟩ := by
  simp only [List.mem_cons, Prod.mk.injEq, List.not_mem_nil, or_false] at h
  rcases h with ⟨rfl, rfl⟩ | ⟨rfl, rfl⟩ | ⟨rfl, rfl⟩ | ⟨rfl, rfl⟩ | ⟨rfl, rfl⟩
  all_goals
    refine takes_operator line names rfl (by decide) ?_
    cases rest <;> rfl

end Marks

end Lexer

namespace Syntax

open Lexer (Takes)

variable {names names' names'' : SymbolTable} {line line' line'' : Nat} {text text' : List UInt8}
  {items items' : List Lexeme} {e e' e₁ e₂ : Expr} {u : Stream} {levels : Nat} {prec : Prec}

/-! ## Texts that are expressions -/

/-- A text in parentheses. -/
def enclosed (text : List UInt8) : List UInt8 := '('.toUInt8 :: (text ++ [')'.toUInt8])

/-- `(base)[(position)]`. -/
def indexText (base position : List UInt8) : List UInt8 :=
  enclosed base ++ '['.toUInt8 :: (enclosed position ++ [']'.toUInt8])

/-- `(base)+(offset)`. -/
def sumText (base offset : List UInt8) : List UInt8 :=
  enclosed base ++ '+'.toUInt8 :: enclosed offset

/-- The lexemes of a text in parentheses, from those of the text. -/
def enclosedItems (line : Nat) (items : List Lexeme) (line' : Nat) : List Lexeme :=
  ⟨line, .ok .leftParen⟩ :: (items ++ [⟨line', .ok .rightParen⟩])

/-- The lexemes of `(base)[(position)]`, from those of the two texts. -/
def indexItems (line : Nat) (base : List Lexeme) (line' : Nat) (position : List Lexeme)
    (line'' : Nat) : List Lexeme :=
  enclosedItems line base line' ++ ⟨line', .ok .leftBracket⟩ ::
    (enclosedItems line' position line'' ++ [⟨line'', .ok .rightBracket⟩])

/-- The lexemes of `(base)+(offset)`, from those of the two texts. -/
def sumItems (line : Nat) (base : List Lexeme) (line' : Nat) (offset : List Lexeme)
    (line'' : Nat) : List Lexeme :=
  enclosedItems line base line' ++ ⟨line', .ok (.binary .add)⟩ :: enclosedItems line' offset line''

/-- The text is read to the lexemes and these to the tree, with a closing parenthesis behind. The
tables and the lines are those before the text and those behind it. The numbers of the names in the
text are numbers of records, as they are with every table that is indexed. -/
structure ReadAs (names : SymbolTable) (line : Nat) (text : List UInt8) (items : List Lexeme)
    (names' : SymbolTable) (line' : Nat) (e : Expr) : Prop where
  takes : Takes ⟨text ++ [')'.toUInt8], line, names⟩ (items ++ [⟨line', .ok .rightParen⟩])
    ⟨[], line', names'⟩
  tokens : ∀ l ∈ items, ∃ token, l.token = .ok token
  known : ∀ l ∈ items, ∀ token, l.token = .ok token → Compile.Known names'.size token
  tree : ∃ levels, (Parser.advance >>= fun _ => Parser.expr levels .assign)
    ⟨.eof, items ++ [⟨line', .ok .rightParen⟩, ⟨line', .ok .eof⟩]⟩ =
      some (e, ⟨.rightParen, [⟨line', .ok .eof⟩]⟩)

/-- A text that is an expression, with the tables and the lines before it and behind it. -/
def IsExpr (names : SymbolTable) (line : Nat) (text : List UInt8) (names' : SymbolTable)
    (line' : Nat) : Prop :=
  ∃ items e, ReadAs names line text items names' line' e

theorem readAs_name (hi : names.Indexed) {id : SymbolId}
    (h : (⟨text ++ [')'.toUInt8], line, names⟩ : Lexer).next =
      (.ok (.ident id), ⟨[')'.toUInt8], line', names'⟩)) :
    ReadAs names line text [⟨line', .ok (.ident id)⟩] names' line' (.name id) := by
  refine ⟨.token h nofun (Lexer.takes_mark line' names' [] (by simp)), by simp, ?_, 1, rfl⟩
  have hknown := Lexer.next_known hi (congrArg Prod.fst h)
  rw [h] at hknown
  intro l hl token htoken
  rw [List.mem_singleton.mp hl] at htoken
  exact Except.ok.inj htoken ▸ hknown

/-- In parentheses a text has its lexemes whatever bytes follow. -/
theorem ReadAs.takes_enclosed (h : ReadAs names line text items names' line' e)
    (more : List UInt8) :
    Takes ⟨enclosed text ++ more, line, names⟩ (enclosedItems line items line')
      ⟨more, line', names'⟩ := by
  have hok : ∀ l ∈ items ++ [⟨line', .ok .rightParen⟩], ∃ token, l.token = .ok token := by
    intro l hl
    rcases List.mem_append.mp hl with hl | hl
    · exact h.tokens l hl
    · exact ⟨.rightParen, by rw [List.mem_singleton.mp hl]⟩
  have hinner := h.takes.extend Lexer.delimits_closeParen (Lexer.ended_append _ _) hok more
  exact (Lexer.takes_mark line names (text ++ [')'.toUInt8] ++ more) (by simp)).append hinner

theorem ReadAs.terminated (h : ReadAs names line text items names' line' e) :
    Compile.Terminated (items ++ [⟨line', .ok .rightParen⟩, ⟨line', .ok .eof⟩]) := by
  have hterminated := (h.takes.reads (.eof rfl)).terminated
  rwa [List.append_assoc] at hterminated

theorem ReadAs.known_enclosed (h : ReadAs names line text items names' line' e) :
    ∀ l ∈ items ++ [⟨line', .ok .rightParen⟩, ⟨line', .ok .eof⟩],
      ∀ token, l.token = .ok token → Compile.Known names'.size token := by
  intro l hl token htoken
  simp only [List.mem_append, List.mem_cons, List.not_mem_nil, or_false] at hl
  rcases hl with hl | rfl | rfl
  · exact h.known l hl token htoken
  · cases htoken
    nofun
  · cases htoken
    nofun

theorem takes_index (h₁ : ReadAs names line text items names' line' e₁)
    (h₂ : ReadAs names' line' text' items' names'' line'' e₂) (more : List UInt8) :
    Takes ⟨indexText text text' ++ more, line, names⟩ (indexItems line items line' items' line'')
      ⟨more, line'', names''⟩ := by
  rw [indexText, List.append_assoc, List.cons_append, List.append_assoc]
  have hclose := Lexer.takes_mark line'' names'' more
    (by simp : (']'.toUInt8, Token.rightBracket) ∈ _)
  have hopen := Lexer.takes_mark line' names' (enclosed text' ++ ([']'.toUInt8] ++ more))
    (by simp : ('['.toUInt8, Token.leftBracket) ∈ _)
  exact (h₁.takes_enclosed _).append (hopen.append ((h₂.takes_enclosed _).append hclose))

theorem takes_sum (h₁ : ReadAs names line text items names' line' e₁)
    (h₂ : ReadAs names' line' text' items' names'' line'' e₂) (more : List UInt8) :
    Takes ⟨sumText text text' ++ more, line, names⟩ (sumItems line items line' items' line'')
      ⟨more, line'', names''⟩ := by
  rw [sumText, List.append_assoc, List.cons_append]
  have hplus : Takes ⟨'+'.toUInt8 :: (enclosed text' ++ more), line', names'⟩
      [⟨line', .ok (.binary .add)⟩] ⟨enclosed text' ++ more, line', names'⟩ :=
    Lexer.takes_operator line' names' rfl (by decide) rfl
  exact (h₁.takes_enclosed _).append (hplus.append (h₂.takes_enclosed more))

/-- What is read in the same way whatever follows is so in parentheses. -/
theorem takes_parentheses
    (h : ∀ more, Takes ⟨text ++ more, line, names⟩ items ⟨more, line', names'⟩)
    (more : List UInt8) :
    Takes ⟨enclosed text ++ more, line, names⟩ (enclosedItems line items line')
      ⟨more, line', names'⟩ := by
  rw [enclosed, List.cons_append, List.append_assoc]
  have hopen := Lexer.takes_mark line names (text ++ ([')'.toUInt8] ++ more))
    (by simp : ('('.toUInt8, Token.leftParen) ∈ _)
  have hclose := Lexer.takes_mark line' names' more
    (by simp : (')'.toUInt8, Token.rightParen) ∈ _)
  exact hopen.append ((h _).append hclose)

/-! ## What the parser makes of them -/

namespace Parser

/-- Where an expression begins there is no type. -/
theorem baseType?_of_expr {st : Stream} {r : Expr × Stream} (h : expr levels prec st = some r)
    (hu : u.current = st.current) : baseType? u = some (none, u) := by
  have hne : ∀ k, k ≠ .sizeofKw → st.current ≠ .keyword k := by
    intro k hk hcurrent
    cases levels with
    | zero => cases h
    | succ levels =>
      rw [expr, bind_apply, unary, bind_apply, current_apply, Option.bind_some, hcurrent] at h
      cases k <;> simp_all
  rw [baseType?, bind_apply, current_apply, Option.bind_some]
  dsimp only
  cases hcurrent : u.current with
  | keyword k =>
    cases k with
    | intKw | charKw => exact absurd (hu ▸ hcurrent) (hne _ (by simp))
    | _ => rfl
  | _ => rfl

theorem whileToken_of_not_more {α : Type} {more : Token → Bool} {body : α → Parser α} {a : α}
    {st : Stream} (h : more st.current = false) : whileToken more body a st = some (a, st) := by
  rw [whileToken, loop, bind_apply, current_apply, Option.bind_some]
  dsimp only
  rw [if_neg (by simp [h])]
  rfl

/-- A loop that goes on with a round and ends behind it. -/
theorem whileToken_of_more {α : Type} {more : Token → Bool} {body : α → Parser α} {a b c : α}
    {st st' : Stream} (hmore : more st.current = true)
    (hbody : ∀ r, body a st = some r → r = (c, st'))
    (hstop : more st'.current = false) (h : whileToken more body a st = some (b, u)) :
    b = c ∧ u = st' := by
  rw [whileToken, loop, bind_apply, current_apply, Option.bind_some] at h
  dsimp only at h
  rw [if_pos hmore, bind_apply, Option.bind_eq_some_iff] at h
  obtain ⟨r, hround, h⟩ := h
  cases hbody r hround
  cases hfuel : st.rest.length with
  | zero =>
    rw [hfuel] at h
    cases h
    exact ⟨rfl, rfl⟩
  | succ fuel =>
    rw [hfuel, loop, bind_apply, current_apply, Option.bind_some] at h
    dsimp only at h
    rw [if_neg (by simp [hstop])] at h
    cases h
    exact ⟨rfl, rfl⟩

end Parser

theorem Stream.closed_eof (current : Token) (line : Nat) :
    Stream.Closed ⟨current, [⟨line, .ok .eof⟩]⟩ := rfl

theorem Stream.Closed.behind {token : Token} {rest : List Lexeme} (h : Stream.Closed ⟨token, rest⟩)
    (current : Token) (front : List Lexeme) (line : Nat) :
    Stream.Closed ⟨current, front ++ ⟨line, .ok token⟩ :: rest⟩ := by
  have hlast : (Except.ok token :: rest.map Lexeme.token).getLast? = some (.ok .eof) := h
  rw [Stream.Closed, Stream.tokens, List.map_append, List.map_cons, ← List.cons_append,
    List.getLast?_append, hlast]
  rfl

/-- Wherever the lexemes stand in front of a closing parenthesis and are read as an expression at
all, they are read as the given one. -/
structure Encloses (items : List Lexeme) (line' : Nat) (e : Expr) : Prop where
  untyped : ∀ {start : Token} {rest : List Lexeme} {u : Stream},
    Parser.advance ⟨start, items ++ ⟨line', .ok .rightParen⟩ :: rest⟩ = some ((), u) →
      Parser.baseType? u = some (none, u)
  unique : ∀ {levels : Nat} {start : Token} {rest : List Lexeme} {e' : Expr} {u : Stream},
    Stream.Closed ⟨.rightParen, rest⟩ → (Parser.advance >>= fun _ => Parser.expr levels .assign)
      ⟨start, items ++ ⟨line', .ok .rightParen⟩ :: rest⟩ = some (e', u) →
    e' = e ∧ u = ⟨.rightParen, rest⟩

theorem ReadAs.encloses (h : ReadAs names line text items names' line' e) :
    Encloses items line' e := by
  obtain ⟨levels, htree⟩ := h.tree
  -- where the parser starts from, only the lexemes matter
  have hstart : ∀ (start : Token) (rest : List Lexeme),
      Parser.advance ⟨start, items ++ ⟨line', .ok .rightParen⟩ :: rest⟩ =
        Parser.advance ⟨.eof, items ++ ⟨line', .ok .rightParen⟩ :: rest⟩ := by
    intro start rest
    cases items <;> rfl
  refine ⟨fun {start rest u} hu => ?_, fun {levels' start rest e' u} hclosed hread => ?_⟩
  · rw [Parser.bind_apply, Option.bind_eq_some_iff] at htree
    obtain ⟨⟨_, v⟩, hv, hexpr⟩ := htree
    refine Parser.baseType?_of_expr hexpr ?_
    rw [hstart] at hu
    cases items with
    | nil =>
      cases hu
      cases hv
      rfl
    | cons first items =>
      obtain ⟨token, htoken⟩ := h.tokens first List.mem_cons_self
      simp only [Parser.advance, List.cons_append, htoken] at hu hv
      cases hu
      cases hv
      rfl
  · rw [Parser.bind_apply, hstart] at hread
    have hbeside : Stream.Beside [⟨line', .ok .eof⟩] rest
        ⟨.eof, items ++ [⟨line', .ok .rightParen⟩, ⟨line', .ok .eof⟩]⟩
        ⟨.eof, items ++ ⟨line', .ok .rightParen⟩ :: rest⟩ := by
      refine ⟨List.cons_ne_nil _ _, rfl, ⟨items ++ [⟨line', .ok .rightParen⟩], ?_, ?_⟩,
        (Stream.closed_eof .rightParen line').behind _ items line', hclosed.behind _ items line'⟩
      · simp
      · simp
    obtain ⟨rfl, hbeside'⟩ | hpast :=
      (Parser.Agree.advance.bind fun _ => .expr levels levels' .assign).same hbeside htree hread
    · obtain ⟨front, hfront, hrest⟩ := hbeside'.common
      obtain rfl : front = [] := by simpa using hfront
      obtain ⟨current, _⟩ := u
      cases hbeside'.current_eq
      cases hrest
      exact ⟨rfl, rfl⟩
    · simp at hpast

/-! ## Indexes and sums -/

/-- In front of a token that does not bind as tightly as the level asks for, the lexemes are read to
the given tree wherever they are read as an expression at all. -/
def Forms (items : List Lexeme) (prec : Prec) (e : Expr) : Prop :=
  ∀ {levels : Nat} {start token : Token} {line : Nat} {rest : List Lexeme} {e' : Expr} {u : Stream},
    Stream.Closed ⟨token, rest⟩ → ¬ prec ≤ token.prec →
    (Parser.advance >>= fun _ => Parser.expr levels prec)
      ⟨start, items ++ ⟨line, .ok token⟩ :: rest⟩ = some (e', u) → e' = e ∧ u = ⟨token, rest⟩

namespace Encloses

variable {token : Token} {rest : List Lexeme}

theorem of_forms {first : Token} (h : Forms (⟨line, .ok first⟩ :: items) .assign e)
    (hfirst : ∀ k, first ≠ .keyword k) : Encloses (⟨line, .ok first⟩ :: items) line' e := by
  refine ⟨fun hu => ?_, fun hclosed hread => h hclosed (by decide) hread⟩
  cases hu
  cases first with
  | keyword k => exact absurd rfl (hfirst k)
  | _ => rfl

/-- The parentheses and what they enclose are an operand. -/
theorem unary_eq (h : Encloses items line' e) (hclosed : Stream.Closed ⟨token, rest⟩)
    {r : Expr × Stream} (hread : Parser.unary (Parser.expr levels)
      ⟨.leftParen, items ++ ⟨line', .ok .rightParen⟩ :: ⟨line'', .ok token⟩ :: rest⟩ = some r) :
    r = (.paren e, ⟨token, rest⟩) := by
  have hparen : Parser.parenthesised (Parser.expr levels)
      ⟨.leftParen, items ++ ⟨line', .ok .rightParen⟩ :: ⟨line'', .ok token⟩ :: rest⟩ = some r :=
    hread
  rw [Parser.parenthesised, Parser.bind_apply, Option.bind_eq_some_iff] at hparen
  obtain ⟨⟨_, v⟩, hadvance, hparen⟩ := hparen
  rw [Parser.bind_apply, h.untyped hadvance, Option.bind_some] at hparen
  dsimp only at hparen
  rw [Parser.bind_apply, Option.bind_eq_some_iff] at hparen
  obtain ⟨⟨e', w⟩, hexpr, hparen⟩ := hparen
  have hinner : (Parser.advance >>= fun _ => Parser.expr levels .assign)
      ⟨.leftParen, items ++ ⟨line', .ok .rightParen⟩ :: ⟨line'', .ok token⟩ :: rest⟩ =
        some (e', w) := by
    rw [Parser.bind_apply, hadvance]
    exact hexpr
  obtain ⟨rfl, rfl⟩ := h.unique (hclosed.behind _ [] _) hinner
  cases hparen
  rfl

/-- Behind an operand in parentheses the operators follow. -/
theorem expr_eq (h : Encloses items line' e) (hclosed : Stream.Closed ⟨token, rest⟩)
    (hread : Parser.expr levels prec
      ⟨.leftParen, items ++ ⟨line', .ok .rightParen⟩ :: ⟨line'', .ok token⟩ :: rest⟩ =
        some (e', u)) :
    ∃ n, levels = n + 1 ∧ Parser.whileToken (fun token => prec ≤ token.prec)
      (Parser.operator (Parser.expr n)) (.paren e) ⟨token, rest⟩ = some (e', u) := by
  cases levels with
  | zero => cases hread
  | succ n =>
    rw [Parser.expr, Parser.bind_apply, Option.bind_eq_some_iff] at hread
    obtain ⟨r, hunary, hread⟩ := hread
    cases h.unary_eq hclosed hunary
    exact ⟨n, rfl, hread⟩

theorem forms (h : Encloses items line' e) (line : Nat) (prec : Prec) :
    Forms (enclosedItems line items line') prec (.paren e) := by
  intro levels start token l rest e' u hclosed hstop hread
  rw [enclosedItems, List.cons_append, List.append_assoc] at hread
  obtain ⟨n, -, hloop⟩ := h.expr_eq hclosed hread
  rw [Parser.whileToken_of_not_more (by simpa using hstop)] at hloop
  cases hloop
  exact ⟨rfl, rfl⟩

end Encloses

/-- A token that ends an expression ends its operands. -/
theorem not_le_of_assign {prec' : Prec} (h : .assign ≤ prec) (h' : ¬ Prec.assign ≤ prec') :
    ¬ prec ≤ prec' := fun hle => h' (Nat.le_trans h hle)

theorem forms_index (h₁ : Encloses items line' e₁) (h₂ : Encloses items' line'' e₂) :
    Forms (indexItems line items line' items' line'') .assign (.index (.paren e₁) (.paren e₂)) := by
  intro levels start token l rest e' u hclosed hstop hread
  have hbehind : Stream.Closed ⟨.rightBracket, ⟨l, .ok token⟩ :: rest⟩ := hclosed.behind _ [] l
  have hinner : Stream.Closed ⟨.leftBracket, enclosedItems line' items' line'' ++
      ⟨line'', .ok .rightBracket⟩ :: ⟨l, .ok token⟩ :: rest⟩ := hbehind.behind _ _ _
  have hexpr : Parser.expr levels .assign ⟨.leftParen, items ++ ⟨line', .ok .rightParen⟩ ::
      ⟨line', .ok .leftBracket⟩ :: (enclosedItems line' items' line'' ++
        ⟨line'', .ok .rightBracket⟩ :: ⟨l, .ok token⟩ :: rest)⟩ = some (e', u) := by
    simpa [indexItems, enclosedItems, Parser.advance] using hread
  obtain ⟨n, -, hloop⟩ := h₁.expr_eq hinner hexpr
  refine Parser.whileToken_of_more rfl (fun r hround => ?_) (by simpa using hstop) hloop
  have hposition : ((Parser.advance >>= fun _ => Parser.expr n .assign)
      ⟨.leftBracket, enclosedItems line' items' line'' ++
        ⟨line'', .ok .rightBracket⟩ :: ⟨l, .ok token⟩ :: rest⟩).bind (fun p =>
          (Parser.expect .rightBracket p.2).bind fun q =>
            some (Expr.index (.paren e₁) p.1, q.2)) = some r := hround
  obtain ⟨⟨e, v⟩, hread', hround'⟩ := Option.bind_eq_some_iff.mp hposition
  obtain ⟨rfl, rfl⟩ := h₂.forms line' .assign hbehind (by decide) hread'
  cases hround'
  rfl

theorem forms_sum (h₁ : Encloses items line' e₁) (h₂ : Encloses items' line'' e₂) :
    Forms (sumItems line items line' items' line'') .assign
      (.binary .add (.paren e₁) (.paren e₂)) := by
  intro levels start token l rest e' u hclosed hstop hread
  have hinner : Stream.Closed ⟨.binary .add, enclosedItems line' items' line'' ++
      ⟨l, .ok token⟩ :: rest⟩ := hclosed.behind _ _ _
  have hexpr : Parser.expr levels .assign ⟨.leftParen, items ++ ⟨line', .ok .rightParen⟩ ::
      ⟨line', .ok (.binary .add)⟩ :: (enclosedItems line' items' line'' ++
        ⟨l, .ok token⟩ :: rest)⟩ = some (e', u) := by
    simpa [sumItems, enclosedItems, Parser.advance] using hread
  obtain ⟨n, -, hloop⟩ := h₁.expr_eq hinner hexpr
  refine Parser.whileToken_of_more rfl (fun r hround => ?_) (by simpa using hstop) hloop
  have hoffset : ((Parser.advance >>= fun _ => Parser.expr n BinOp.add.prec.tighter)
      ⟨.binary .add, enclosedItems line' items' line'' ++ ⟨l, .ok token⟩ :: rest⟩).bind (fun p =>
        some (Expr.binary .add (.paren e₁) p.1, p.2)) = some r := hround
  obtain ⟨⟨e, v⟩, hread', hround'⟩ := Option.bind_eq_some_iff.mp hoffset
  have hstop' := not_le_of_assign (by decide : Prec.assign ≤ BinOp.add.prec.tighter) hstop
  obtain ⟨rfl, rfl⟩ := h₂.forms line' _ hclosed hstop' hread'
  cases hround'
  rfl

/-- An operator in front of an operand in parentheses. -/
theorem forms_inFront (h : Encloses items line' e) {first : Token} {build : Expr → Expr}
    (hfirst : ∀ sub rest, Parser.unary sub ⟨first, rest⟩ = Parser.inFront sub build ⟨first, rest⟩)
    (line : Nat) :
    Forms (⟨line, .ok first⟩ :: enclosedItems line items line') .assign (build (.paren e)) := by
  intro levels start token l rest e' u hclosed hstop hread
  have hexpr : Parser.expr levels .assign
      ⟨first, enclosedItems line items line' ++ ⟨l, .ok token⟩ :: rest⟩ = some (e', u) := hread
  cases levels with
  | zero => cases hexpr
  | succ n =>
    rw [Parser.expr, Parser.bind_apply, hfirst, Option.bind_eq_some_iff] at hexpr
    obtain ⟨r, hunary, hloop⟩ := hexpr
    have hoperand : ((Parser.advance >>= fun _ => Parser.expr n .primary)
        ⟨first, enclosedItems line items line' ++ ⟨l, .ok token⟩ :: rest⟩).bind (fun p =>
          some (build p.1, p.2)) = some r := hunary
    obtain ⟨⟨e₀, v⟩, hread', hbuild⟩ := Option.bind_eq_some_iff.mp hoperand
    have hstop' := not_le_of_assign (by decide : Prec.assign ≤ .primary) hstop
    obtain ⟨rfl, rfl⟩ := h.forms line _ hclosed hstop' hread'
    cases hbuild
    rw [Parser.whileToken_of_not_more (by simpa using hstop)] at hloop
    cases hloop
    exact ⟨rfl, rfl⟩

end Syntax

end MiniC
