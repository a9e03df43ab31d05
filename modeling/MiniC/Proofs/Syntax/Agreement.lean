import MiniC.Proofs.Syntax.Extent

/-!
# What a parser does not depend on

An expression in parentheses is read in the same way whatever stands behind the closing parenthesis,
and however much nesting is left. Two runs are compared that begin with the same tokens and go on
differently behind them (`Beside`). Where both succeed they `Agree`: they yield the same and still
have the same tokens in front of them, unless the first has moved past those that were common.
-/

namespace MiniC.Syntax

/-- Streams with the same lexemes up to where the first has `k` and the second `k'` left. -/
structure Stream.Beside (k k' : List Lexeme) (st st' : Stream) : Prop where
  ne_nil : k ≠ []
  current_eq : st.current = st'.current
  common : ∃ front, st.rest = front ++ k ∧ st'.rest = front ++ k'
  closed : st.Closed
  closed' : st'.Closed

namespace Parser

variable {α β : Type} {x y : Parser α} {f g : α → Parser β} {t : Token}
  {sub sub' : Prec → Parser Expr}

/-! ## Moving on -/

/-- A run that begins at the token `t` moves over a lexeme. -/
def Leaves (t : Token) (x : Parser α) : Prop :=
  ∀ st a st', st.Closed → st.current = t → x st = some (a, st') →
    st'.Closed ∧ st'.rest.length < st.rest.length

theorem Forward.closed {st st' : Stream} {a : α} (hx : Forward x) (hst : st.Closed)
    (h : x st = some (a, st')) : st'.Closed := (hx 0 st a st' hst h).1

theorem Forward.length_le {st st' : Stream} {a : α} (hx : Forward x) (hst : st.Closed)
    (h : x st = some (a, st')) : st'.rest.length ≤ st.rest.length := by
  have hle := (hx 0 st a st' hst h).2
  omega

namespace Leaves

theorem advance (ht : t ≠ .eof) : Leaves t Parser.advance := by
  intro st u st' hclosed hcurrent h
  exact Spends.advance_pays hclosed (hclosed.rest_ne_nil (hcurrent ▸ ht)) h

theorem failure : Leaves t (Alternative.failure : Parser α) := by
  intro st a st' _ _ h
  cases h

theorem bind (hx : Leaves t x) (hf : ∀ a, Forward (f a)) : Leaves t (x >>= f) := by
  intro st b st' hclosed hcurrent h
  rw [bind_apply, Option.bind_eq_some_iff] at h
  obtain ⟨⟨a, st₁⟩, hfirst, hrest⟩ := h
  obtain ⟨hclosed₁, hlt⟩ := hx st a st₁ hclosed hcurrent hfirst
  exact ⟨(hf a).closed hclosed₁ hrest, ((hf a).length_le hclosed₁ hrest).trans_lt hlt⟩

theorem current {f : Token → Parser α} (hf : Leaves t (f t)) : Leaves t (Parser.current >>= f) := by
  rintro st a st' hclosed rfl h
  exact hf st a st' hclosed rfl h

theorem whileToken {more : Token → Bool} {body : α → Parser α} {a : α} (hmore : more t = true)
    (hbody : Leaves t (body a)) (hforward : ∀ a, Forward (body a)) :
    Leaves t (Parser.whileToken more body a) := by
  intro st b st' hclosed hcurrent h
  have hround : Leaves t (Parser.loop more body (st.rest.length + 1) a) := by
    refine .current ?_
    rw [if_pos hmore]
    exact hbody.bind fun a k => Spends.loop (fun a => hforward a k) more _ a
  exact hround st b st' hclosed hcurrent h

theorem literal (bytes read : List UInt8) : Leaves (.string bytes) (Parser.literal read) :=
  .current (.bind (.advance (by simp)) fun _ => .pure _)

theorem text (bytes : List UInt8) : Leaves (.string bytes) Parser.text :=
  .bind (.whileToken rfl (.literal _ _) .literal) fun _ => .pure _

theorem sizeOf (ht : t ≠ .eof) : Leaves t Parser.sizeOf :=
  .bind (.advance ht) fun _ => .bind (.expect _) fun _ => .bind .baseType fun _ =>
    .bind (.pointerLevels _) fun _ => .bind (.expect _) fun _ => .pure _

theorem parenthesised (ht : t ≠ .eof) (hsub : ∀ prec, Forward (sub prec)) :
    Leaves t (Parser.parenthesised sub) := by
  refine .bind (.advance ht) fun _ => .bind .baseType? fun base => ?_
  split
  · exact .bind (.pointerLevels _) fun _ => .bind (.expect _) fun _ => .bind (hsub _) fun _ =>
      .pure _
  · exact .bind (hsub _) fun _ => .bind (.expect _) fun _ => .pure _

theorem inFront (ht : t ≠ .eof) (hsub : ∀ prec, Forward (sub prec)) (build : Expr → Expr) :
    Leaves t (Parser.inFront sub build) :=
  .bind (.advance ht) fun _ => .bind (hsub _) fun _ => .pure _

theorem negation (ht : t ≠ .eof) (hsub : ∀ prec, Forward (sub prec)) :
    Leaves t (Parser.negation sub) := by
  refine .bind (.advance ht) fun _ => .bind .current fun token => ?_
  split
  · exact .bind .advance fun _ => .pure _
  · exact .bind (hsub _) fun _ => .pure _

theorem unary (t : Token) (hsub : ∀ prec, Forward (sub prec)) : Leaves t (Parser.unary sub) := by
  refine .current ?_
  cases t with
  | number n => exact .bind (.advance (by simp)) fun _ => .pure _
  | string bytes => exact .text bytes
  | keyword k =>
    cases k with
    | sizeofKw => exact .sizeOf (by simp)
    | _ => exact .failure
  | ident id =>
    refine .bind (.advance (by simp)) fun _ => .bind .current fun next => ?_
    split
    · exact .call hsub _
    · exact .pure _
  | leftParen => exact .parenthesised (by simp) hsub
  | bang | tilde | increment | decrement => exact .inFront (by simp) hsub _
  | binary op =>
    cases op with
    | mul | and | add => exact .inFront (by simp) hsub _
    | sub => exact .negation (by simp) hsub
    | _ => exact .failure
  | _ => exact .failure

theorem expr (t : Token) (levels : Nat) (prec : Prec) : Leaves t (Parser.expr levels prec) := by
  cases levels with
  | zero => exact .failure
  | succ levels =>
    exact .bind (.unary t (.expr levels)) fun _ => .whileToken (.operator (.expr levels)) _ _

theorem operator (t : Token) (hsub : ∀ prec, Forward (sub prec)) (left : Expr) :
    Leaves t (Parser.operator sub left) := by
  by_cases ht : t = .eof
  · -- the end of the source is no operator
    rintro st a st' - rfl h
    have hnone : Parser.operator sub left st = none := by
      rw [Parser.operator, bind_apply, current_apply, Option.bind_some, ht, bind_apply]
      cases Parser.advance st <;> rfl
    simp [hnone] at h
  · refine .current (.bind (.advance ht) fun _ => ?_)
    split
    · exact .bind (hsub _) fun _ => .pure _
    · exact .bind (hsub _) fun _ => .bind (.expect _) fun _ => .bind (hsub _) fun _ => .pure _
    · exact .bind (hsub _) fun _ => .pure _
    · exact .bind (hsub _) fun _ => .pure _
    · exact .bind (hsub _) fun _ => .pure _
    · exact .pure _
    · exact .pure _
    · exact .bind (hsub _) fun _ => .bind (.expect _) fun _ => .pure _
    · exact .failure

end Leaves

/-! ## Two runs -/

/-- Where both parsers succeed, they yield the same and are still beside each other, unless the
first has moved past the tokens that were common. -/
structure Agree (k k' : List Lexeme) (x y : Parser α) : Prop where
  forward : Forward x
  same : ∀ {st st' : Stream} {a b : α} {u u' : Stream}, st.Beside k k' st' → x st = some (a, u) →
    y st' = some (b, u') → (a = b ∧ u.Beside k k' u') ∨ u.rest.length < k.length

namespace Agree

variable {k k' : List Lexeme}

theorem pure (a : α) : Agree k k' (Pure.pure a) (Pure.pure a) := by
  refine ⟨.pure a, fun hst h h' => ?_⟩
  cases h
  cases h'
  exact .inl ⟨rfl, hst⟩

theorem failure : Agree k k' (Alternative.failure : Parser α) Alternative.failure :=
  ⟨.failure, fun _ h => nomatch h⟩

theorem bind (hx : Agree k k' x y) (hf : ∀ a, Agree k k' (f a) (g a)) :
    Agree k k' (x >>= f) (y >>= g) := by
  refine ⟨.bind hx.forward fun a => (hf a).forward, fun {st st' b b' u u'} hst h h' => ?_⟩
  rw [bind_apply, Option.bind_eq_some_iff] at h h'
  obtain ⟨⟨a, v⟩, hfirst, hrest⟩ := h
  obtain ⟨⟨a', v'⟩, hfirst', hrest'⟩ := h'
  obtain ⟨rfl, hv⟩ | hpast := hx.same hst hfirst hfirst'
  · exact (hf a).same hv hrest hrest'
  · have hle := (hf a).forward.length_le (hx.forward.closed hst.closed hfirst) hrest
    exact .inr (hle.trans_lt hpast)

theorem current : Agree k k' Parser.current Parser.current := by
  refine ⟨.current, fun hst h h' => ?_⟩
  cases h
  cases h'
  exact .inl ⟨hst.current_eq, hst⟩

/-- Moving on leaves the streams beside each other, or takes the first past the common lexemes. -/
theorem advance : Agree k k' Parser.advance Parser.advance := by
  refine ⟨.advance, fun {st st' a b u u'} hst h h' => ?_⟩
  have hclosed := Forward.advance.closed hst.closed h
  have hclosed' := Forward.advance.closed hst.closed' h'
  obtain ⟨front, hrest, hrest'⟩ := hst.common
  have hmoved : ∀ {v w : Stream} {c : Unit} {lexeme : Lexeme} {items : List Lexeme},
      v.rest = lexeme :: items → Parser.advance v = some (c, w) →
        lexeme.token = .ok w.current ∧ w.rest = items := by
    intro v w c lexeme items hv hw
    rw [Parser.advance, hv] at hw
    cases htoken : lexeme.token with
    | error reason => simp [htoken] at hw
    | ok token =>
      simp only [htoken] at hw
      cases hw
      exact ⟨rfl, rfl⟩
  cases front with
  | nil =>
    right
    obtain ⟨lexeme, items, rfl⟩ := List.exists_cons_of_ne_nil hst.ne_nil
    rw [(hmoved hrest h).2]
    exact Nat.lt_succ_self _
  | cons lexeme front =>
    obtain ⟨htoken, hmore⟩ := hmoved hrest h
    obtain ⟨htoken', hmore'⟩ := hmoved hrest' h'
    have hcurrent : u.current = u'.current := Except.ok.inj (htoken.symm.trans htoken')
    exact .inl ⟨rfl, hst.ne_nil, hcurrent, ⟨front, hmore, hmore'⟩, hclosed, hclosed'⟩

/-- A loop whose rounds move on has rounds left for every lexeme, so neither run ends early. -/
theorem loop {more : Token → Bool} {body body' : α → Parser α}
    (hbody : ∀ a, Agree k k' (body a) (body' a))
    (hleaves : ∀ a t, more t = true → Leaves t (body a))
    (hleaves' : ∀ a t, more t = true → Leaves t (body' a)) {fuel fuel' : Nat} {st st' u u' : Stream}
    {a b b' : α} (hfuel : st.rest.length < fuel) (hfuel' : st'.rest.length < fuel')
    (hst : st.Beside k k' st') (h : Parser.loop more body fuel a st = some (b, u))
    (h' : Parser.loop more body' fuel' a st' = some (b', u')) :
    (b = b' ∧ u.Beside k k' u') ∨ u.rest.length < k.length := by
  induction fuel generalizing fuel' st st' a with
  | zero => omega
  | succ fuel ih =>
    obtain ⟨fuel', rfl⟩ : ∃ n, fuel' = n + 1 := ⟨fuel' - 1, by omega⟩
    rw [Parser.loop, bind_apply, current_apply, Option.bind_some] at h h'
    dsimp only at h h'
    rw [← hst.current_eq] at h'
    split_ifs at h h' with hmore
    · rw [bind_apply, Option.bind_eq_some_iff] at h h'
      obtain ⟨⟨a₁, v⟩, hround, h⟩ := h
      obtain ⟨⟨a₁', v'⟩, hround', h'⟩ := h'
      obtain ⟨hclosed, hlt⟩ := hleaves a _ hmore st a₁ v hst.closed rfl hround
      have hlt' := (hleaves' a _ hmore st' a₁' v' hst.closed' hst.current_eq.symm hround').2
      obtain ⟨rfl, hv⟩ | hpast := (hbody a).same hst hround hround'
      · exact ih (by omega) (by omega) hv h h'
      · have hforward : Forward (Parser.loop more body fuel a₁) :=
          fun n => Spends.loop (fun a => (hbody a).forward n) more fuel a₁
        exact .inr ((hforward.length_le hclosed h).trans_lt hpast)
    · cases h
      cases h'
      exact .inl ⟨rfl, hst⟩

theorem whileToken {more : Token → Bool} {body body' : α → Parser α}
    (hbody : ∀ a, Agree k k' (body a) (body' a))
    (hleaves : ∀ a t, more t = true → Leaves t (body a))
    (hleaves' : ∀ a t, more t = true → Leaves t (body' a)) (a : α) :
    Agree k k' (Parser.whileToken more body a) (Parser.whileToken more body' a) :=
  ⟨.whileToken (fun a => (hbody a).forward) more a, fun hst h h' =>
    loop hbody hleaves hleaves' (Nat.lt_succ_self _) (Nat.lt_succ_self _) hst h h'⟩

/-! ## Types and expressions -/

theorem expect (token : Token) : Agree k k' (Parser.expect token) (Parser.expect token) := by
  refine .bind .current fun t => ?_
  split
  · exact .advance
  · exact .failure

theorem skipOver (token : Token) : Agree k k' (Parser.skipOver token) (Parser.skipOver token) := by
  refine .bind .current fun t => ?_
  split
  · exact .advance
  · exact .pure _

theorem baseType? : Agree k k' Parser.baseType? Parser.baseType? := by
  refine .bind .current fun token => ?_
  split
  · exact .bind .advance fun _ => .pure _
  · exact .bind .advance fun _ => .pure _
  · exact .pure _

theorem pointerLevels (type : CType) :
    Agree k k' (Parser.pointerLevels type) (Parser.pointerLevels type) := by
  have hleaves : ∀ (type : CType) t, decide (t = Token.binary .mul) = true →
      Leaves t (do Parser.advance; return type.pointerTo) := by
    intro type t ht
    have hne : t ≠ .eof := by
      rintro rfl
      simp at ht
    exact .bind (.advance hne) fun _ => .pure _
  exact .whileToken (fun _ => .bind .advance fun _ => .pure _) hleaves hleaves type

theorem text : Agree k k' Parser.text Parser.text := by
  have hleaves : ∀ read t, isText t = true → Leaves t (Parser.literal read) := by
    intro read t ht
    cases t with
    | string bytes => exact .literal bytes read
    | _ => cases ht
  refine .bind (.whileToken (fun read => .bind .current fun token => ?_) hleaves hleaves [])
    fun _ => .pure _
  split
  · exact .bind .advance fun _ => .pure _
  · exact .bind .advance fun _ => .pure _

theorem sizeOf : Agree k k' Parser.sizeOf Parser.sizeOf :=
  .bind .advance fun _ => .bind (.expect _) fun _ => .bind (.bind .baseType? fun _ => .pure _)
    fun _ => .bind (.pointerLevels _) fun _ => .bind (.expect _) fun _ => .pure _

theorem argument (hsub : ∀ prec, Agree k k' (sub prec) (sub' prec)) :
    Agree k k' (Parser.argument sub) (Parser.argument sub') :=
  .bind (hsub _) fun _ => .bind (.skipOver _) fun _ => .pure _

theorem call (hsub : ∀ prec, Agree k k' (sub prec) (sub' prec))
    (hleaves : ∀ t prec, Leaves t (sub prec)) (hleaves' : ∀ t prec, Leaves t (sub' prec))
    (id : SymbolId) : Agree k k' (Parser.call sub id) (Parser.call sub' id) := by
  have hround : ∀ {sub : Prec → Parser Expr} (_ : ∀ t prec, Leaves t (sub prec))
      (args : List Expr) (t : Token), decide (t ≠ Token.rightParen) = true →
      Leaves t (do return args ++ [← Parser.argument sub]) := fun hsub _ t _ =>
    .bind (.bind (hsub t _) fun _ => .bind (.skipOver _) fun _ => .pure _) fun _ => .pure _
  exact .bind .advance fun _ =>
    .bind (.whileToken (fun _ => .bind (.argument hsub) fun _ => .pure _) (hround hleaves)
      (hround hleaves') []) fun _ => .bind .advance fun _ => .pure _

theorem operator (hsub : ∀ prec, Agree k k' (sub prec) (sub' prec)) (left : Expr) :
    Agree k k' (Parser.operator sub left) (Parser.operator sub' left) := by
  refine .bind .current fun token => .bind .advance fun _ => ?_
  split
  · exact .bind (hsub _) fun _ => .pure _
  · exact .bind (hsub _) fun _ => .bind (.expect _) fun _ => .bind (hsub _) fun _ => .pure _
  · exact .bind (hsub _) fun _ => .pure _
  · exact .bind (hsub _) fun _ => .pure _
  · exact .bind (hsub _) fun _ => .pure _
  · exact .pure _
  · exact .pure _
  · exact .bind (hsub _) fun _ => .bind (.expect _) fun _ => .pure _
  · exact .failure

theorem parenthesised (hsub : ∀ prec, Agree k k' (sub prec) (sub' prec)) :
    Agree k k' (Parser.parenthesised sub) (Parser.parenthesised sub') := by
  refine .bind .advance fun _ => .bind .baseType? fun base => ?_
  cases base with
  | some base =>
    exact .bind (.pointerLevels _) fun _ => .bind (.expect _) fun _ => .bind (hsub _) fun _ =>
      .pure _
  | none => exact .bind (hsub _) fun _ => .bind (.expect _) fun _ => .pure _

theorem inFront (hsub : ∀ prec, Agree k k' (sub prec) (sub' prec)) (build : Expr → Expr) :
    Agree k k' (Parser.inFront sub build) (Parser.inFront sub' build) :=
  .bind .advance fun _ => .bind (hsub _) fun _ => .pure _

theorem negation (hsub : ∀ prec, Agree k k' (sub prec) (sub' prec)) :
    Agree k k' (Parser.negation sub) (Parser.negation sub') := by
  refine .bind .advance fun _ => .bind .current fun token => ?_
  split
  · exact .bind .advance fun _ => .pure _
  · exact .bind (hsub _) fun _ => .pure _

theorem unary (hsub : ∀ prec, Agree k k' (sub prec) (sub' prec))
    (hleaves : ∀ t prec, Leaves t (sub prec)) (hleaves' : ∀ t prec, Leaves t (sub' prec)) :
    Agree k k' (Parser.unary sub) (Parser.unary sub') := by
  refine .bind .current fun token => ?_
  cases token with
  | number n => exact .bind .advance fun _ => .pure _
  | string bytes => exact .text
  | keyword k =>
    cases k with
    | sizeofKw => exact .sizeOf
    | _ => exact .failure
  | ident id =>
    refine .bind .advance fun _ => .bind .current fun next => ?_
    split
    · exact .call hsub hleaves hleaves' _
    · exact .pure _
  | leftParen => exact .parenthesised hsub
  | bang | tilde | increment | decrement => exact .inFront hsub _
  | binary op =>
    cases op with
    | mul | and | add => exact .inFront hsub _
    | sub => exact .negation hsub
    | _ => exact .failure
  | _ => exact .failure

/-- The nesting that is left makes no difference to what is read. -/
theorem expr (levels levels' : Nat) (prec : Prec) :
    Agree k k' (Parser.expr levels prec) (Parser.expr levels' prec) := by
  induction levels generalizing levels' prec with
  | zero => exact ⟨.failure, fun _ h => nomatch h⟩
  | succ levels ih =>
    cases levels' with
    | zero => exact ⟨.expr _ prec, fun _ _ h' => nomatch h'⟩
    | succ levels' =>
      refine .bind (.unary (ih levels') (fun t => .expr t levels) fun t => .expr t levels')
        fun first => .whileToken (.operator (ih levels'))
          (fun a t _ => .operator t (.expr levels) a) (fun a t _ => .operator t (.expr levels') a)
          first

end Agree

end Parser

end MiniC.Syntax
