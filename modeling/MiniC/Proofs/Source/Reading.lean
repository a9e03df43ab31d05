import MiniC.Proofs.Source.Lexing
import MiniC.Proofs.Syntax.Parser

/-!
# What parsers read from printed tokens

A parser that succeeds on printed tokens yields what was printed. It need not succeed: a name may
not have been read, and trees may nest too deeply. `Yields` states this for one parser, and the
statement for a parser follows from those for the parsers that it is put together from. Loops take
one token at least on every pass, so their fuel lasts.
-/

namespace MiniC.Source

open Syntax (Stream Parser)

/-- Where printed tokens are read: the numbers of the names, and the lexemes behind the tokens. -/
structure Reading where
  table : SymbolTable
  first : Lexeme
  more : List Lexeme

instance : Coe Reading SymbolTable := ⟨Reading.table⟩

/-- The token that a stream with the given tokens in front looks at. -/
def headToken (t : Reading) : List Lex → Token
  | [] => t.first.token.toOption.getD .eof
  | l :: _ => l.token t

/-- A stream that looks at the first of the given tokens, with the others behind it. -/
def Spells (t : Reading) : List Lex → Stream → Prop
  | [], st => t.first.token = .ok st.current ∧ st.rest = t.more
  | l :: ls, st => st.current = l.token t ∧ l.Found t ∧ Follows t (t.first :: t.more) ls st.rest

/-- In front of `rest`, the parser yields `a` for the tokens `ls`, if it succeeds. -/
def Yields {α : Type} (t : Reading) (x : Parser α) (ls : List Lex) (a : α) (rest : List Lex) :
    Prop :=
  ∀ st a' st', Spells t (ls ++ rest) st → x st = some (a', st') →
    a' = a ∧ Spells t rest st' ∧ ∀ l ∈ ls, l.Found t

variable {t : Reading}

theorem Spells.current_eq {ls : List Lex} {st : Stream} (h : Spells t ls st) :
    st.current = headToken t ls := by
  cases ls with
  | nil => rw [headToken, h.1, Except.toOption, Option.getD_some]
  | cons l ls => exact h.1

theorem Follows.length_le {ls : List Lex} : ∀ {lexemes : List Lexeme},
    Follows t (t.first :: t.more) ls lexemes → ls.length < lexemes.length := by
  induction ls with
  | nil =>
    rintro _ rfl
    simp
  | cons l ls ih =>
    intro lexemes h
    cases lexemes with
    | nil => exact h.elim
    | cons lexeme lexemes => exact Nat.succ_lt_succ (ih h.2)

theorem Spells.length_le {ls : List Lex} {st : Stream} (h : Spells t ls st) :
    ls.length ≤ st.rest.length := by
  cases ls with
  | nil => simp
  | cons l ls => exact h.2.2.length_le

/-- Moving on looks at the first of the tokens behind. -/
theorem Spells.of_advance {ls : List Lex} {st st' : Stream} {u : Unit}
    (h : Follows t (t.first :: t.more) ls st.rest)
    (hadvance : Syntax.Parser.advance st = some (u, st')) : Spells t ls st' := by
  unfold Syntax.Parser.advance at hadvance
  cases ls with
  | nil =>
    rw [show st.rest = _ from h] at hadvance
    cases hfirst : t.first.token with
    | error reason => simp [hfirst] at hadvance
    | ok token =>
      simp only [hfirst, Option.some.injEq, Prod.mk.injEq] at hadvance
      obtain ⟨-, rfl⟩ := hadvance
      exact ⟨hfirst, rfl⟩
  | cons l ls =>
    cases hrest : st.rest with
    | nil =>
      rw [hrest] at h
      exact h.elim
    | cons lexeme lexemes =>
      rw [hrest] at h
      obtain ⟨⟨htoken, hfound⟩ | ⟨reason, htoken⟩, hfollows⟩ := h
      · simp only [hrest, htoken, Option.some.injEq, Prod.mk.injEq] at hadvance
        obtain ⟨-, rfl⟩ := hadvance
        exact ⟨rfl, hfound, hfollows⟩
      · simp [hrest, htoken] at hadvance

namespace Yields

variable {α β : Type} {ls ls' rest : List Lex} {a : α} {b : β}

theorem pure (a : α) (rest : List Lex) : Yields t (pure a) [] a rest := by
  intro st a' st' hst h
  simp only [Syntax.Parser.pure_apply, Option.some.injEq, Prod.mk.injEq] at h
  obtain ⟨rfl, rfl⟩ := h
  exact ⟨rfl, hst, by simp⟩

theorem failure (ls rest : List Lex) (a : α) : Yields t failure ls a rest := by
  intro st a' st' _ h
  simp at h

theorem bind {x : Parser α} {f : α → Parser β} (hx : Yields t x ls a (ls' ++ rest))
    (hf : Yields t (f a) ls' b rest) : Yields t (x >>= f) (ls ++ ls') b rest := by
  intro st b' st' hst h
  rw [Syntax.Parser.bind_apply, Option.bind_eq_some_iff] at h
  obtain ⟨⟨a', st₁⟩, h₁, h₂⟩ := h
  rw [List.append_assoc] at hst
  obtain ⟨rfl, hst₁, hfound₁⟩ := hx st a' st₁ hst h₁
  obtain ⟨rfl, hst', hfound₂⟩ := hf st₁ b' st' hst₁ h₂
  refine ⟨rfl, hst', fun l hl => ?_⟩
  exact (List.mem_append.mp hl).elim (hfound₁ l) (hfound₂ l)

theorem bind_nil {x : Parser α} {f : α → Parser β} (hx : Yields t x [] a (ls ++ rest))
    (hf : Yields t (f a) ls b rest) : Yields t (x >>= f) ls b rest :=
  hx.bind hf

/-- What reads nothing at the end. -/
theorem bind_last {x : Parser α} {f : α → Parser β} (hx : Yields t x ls a rest)
    (hf : Yields t (f a) [] b rest) : Yields t (x >>= f) ls b rest := by
  rw [← List.append_nil ls]
  exact hx.bind hf

theorem bind_pure {x : Parser α} {f : α → β} (hx : Yields t x ls a rest) :
    Yields t (x >>= fun a => Pure.pure (f a)) ls (f a) rest :=
  hx.bind_last (pure (f a) rest)

/-- What looks at the current token. -/
theorem current {f : Token → Parser β} (hf : Yields t (f (headToken t (ls ++ rest))) ls b rest) :
    Yields t (Syntax.Parser.current >>= f) ls b rest := by
  intro st b' st' hst h
  simp only [Syntax.Parser.bind_apply, Syntax.Parser.current_apply, Option.bind_some,
    hst.current_eq] at h
  exact hf st b' st' hst h

theorem advance_unit (l : Lex) (rest : List Lex) : Yields t Syntax.Parser.advance [l] () rest := by
  rintro st a' st' ⟨-, hfound, hfollows⟩ h
  exact ⟨rfl, .of_advance hfollows h, by simpa using hfound⟩

theorem advance {l : Lex} {f : Unit → Parser β} (hf : Yields t (f ()) ls b rest) :
    Yields t (Syntax.Parser.advance >>= f) (l :: ls) b rest :=
  (advance_unit l (ls ++ rest)).bind hf

theorem expect {l : Lex} {token : Token} {f : Unit → Parser β} (hl : l.token t = token)
    (hf : Yields t (f ()) ls b rest) :
    Yields t (Syntax.Parser.expect token >>= f) (l :: ls) b rest := by
  have hexpect : Yields t (Syntax.Parser.expect token) [l] () (ls ++ rest) := by
    refine current ?_
    show Yields t (if l.token t = token then _ else _) _ _ _
    rw [if_pos hl]
    exact advance_unit l (ls ++ rest)
  exact hexpect.bind hf

/-- A token that may be left out, where it is there. -/
theorem skipOver {l : Lex} {token : Token} {f : Unit → Parser β} (hl : l.token t = token)
    (hf : Yields t (f ()) ls b rest) :
    Yields t (Syntax.Parser.skipOver token >>= f) (l :: ls) b rest := by
  have hskip : Yields t (Syntax.Parser.skipOver token) [l] () (ls ++ rest) := by
    refine current ?_
    show Yields t (if l.token t = token then _ else _) _ _ _
    rw [if_pos hl]
    exact advance_unit l (ls ++ rest)
  exact hskip.bind hf

theorem skipOver_of_ne {token : Token} {f : Unit → Parser β} (hl : headToken t (ls ++ rest) ≠ token)
    (hf : Yields t (f ()) ls b rest) :
    Yields t (Syntax.Parser.skipOver token >>= f) ls b rest := by
  have hskip : Yields t (Syntax.Parser.skipOver token) [] () (ls ++ rest) := by
    refine current ?_
    rw [List.nil_append, if_neg hl]
    exact pure () _
  exact hskip.bind hf

theorem skipOver_pure {token : Token} (h : headToken t rest ≠ token) :
    Yields t (Syntax.Parser.skipOver token >>= fun _ => Pure.pure a) [] a rest :=
  skipOver_of_ne h (pure a rest)

end Yields

/-! ## Loops -/

/-- In front of `rest`, the loop yields `b` for the tokens `ls`, with one pass for each at most. -/
def Loops {α : Type} (t : Reading) (more : Token → Bool) (body : α → Parser α) (a : α)
    (ls : List Lex) (b : α) (rest : List Lex) : Prop :=
  ∀ fuel, ls.length ≤ fuel → Yields t (Syntax.Parser.loop more body fuel a) ls b rest

namespace Loops

variable {α : Type} {more : Token → Bool} {body : α → Parser α} {ls ls' rest : List Lex} {a b c : α}

theorem stop (h : more (headToken t rest) = false) : Loops t more body a [] a rest := by
  intro fuel _
  cases fuel with
  | zero => exact .pure a rest
  | succ fuel =>
    refine Yields.current ?_
    rw [List.nil_append, h]
    exact .pure a rest

theorem pass (h : more (headToken t (ls ++ (ls' ++ rest))) = true) (hne : ls ≠ [])
    (hbody : Yields t (body a) ls b (ls' ++ rest)) (hloop : Loops t more body b ls' c rest) :
    Loops t more body a (ls ++ ls') c rest := by
  intro fuel hfuel
  have hpos := List.length_pos_iff.mpr hne
  rw [List.length_append] at hfuel
  obtain ⟨fuel, rfl⟩ := Nat.exists_eq_succ_of_ne_zero (show fuel ≠ 0 by omega)
  refine Yields.current ?_
  rw [List.append_assoc, h]
  exact hbody.bind (hloop fuel (by omega))

theorem whileToken (h : Loops t more body a ls b rest) :
    Yields t (Syntax.Parser.whileToken more body a) ls b rest := by
  intro st b' st' hst hwhile
  have hle := hst.length_le
  rw [List.length_append] at hle
  exact h (st.rest.length + 1) (by omega) st b' st' hst hwhile

end Loops

/-- In front of `rest`, the items of the tokens `ls` are collected. -/
def Collects {α : Type} (t : Reading) (more : Token → Bool) (item : Parser α) (ls : List Lex)
    (items : List α) (rest : List Lex) : Prop :=
  ∀ read, Loops t more (fun items => do return items ++ [← item]) read ls (read ++ items) rest

namespace Collects

variable {α : Type} {more : Token → Bool} {item : Parser α} {ls ls' rest : List Lex} {a : α}
  {items : List α}

theorem nil (h : more (headToken t rest) = false) : Collects t more item [] [] rest := by
  intro read
  rw [List.append_nil]
  exact .stop h

theorem cons (h : more (headToken t (ls ++ (ls' ++ rest))) = true) (hne : ls ≠ [])
    (hitem : Yields t item ls a (ls' ++ rest)) (hitems : Collects t more item ls' items rest) :
    Collects t more item (ls ++ ls') (a :: items) rest := by
  intro read
  rw [List.append_cons]
  exact .pass h hne hitem.bind_pure (hitems _)

theorem one (h : more (headToken t (ls ++ rest)) = true) (hne : ls ≠ [])
    (hitem : Yields t item ls a rest) (hstop : more (headToken t rest) = false) :
    Collects t more item ls [a] rest := by
  rw [← List.append_nil ls]
  exact .cons h hne hitem (.nil hstop)

theorem collect (h : Collects t more item ls items rest) :
    Yields t (Syntax.Parser.collect more item) ls items rest :=
  (h []).whileToken

end Collects

/-! ## Types -/

theorem baseType?_yields (rest : List Lex) :
    Yields t Syntax.Parser.baseType? [.keyword .intKw] (some .int) rest :=
  Yields.current (.advance (.pure (some CType.int) rest))

theorem baseType?_of_ne {rest : List Lex} (h : ∀ k, headToken t rest ≠ .keyword k) :
    Yields t Syntax.Parser.baseType? [] none rest := by
  refine Yields.current ?_
  rw [List.nil_append]
  split
  · rename_i heq
    exact absurd heq (h _)
  · rename_i heq
    exact absurd heq (h _)
  · exact .pure none rest

theorem baseType_yields (rest : List Lex) :
    Yields t Syntax.Parser.baseType [.keyword .intKw] .int rest := by
  exact (baseType?_yields rest).bind_last (.pure CType.int rest)

theorem pointerLevels_yields (type : CType) {rest : List Lex}
    (h : headToken t rest ≠ .binary .mul) :
    Yields t (Syntax.Parser.pointerLevels type) [] type rest :=
  Loops.whileToken (.stop (by simpa using h))

/-! ## Heads -/

theorem headToken_append {ls : List Lex} (h : ls ≠ []) (rest : List Lex) :
    headToken t (ls ++ rest) = headToken t ls := by
  cases ls with
  | nil => exact absurd rfl h
  | cons l ls => rfl

end MiniC.Source
