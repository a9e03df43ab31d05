import MiniC.Proofs.Compiling.Cutoff
import MiniC.Proofs.Compiling.Interruption
import MiniC.Proofs.Compiling.Composition
import MiniC.Proofs.Names.Table

/-!
# Keywords are never bound

A source is read before it is compiled, with a table of names that compiling then changes. It could
as well be read on the way, since nothing that compiling does to the table shows in the tokens: only
names that have been read as identifiers are bound, at file level and in scopes, so no keyword ever
is (`Guarded`). Whatever the table has become, a name is read as it was with the table of names
alone (`Lexer.nameToken_guarded`, `Lexer.Reads.reread`).

The invariant that carries this is `Sound`. It also says that a name is not bound before it has been
met: `met` counts the names met by the number of lexemes that are left.
-/

namespace MiniC

namespace SymbolTable

variable {names t t' : SymbolTable} {m m' : Nat} {id : SymbolId}

/-- A number that is not a keyword's. -/
def Plain (names : SymbolTable) (id : SymbolId) : Prop :=
  ∀ k, (names.fileBinding id).kind ≠ .keyword k

/-- A table that differs from the table of names by its scopes and by what plain names stand for, of
the first `m` names at most. -/
structure Guarded (names : SymbolTable) (m : Nat) (t : SymbolTable) : Prop where
  sameNames : SameNames names t
  keyword_iff : ∀ id k,
    (t.fileBinding id).kind = .keyword k ↔ (names.fileBinding id).kind = .keyword k
  locals : ∀ scope ∈ t.scopes, ∀ e ∈ scope, Plain names e.1 ∧ e.2.kind = .localVar
  unbound : ∀ id, m ≤ id → t.fileBinding id = .unbound

namespace Guarded

theorem mono (h : Guarded names m t) (hm : m ≤ m') : Guarded names m' t :=
  ⟨h.sameNames, h.keyword_iff, h.locals, fun id hid => h.unbound id (hm.trans hid)⟩

theorem define {b : Binding} (h : Guarded names m t) (hplain : Plain names id) (hid : id < m)
    (hb : ∀ k, b.kind ≠ .keyword k) (hdefine : t.define? id b = some t') : Guarded names m t' where
  sameNames := h.sameNames.trans (sameNames_define hdefine)
  keyword_iff x k := by
    by_cases hx : x = id
    · subst hx
      have hnot : (t'.fileBinding x).kind ≠ .keyword k := by
        rcases fileBinding_define_or hdefine x with heq | heq
        · rw [heq, Ne, h.keyword_iff]
          exact hplain k
        · rw [heq]
          exact hb k
      exact iff_of_false hnot (hplain k)
    · rw [fileBinding_of_ne hdefine (.inl hx)]
      exact h.keyword_iff x k
  locals := by
    rw [scopes_define hdefine]
    exact h.locals
  unbound x hx := by
    rw [fileBinding_of_ne hdefine (.inl (Nat.ne_of_gt (hid.trans_le hx)))]
    exact h.unbound x hx

theorem openScope (h : Guarded names m t) : Guarded names m t.openScope := by
  refine ⟨h.sameNames.trans ⟨rfl, rfl, rfl⟩, h.keyword_iff, fun scope hscope e he => ?_, h.unbound⟩
  rcases List.mem_cons.mp hscope with rfl | hscope
  · simp at he
  · exact h.locals scope hscope e he

theorem closeScope (h : Guarded names m t) : Guarded names m t.closeScope :=
  ⟨h.sameNames.trans ⟨rfl, rfl, rfl⟩, h.keyword_iff,
    fun scope hscope => h.locals scope (List.mem_of_mem_tail hscope), h.unbound⟩

theorem declareLocal {type : CType} {slot : Word} (h : Guarded names m t) (hplain : Plain names id)
    (hdeclare : t.declareLocal? id type slot = some t') : Guarded names m t' := by
  have hsame := h.sameNames.trans (sameNames_declareLocal hdeclare)
  rw [declareLocal?] at hdeclare
  cases hscopes : t.scopes with
  | nil => simp [hscopes] at hdeclare
  | cons scope outer =>
    simp only [hscopes] at hdeclare
    split at hdeclare
    · simp at hdeclare
    · obtain rfl := Option.some.inj hdeclare
      have hlocals := h.locals
      rw [hscopes] at hlocals
      refine ⟨hsame, h.keyword_iff, fun scope' hscope' e he => ?_, h.unbound⟩
      rcases List.mem_cons.mp hscope' with rfl | hscope'
      · rcases List.mem_cons.mp he with rfl | he
        · exact ⟨hplain, rfl⟩
        · exact hlocals scope List.mem_cons_self e he
      · exact hlocals scope' (List.mem_cons_of_mem _ hscope') e he

end Guarded

/-- A table of names, none of which is bound from `m` on. -/
theorem guarded_self (hf : t.Fresh) (hunbound : ∀ id, m ≤ id → t.fileBinding id = .unbound) :
    Guarded t m t :=
  ⟨⟨rfl, rfl, rfl⟩, fun _ _ => Iff.rfl, by simp [hf.scopes_eq], hunbound⟩

/-- What entering a name does to the records from the builtin ones on: they are not bound. -/
theorem unbound_of_intern {name : String} (h : t.intern name = .ok (id, t'))
    (hunbound : ∀ x, builtinSymbols.length ≤ x → t.fileBinding x = .unbound) :
    ∀ x, builtinSymbols.length ≤ x → t'.fileBinding x = .unbound := by
  rcases intern_cases h with ⟨-, rfl⟩ | ⟨-, -, -, rfl⟩
  · exact hunbound
  intro x hx
  have hold := hunbound x hx
  rw [fileBinding] at hold ⊢
  rw [add, Array.getElem?_push]
  split_ifs
  · rfl
  · exact hold

end SymbolTable

namespace Lexer

open SymbolTable (Plain Guarded SameNames)

variable {names t : SymbolTable} {m : Nat} {lx : Lexer} {items : List Lexeme}

theorem nameToken_eq_of_kind {t t' : SymbolTable} {id : SymbolId}
    (h : ∀ k, (t'.binding id).kind = .keyword k ↔ (t.binding id).kind = .keyword k) :
    nameToken t' id = nameToken t id := by
  unfold nameToken
  cases hkind : (t.binding id).kind with
  | keyword k => rw [(h k).mpr hkind]
  | _ =>
    cases hkind' : (t'.binding id).kind with
    | keyword k =>
      have hk := (h k).mp hkind'
      rw [hkind] at hk
      cases hk
    | _ => rfl

/-- A name is read in the same way with a guarded table as with the table of names. -/
theorem nameToken_guarded (h : Guarded names m t) (hnames : names.scopes = []) (id : SymbolId) :
    nameToken t id = nameToken names id := by
  refine nameToken_eq_of_kind fun k => ?_
  rw [SymbolTable.binding_of_scopes_nil hnames, SymbolTable.binding]
  cases hscopes : t.scopes with
  | nil => exact h.keyword_iff id k
  | cons scope outer =>
    dsimp only
    cases hlookup : scope.lookup id with
    | none => exact h.keyword_iff id k
    | some b =>
      obtain ⟨front, back, hscope, -⟩ := List.lookup_eq_some_iff.mp hlookup
      -- a local hides the name, which is plain, so neither table has a keyword here
      have hentry := h.locals scope (hscopes ▸ List.mem_cons_self) (id, b) (by simp [hscope])
      have hlocal : b.kind = .localVar := hentry.2
      exact iff_of_false (by simp [hlocal]) (hentry.1 k)

/-- The lexer behind `k` lexemes. -/
def behind (lx : Lexer) (k : Nat) : Lexer := (fun lx => lx.next.2)^[k] lx

/-- How many names are met in `k` lexemes, the builtin ones included. -/
def met (lx : Lexer) (k : Nat) : Nat := (lx.behind k).symbols.size

theorem size_le_met (hf : lx.symbols.Fresh) (k : Nat) : lx.symbols.size ≤ lx.met k := by
  induction k generalizing lx with
  | zero => exact le_rfl
  | succ k ih =>
    have hle := (next_grows hf).length_le
    rw [Array.length_toList, Array.length_toList] at hle
    exact hle.trans (ih (next_fresh hf))

theorem met_mono (hf : lx.symbols.Fresh) : Monotone lx.met := by
  intro j k hjk
  induction j generalizing lx k with
  | zero => exact size_le_met hf k
  | succ j ih =>
    obtain ⟨k, rfl⟩ := Nat.exists_eq_succ_of_ne_zero (Nat.ne_zero_of_lt hjk)
    exact ih (next_fresh hf) (Nat.le_of_succ_le_succ hjk)

/-- A token is read for a name, as the table of all names has it, or without looking at a table. -/
theorem next_ok {token : Token} (hf : lx.symbols.Fresh) (hnames : names.Fresh)
    (hgrows : lx.next.2.symbols.symbols.toList <+: names.symbols.toList)
    (h : lx.next.1 = .ok token) :
    (∃ name id, lx.scan.1 = .name name ∧ names.lookup name = some id ∧
        token = nameToken names id) ∨
      (∀ t, (lx.scan.1.resolve t).1 = .ok token) ∧ ∀ id, token ≠ .ident id := by
  have hfresh := next_fresh hf
  rw [next_eq] at h hgrows hfresh
  dsimp only at h hgrows hfresh
  cases hfound : lx.scan.1 with
  | eof =>
    rw [hfound] at h
    cases h
    exact .inr ⟨fun _ => rfl, by simp⟩
  | other found =>
    rw [hfound] at h
    cases h
    exact .inr ⟨fun _ => rfl, (found_other hfound).2⟩
  | name text =>
    simp only [hfound, Found.resolve, enter] at h hgrows hfresh
    cases hintern : lx.symbols.intern text with
    | error reason => simp [hintern] at h
    | ok r =>
      simp only [hintern, Except.ok.injEq] at h hgrows hfresh
      have hlookup := (SymbolTable.intern_ok hintern hf).1
      obtain ⟨_, hs, -⟩ := SymbolTable.getElem?_of_lookup hfresh.indexed hlookup
      have hlookup' := SymbolTable.lookup_mono hfresh.indexed hnames.indexed hgrows hlookup
      refine .inl ⟨text, r.1, rfl, hlookup', h.symm.trans ?_⟩
      exact (nameToken_eq (.of_grows hfresh hnames hgrows)
        (Array.getElem?_eq_some_iff.mp hs).1).symm

/-- A token that is an identifier only for a plain name of the first `m`. -/
def Fits (names : SymbolTable) (m : Nat) (token : Token) : Prop :=
  ∀ id, token = .ident id → Plain names id ∧ id < m

theorem next_fits {token : Token} (hf : lx.symbols.Fresh) (hnames : names.Fresh)
    (hgrows : lx.next.2.symbols.symbols.toList <+: names.symbols.toList)
    (h : lx.next.1 = .ok token) : Fits names lx.next.2.symbols.size token := by
  rintro id rfl
  refine ⟨fun k hk => ?_, next_known hf.indexed h id rfl⟩
  rcases next_ok hf hnames hgrows h with ⟨name, id', -, -, htoken⟩ | ⟨-, hnot⟩
  · obtain ⟨k', hk'⟩ | hid := nameToken_cases names id'
    · simp [hk'] at htoken
    · obtain rfl : id = id' := by simpa [hid] using htoken
      rw [nameToken, SymbolTable.binding_of_scopes_nil hnames.scopes_eq, hk] at hid
      cases hid
  · exact hnot id rfl

/-- An identifier that is read is a plain name, and has been met. -/
theorem Reads.fits (h : Reads lx items names) (hf : lx.symbols.Fresh) {l : Lexeme}
    {back : List Lexeme} (hl : l :: back <:+ items) {token : Token} (htoken : l.token = .ok token) :
    Fits names (lx.met (items.length - back.length)) token := by
  have hnames := (h.grows hf).2
  induction h with
  | eof =>
    obtain ⟨rfl, -⟩ : l = _ ∧ back = [] := by simpa using List.suffix_cons_iff.mp hl
    cases htoken
    simp [Fits]
  | @next lx items names _ hrest ih =>
    rcases List.suffix_cons_iff.mp hl with heq | hl
    · obtain ⟨rfl, rfl⟩ := List.cons.inj heq
      have hfits := next_fits hf hnames (hrest.grows (next_fresh hf)).1 htoken
      rwa [List.length_cons, Nat.add_sub_cancel_left]
    · have hlength := hl.length_le
      rw [List.length_cons] at hlength
      -- counted from behind the first lexeme it is one reading less
      rw [List.length_cons, Nat.succ_sub (by omega)]
      exact ih (next_fresh hf) hl hnames

theorem next_guarded {token : Token} (hf : lx.symbols.Fresh) (hnames : names.Fresh)
    (hgrows : lx.next.2.symbols.symbols.toList <+: names.symbols.toList) (ht : Guarded names m t)
    (h : lx.next.1 = .ok token) : { lx with symbols := t }.next.1 = .ok token := by
  rw [next_eq]
  show (lx.scan.1.resolve t).1 = .ok token
  rcases next_ok hf hnames hgrows h with ⟨name, id, hfound, hlookup, rfl⟩ | ⟨htoken, -⟩
  · rw [← ht.sameNames.lookup_eq] at hlookup
    rw [hfound, Found.resolve, enter_of_lookup hlookup, nameToken_guarded ht hnames.scopes_eq]
  · exact htoken t

/-- Whatever the table has become, the tokens of the source would be read again as they were. -/
theorem Reads.reread (h : Reads lx items names) (hf : lx.symbols.Fresh) (ht : Guarded names m t)
    {j : Nat} {l : Lexeme} {token : Token} (hl : items[j]? = some l)
    (htoken : l.token = .ok token) :
    { lx.behind j with symbols := t }.next.1 = .ok token := by
  have hnames := (h.grows hf).2
  induction h generalizing j with
  | @eof lx hfound =>
    obtain ⟨rfl, rfl⟩ : j = 0 ∧ l = ⟨lx.next.2.line, .ok .eof⟩ := by
      cases j with
      | zero => exact ⟨rfl, (Option.some.inj hl).symm⟩
      | succ j => simp at hl
    cases htoken
    exact next_eq_eof.mpr hfound
  | @next lx items names _ hrest ih =>
    cases j with
    | zero =>
      obtain rfl := Option.some.inj hl
      exact next_guarded hf hnames (hrest.grows (next_fresh hf)).1 ht htoken
    | succ j => exact ih (next_fresh hf) ht hl hnames

/-- Names that are met while a source is read are not bound. -/
theorem Reads.unbound (h : Reads lx items names)
    (hlx : ∀ id, SymbolTable.builtinSymbols.length ≤ id → lx.symbols.fileBinding id = .unbound) :
    ∀ id, SymbolTable.builtinSymbols.length ≤ id → names.fileBinding id = .unbound := by
  induction h with
  | eof => exact hlx
  | @next lx _ _ _ _ ih =>
    apply ih
    rcases lx.next_symbols with heq | ⟨name, id, hintern⟩
    · rwa [heq]
    · exact SymbolTable.unbound_of_intern hintern hlx

/-- The spelling of a keyword is read as that keyword. -/
theorem enter_keyword (ht : Guarded names m t) (hnames : names.Fresh) {name : String} {k : Keyword}
    (h : (name, k) ∈ Keyword.spellings) : enter t name = (.ok (.keyword k), t) := by
  have hall : ∀ e ∈ Keyword.spellings,
      ((SymbolTable.builtinSymbols.findIdx? (·.name == e.1)).bind fun id =>
        SymbolTable.builtinSymbols[id]?.map (·.binding.kind)) = some (.keyword e.2) := by
    decide +kernel
  obtain ⟨id, hid, hkind⟩ := Option.bind_eq_some_iff.mp (hall _ h)
  obtain ⟨s, hs, hkind⟩ := Option.map_eq_some_iff.mp hkind
  have hget : names.symbols[id]? = some s := by
    obtain ⟨more, hmore⟩ := hnames.builtin_le
    rwa [← Array.getElem?_toList, ← hmore,
      List.getElem?_append_left (List.getElem?_eq_some_iff.mp hs).1]
  have hlookup : t.lookup name = some id := by
    rw [ht.sameNames.lookup_eq]
    exact SymbolTable.lookup_of_builtin hnames hid
  rw [enter_of_lookup hlookup, nameToken_guarded ht hnames.scopes_eq, nameToken,
    SymbolTable.binding_of_scopes_nil hnames.scopes_eq, SymbolTable.fileBinding, hget]
  dsimp only
  rw [hkind]

end Lexer

namespace Compile

open SymbolTable (Plain Guarded)
open Lexer (Fits)

variable {α : Type} {names : SymbolTable} {met : Nat → Nat} {s s' : State} {p : Permit}
  {ids : Set SymbolId} {x : CompileM α}

/-! ## What compiling keeps -/

/-- The identifiers to come are plain names that will have been met by then, and only names that
have been met are bound. `met` counts them by the lexemes left. -/
structure Sound (names : SymbolTable) (met : Nat → Nat) (s : State) : Prop where
  current_fits : Fits names (met s.left) s.current
  rest_fits : ∀ l back, l :: back <:+ s.rest.items → ∀ token, l.token = .ok token →
    Fits names (met back.length) token
  table : Guarded names (met s.left) s.symbols

section Met

variable (hmet : Antitone met)
include hmet

/-- Only plain names that have been met are bound in a step. -/
theorem Step.sound (h : Step p ids s s') (hids : ∀ id ∈ ids, Plain names id ∧ id < met s.left)
    (hs : Sound names met s) : Sound names met s' := by
  have htable : Guarded names (met s'.left) s.symbols :=
    hs.table.mono (hmet h.rest_suffix.length_le)
  cases h with
  | move hrest htoken =>
    refine ⟨hs.rest_fits _ _ (hrest ▸ List.suffix_refl _) _ htoken, fun l back hl => ?_, htable⟩
    exact hs.rest_fits l back (hrest ▸ hl.trans (List.suffix_cons _ _))
  | define hdefine hid hb =>
    obtain ⟨hplain, hlt⟩ := hids _ hid
    exact ⟨hs.current_fits, hs.rest_fits, htable.define hplain hlt hb hdefine⟩
  | declare hdeclare hid =>
    exact ⟨hs.current_fits, hs.rest_fits, htable.declareLocal (hids _ hid).1 hdeclare⟩
  | openScope => exact ⟨hs.current_fits, hs.rest_fits, htable.openScope⟩
  | closeScope => exact ⟨hs.current_fits, hs.rest_fits, htable.closeScope⟩
  | _ => exact ⟨hs.current_fits, hs.rest_fits, htable⟩

/-- Names that have been met stay so. -/
theorem Path.met_of (h : Path p Set.univ s s')
    (hids : ∀ id ∈ ids, Plain names id ∧ id < met s.left) :
    ∀ id ∈ ids, Plain names id ∧ id < met s'.left :=
  fun id hid => (hids id hid).imp_right fun hlt => hlt.trans_le (hmet h.left_le)

theorem Path.sound (h : Path p ids s s') (hids : ∀ id ∈ ids, Plain names id ∧ id < met s.left)
    (hs : Sound names met s) : Sound names met s' := by
  induction h with
  | refl => exact hs
  | tail hpath hstep ih =>
    have hpath := Path.mono hpath p.le_refl (Set.subset_univ _)
    exact hstep.sound hmet (hpath.met_of hmet hids) ih

/-- A token that has been looked at mentions a plain name that has been met, so an action that
mentions no others keeps a state sound, wherever it ends. -/
theorem Composed.sound (h : Composed p ids x)
    (hids : ∀ id ∈ ids, Plain names id ∧ id < met s.left) (hs : Sound names met s) :
    Sound names met (after x s) := by
  induction h generalizing s with
  | basic h => exact (h.path s).sound hmet hids hs
  | @bind _ _ _ x f hx _ ihx ihf =>
    have hfirst := ihx hids hs
    cases hok : x s with
    | error e s' =>
      rw [after_bind_of_error hok]
      rwa [after_of_error hok] at hfirst
    | ok a s' =>
      rw [after_bind_of_ok hok]
      rw [after_of_ok hok] at hfirst
      refine ihf s a s' hok ((hx.path_ok hok).met_of hmet fun id hid => ?_) hfirst
      exact hid.elim (hids id) (hs.current_fits id)
  | @whileToken _ _ more body hbody _ a ih =>
    rw [after, whileToken_apply, ← after]
    generalize s.left + 1 = fuel
    induction fuel generalizing s a with
    | zero => exact hs
    | succ fuel ihfuel =>
      cases hm : more s.current with
      | false => rwa [after, loop_succ_of_not_more hm]
      | true =>
        have hround := ih a hids hs
        rw [after, loop_succ_of_more hm, ← after]
        cases hok : body a s with
        | error e s' =>
          rw [after_bind_of_error hok]
          rwa [after_of_error hok] at hround
        | ok a' s' =>
          rw [after_bind_of_ok hok]
          rw [after_of_ok hok] at hround
          exact ihfuel a' (((hbody a).path_ok hok).met_of hmet hids) hround

end Met

/-! ## Sources -/

section Start

variable (source : List UInt8) (limits : Limits)

/-- How many names have been met, by the number of lexemes that are left. -/
def metAt (left : Nat) : Nat :=
  (reader source limits).met ((start source limits none).left - left)

theorem size_reader : (reader source limits).symbols.size = SymbolTable.builtinSymbols.length :=
  SymbolTable.size_builtin _

theorem antitone_metAt : Antitone (metAt source limits) := fun _ _ h =>
  Lexer.met_mono (fresh_reader source limits) (Nat.sub_le_sub_left h _)

theorem fresh_start : (start source limits none).symbols.Fresh :=
  Syntax.names_fresh source limits

theorem sound_start : Sound (start source limits none).symbols (metAt source limits)
    (start source limits none) where
  current_fits := by simp [start, Fits]
  rest_fits _ _ hl _ htoken :=
    (reads_start source limits none).fits (fresh_reader source limits) hl htoken
  table := by
    refine SymbolTable.guarded_self (fresh_start source limits) ?_
    have hmet : metAt source limits (start source limits none).left =
        SymbolTable.builtinSymbols.length := by
      rw [metAt, Nat.sub_self]
      exact size_reader source limits
    rw [hmet]
    exact (reads_start source limits none).unbound fun id hid =>
      SymbolTable.fileBinding_of_size_le ((size_reader source limits).trans_le hid)

/-- The same where the lexemes are cut off. How many names have been met does not matter then. -/
theorem sound_upTo (k : Nat) : Sound (start source limits none).symbols
    (fun _ => (start source limits none).symbols.size) ((start source limits none).upTo k) where
  current_fits := by simp [State.upTo, start, Fits]
  rest_fits l back hl token htoken := by
    have hmem : l ∈ (start source limits none).rest.items.take k ++ [stop] :=
      hl.subset List.mem_cons_self
    rcases List.mem_append.mp hmem with hmem | hmem
    · replace hmem := List.mem_of_mem_take hmem
      obtain ⟨front, back, hitems⟩ := List.append_of_mem hmem
      have hsuffix : l :: back <:+ (start source limits none).rest.items := ⟨front, hitems.symm⟩
      intro id hid
      exact ⟨((sound_start source limits).rest_fits l back hsuffix token htoken id hid).1,
        (ready_start source limits none).rest_known l hmem token htoken id hid⟩
    · obtain rfl := List.mem_singleton.mp hmem
      cases htoken
  table := SymbolTable.guarded_self (fresh_start source limits) fun id hid =>
    SymbolTable.fileBinding_of_size_le hid

end Start

end Compile

end MiniC
