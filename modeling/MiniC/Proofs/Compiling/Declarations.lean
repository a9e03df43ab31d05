import MiniC.Proofs.Compiling.Statements

/-!
# Compiling a source is parsing it and generating its output

At file level the symbol table changes, so a state is compared with an output as a whole: `Holds`
says that what has been compiled so far is the output generated for the items read so far. A source
that compiles has a tree, and the program is the output generated for the tree (`program_ok`).
-/

namespace MiniC.Compile

open Syntax (Chunk Expr Stmt Variable Item Output Parser declareAll)

variable {s s' : State} {limits : Limits} {frame : Word} {o o' : Output}

/-- What the state has compiled is the output, and it fits the code region. -/
structure Holds (limits : Limits) (frame : Word) (o : Output) (s : State) : Prop where
  symbols_eq : s.symbols = o.symbols
  code_eq : s.code.toList = o.code
  data_eq : s.data.toList = o.data
  words_eq : s.words = wordCount o.code
  frame_eq : s.frame = frame
  limits_eq : s.limits = limits
  fits : s.words ≤ limits.code.toNat

namespace Holds

theorem code_size (h : Holds limits frame o s) : s.code.size = o.code.length := by
  rw [← h.code_eq, Array.length_toList]

theorem data_size (h : Holds limits frame o s) : s.data.size = o.data.length := by
  rw [← h.data_eq, Array.length_toList]

/-- Appending to the state what is appended to the output. -/
theorem grows {code : List Instr} {data : List UInt8} (h : Holds limits frame o s)
    (hg : Grows s s' code data) (hsym : o'.symbols = o.symbols) (hcode : o'.code = o.code ++ code)
    (hdata : o'.data = o.data ++ data) : Holds limits frame o' s' where
  symbols_eq := by rw [hg.symbols_eq, h.symbols_eq, hsym]
  code_eq := by rw [hg.code_eq, h.code_eq, hcode]
  data_eq := by rw [hg.data_eq, h.data_eq, hdata]
  words_eq := by rw [hg.words_eq, h.words_eq, hcode, wordCount_append]
  frame_eq := by rw [hg.frame_eq, h.frame_eq]
  limits_eq := by rw [hg.limits_eq, h.limits_eq]
  fits := by
    have hfits := hg.fits
    rw [h.limits_eq] at hfits
    exact hfits h.fits

theorem grows_nil (h : Holds limits frame o s) (hg : Grows s s' [] []) : Holds limits frame o s' :=
  h.grows hg rfl (by simp) (by simp)

theorem withSymbols (h : Holds limits frame o s) (t : SymbolTable) :
    Holds limits frame { o with symbols := t } { s with symbols := t } :=
  ⟨rfl, h.code_eq, h.data_eq, h.words_eq, h.frame_eq, h.limits_eq, h.fits⟩

theorem withFrame (h : Holds limits frame o s) (frame' : Word) :
    Holds limits frame' o { s with frame := frame' } :=
  ⟨h.symbols_eq, h.code_eq, h.data_eq, h.words_eq, rfl, h.limits_eq, h.fits⟩

theorem advance {u : Unit} (h : Holds limits frame o s) (hadv : Compile.advance s = .ok u s') :
    Holds limits frame o s' ∧ Parser.advance s.stream = some ((), s'.stream) := by
  obtain ⟨hg, hread⟩ := advance_ok hadv
  exact ⟨h.grows_nil hg, hread⟩

theorem skipOver {t : Token} {u : Unit} (h : Holds limits frame o s)
    (hskip : Compile.skipOver t s = .ok u s') :
    Holds limits frame o s' ∧ Parser.skipOver t s.stream = some ((), s'.stream) := by
  obtain ⟨hg, hread⟩ := skipOver_ok hskip
  exact ⟨h.grows_nil hg, hread⟩

end Holds

/-! ## Constants and global variables -/

theorem defineGlobal_ok {id : SymbolId} {b : Binding} {u : Unit} (hs : Holds limits frame o s)
    (h : defineGlobal id b s = .ok u s') :
    ∃ t, o.symbols.define? id b = some t ∧ Holds limits frame { o with symbols := t } s' ∧
      s'.stream = s.stream := by
  rw [defineGlobal] at h
  obtain ⟨_, _, hget, h⟩ := bind_eq_ok.mp h
  obtain ⟨rfl, rfl⟩ := get_eq_ok.mp hget
  rw [hs.symbols_eq] at h
  cases hd : o.symbols.define? id b with
  | none =>
    simp only [hd] at h
    exact absurd h fail_ne_ok
  | some t =>
    simp only [hd, set_eq_ok] at h
    subst h
    exact ⟨t, rfl, hs.withSymbols t, rfl⟩

/-- The items that were read are the ones that the output was generated for. -/
def Read (o : Output) (items : List Item) (limits : Limits) (s : State) : Prop :=
  ∃ o', items.foldlM Item.generate o = some o' ∧ Holds limits s.frame o' s

theorem Read.of_item {items : List Item} {item : Item} {o₁ o₂ : Output}
    (h₁ : items.foldlM Item.generate o = some o₁) (h₂ : item.generate o₁ = some o₂)
    (hs : Holds limits frame o₂ s) : Read o (items ++ [item]) limits s := by
  refine ⟨o₂, by simp [List.foldlM_append, h₁, h₂], ?_⟩
  rw [hs.frame_eq]
  exact hs

theorem enumerator_ok {next next' : Word} {read : List Item × Word}
    (hs : next = read.2 ∧ Read o read.1 limits s) (h : enumerator next s = .ok next' s') :
    ∃ read', Parser.enumerator read s.stream = some (read', s'.stream) ∧
      next' = read'.2 ∧ Read o read'.1 limits s' := by
  obtain ⟨rfl, o₁, hgen, hs⟩ := hs
  rw [enumerator] at h
  obtain ⟨_, _, hcur, h⟩ := bind_eq_ok.mp h
  obtain ⟨rfl, rfl⟩ := current_eq_ok.mp hcur
  have hst : s.stream.current = s.current := rfl
  simp only [Parser.enumerator, Parser.bind_apply, Parser.current_apply, Option.bind_some, hst]
  generalize s.current = token at h ⊢
  split at h
  · rename_i id
    obtain ⟨_, s₁, hadv, h⟩ := bind_eq_ok.mp h
    obtain ⟨hs₁, hadv'⟩ := hs.advance hadv
    -- What follows the value is the same whether one is written or not.
    have hdefine : ∀ {value : Word} {s₂ : State}, Holds limits s.frame o₁ s₂ →
        Parser.enumeratorValue read.2 s₁.stream = some (value, s₂.stream) →
        (do
          defineGlobal id ⟨.constant, .int, value⟩
          skipOver .comma
          return value + 1 : CompileM Word) s₂ = .ok next' s' →
        ∃ read', (do
            Parser.advance
            let value ← Parser.enumeratorValue read.2
            Parser.skipOver .comma
            return (read.1 ++ [.constant id value], value + 1) : Parser _) s.stream =
              some (read', s'.stream) ∧ next' = read'.2 ∧ Read o read'.1 limits s' := by
      intro value s₂ hs₂ hvalue h
      obtain ⟨_, s₃, hdef, h⟩ := bind_eq_ok.mp h
      obtain ⟨t, ht, hs₃, hst₃⟩ := defineGlobal_ok hs₂ hdef
      obtain ⟨_, s₄, hskip, h⟩ := bind_eq_ok.mp h
      obtain ⟨hs₄, hskip'⟩ := hs₃.skipOver hskip
      obtain ⟨rfl, rfl⟩ := pure_eq_ok.mp h
      rw [hst₃] at hskip'
      refine ⟨(read.1 ++ [.constant id value], value + 1), by simp [hadv', hvalue, hskip'], rfl, ?_⟩
      exact Read.of_item hgen (by simp [Item.generate, ht]) hs₄
    obtain ⟨_, _, hcur, h⟩ := bind_eq_ok.mp h
    obtain ⟨rfl, rfl⟩ := current_eq_ok.mp hcur
    have hst₁ : s₁.stream.current = s₁.current := rfl
    split at h
    · rename_i hassign
      obtain ⟨_, s₂, hadv₂, h⟩ := bind_eq_ok.mp h
      obtain ⟨hs₂, hadv₂'⟩ := hs₁.advance hadv₂
      obtain ⟨_, _, hcur, h⟩ := bind_eq_ok.mp h
      obtain ⟨rfl, rfl⟩ := current_eq_ok.mp hcur
      have hst₂ : s₂.stream.current = s₂.current := rfl
      cases htok : s₂.current with
      | number n =>
        simp only [htok] at h
        obtain ⟨_, s₃, hadv₃, h⟩ := bind_eq_ok.mp h
        obtain ⟨hs₃, hadv₃'⟩ := hs₂.advance hadv₃
        obtain ⟨_, _, hpure, h⟩ := bind_eq_ok.mp h
        obtain ⟨rfl, rfl⟩ := pure_eq_ok.mp hpure
        refine hdefine hs₃ ?_ h
        simp [Parser.enumeratorValue, hst₁, hassign, hadv₂', hst₂, htok, hadv₃']
      | _ =>
        simp only [htok] at h
        obtain ⟨_, _, hfail, -⟩ := bind_eq_ok.mp h
        exact absurd hfail fail_ne_ok
    · rename_i hassign
      obtain ⟨_, _, hpure, h⟩ := bind_eq_ok.mp h
      obtain ⟨rfl, rfl⟩ := pure_eq_ok.mp hpure
      refine hdefine hs₁ ?_ h
      simp [Parser.enumeratorValue, hst₁, hassign]
  · exact absurd h fail_ne_ok

theorem enumeration_ok {u : Unit} (hs : Holds limits frame o s)
    (h : enumeration s = .ok u s') :
    ∃ items, Parser.enumeration s.stream = some (items, s'.stream) ∧ Read o items limits s' := by
  rw [enumeration] at h
  obtain ⟨_, s₁, hadv, h⟩ := bind_eq_ok.mp h
  obtain ⟨hs₁, hadv'⟩ := hs.advance hadv
  -- The braces and what is between them, with or without a name before them.
  have hbraces : ∀ {s₂ : State}, Holds limits frame o s₂ →
      (do
        if (← current) = .leftBrace then
          advance
          let _ ← whileToken (· ≠ .rightBrace) enumerator 0
          advance : CompileM Unit) s₂ = .ok u s' →
      ∃ items, Parser.enumeratorList s₂.stream = some (items, s'.stream) ∧
        Read o items limits s' := by
    intro s₂ hs₂ h
    obtain ⟨_, _, hcur, h⟩ := bind_eq_ok.mp h
    obtain ⟨rfl, rfl⟩ := current_eq_ok.mp hcur
    have hst₂ : s₂.stream.current = s₂.current := rfl
    split at h
    · rename_i hbrace
      obtain ⟨_, s₃, hadv₂, h⟩ := bind_eq_ok.mp h
      obtain ⟨hs₃, hadv₂'⟩ := hs₂.advance hadv₂
      obtain ⟨next, s₄, hloop, h⟩ := bind_eq_ok.mp h
      have hstart : Read o ([], (0 : Word)).1 limits s₃ := ⟨o, rfl, by rw [hs₃.frame_eq]; exact hs₃⟩
      obtain ⟨read, hread, -, o₁, hgen, hs₄⟩ := whileToken_ok
        (R := fun next (read : List Item × Word) s => next = read.2 ∧ Read o read.1 limits s)
        (fun hR _ hb => enumerator_ok hR hb) ⟨rfl, hstart⟩ hloop
      obtain ⟨hs₅, hadv₃⟩ := hs₄.advance h
      refine ⟨read.1, ?_, o₁, hgen, by rw [hs₅.frame_eq]; exact hs₅⟩
      simp only [Parser.enumeratorList, Parser.bind_apply, Parser.current_apply, Option.bind_some,
        hst₂, hbrace, if_true, hadv₂', hread, hadv₃, Parser.pure_apply]
    · rename_i hbrace
      obtain ⟨rfl, rfl⟩ := pure_eq_ok.mp h
      refine ⟨[], ?_, o, rfl, by rw [hs₂.frame_eq]; exact hs₂⟩
      simp [Parser.enumeratorList, hst₂, hbrace]
  obtain ⟨_, _, hcur, h⟩ := bind_eq_ok.mp h
  obtain ⟨rfl, rfl⟩ := current_eq_ok.mp hcur
  have hst₁ : s₁.stream.current = s₁.current := rfl
  split at h
  · rename_i hname
    obtain ⟨_, s₂, hadv₂, h⟩ := bind_eq_ok.mp h
    obtain ⟨hs₂, hadv₂'⟩ := hs₁.advance hadv₂
    obtain ⟨items, hread, hitems⟩ := hbraces hs₂ h
    exact ⟨items, by simp [Parser.enumeration, hadv', hst₁, hname, hadv₂', hread], hitems⟩
  · rename_i hname
    obtain ⟨items, hread, hitems⟩ := hbraces hs₁ h
    replace hname : s₁.current = .leftBrace := Decidable.of_not_not hname
    exact ⟨items, by simp [Parser.enumeration, hadv', hst₁, hname, hread], hitems⟩

theorem globalVariable_ok {id : SymbolId} {type : CType} {u : Unit} (hs : Holds limits frame o s)
    (h : globalVariable id type s = .ok u s') :
    ∃ o', (Item.globalVar type id).generate o = some o' ∧ Holds limits frame o' s' ∧
      s'.stream = s.stream := by
  rw [globalVariable] at h
  obtain ⟨address, _, haddr, h⟩ := bind_eq_ok.mp h
  obtain ⟨_, _, hget, haddr⟩ := bind_eq_ok.mp haddr
  obtain ⟨rfl, rfl⟩ := get_eq_ok.mp hget
  obtain ⟨rfl, rfl⟩ := pure_eq_ok.mp haddr
  obtain ⟨_, s₁, hdef, h⟩ := bind_eq_ok.mp h
  obtain ⟨t, ht, hs₁, hst₁⟩ := defineGlobal_ok hs hdef
  rw [hs.data_size] at ht
  obtain ⟨hg, hst₂⟩ := storeData_ok h
  refine ⟨{ o with symbols := t, data := o.data ++ List.replicate wordSize 0 }, ?_, ?_, ?_⟩
  · simp [Item.generate, ht]
  · exact hs₁.grows hg rfl (by simp [Output.code]) rfl
  · rw [hst₂, hst₁]

/-! ## Functions -/

theorem declare_ok {id : SymbolId} {type : CType} {slot : Word} {duplicate : String → Reason}
    {u : Unit} (hs : Holds limits frame o s) (h : declare id type slot duplicate s = .ok u s') :
    ∃ t, o.symbols.declareLocal? id type slot = some t ∧
      Holds limits frame { o with symbols := t } s' ∧ s'.stream = s.stream := by
  rw [declare] at h
  obtain ⟨_, _, hget, h⟩ := bind_eq_ok.mp h
  obtain ⟨rfl, rfl⟩ := get_eq_ok.mp hget
  rw [hs.symbols_eq] at h
  cases hd : o.symbols.declareLocal? id type slot with
  | none =>
    simp only [hd] at h
    exact absurd h fail_ne_ok
  | some t =>
    simp only [hd, set_eq_ok] at h
    subst h
    exact ⟨t, rfl, hs.withSymbols t, rfl⟩

/-- A parameter or a local variable behind its base type. -/
theorem variable_ok {base : CType} {slot next next' : Word} {duplicate : String → Reason}
    {reason : Reason} (hs : Holds limits frame o s)
    (h : (do
      let type ← pointerLevels base
      match ← current with
      | .ident id => do
        declare id type slot duplicate
        advance
        skipOver .comma
        return next
      | _ => fail reason : CompileM Word) s = .ok next' s') :
    ∃ v t, Parser.namedVariable base s.stream = some (v, s'.stream) ∧
      o.symbols.declareLocal? v.id v.type slot = some t ∧
      Holds limits frame { o with symbols := t } s' ∧ next' = next := by
  obtain ⟨type, s₁, hptr, h⟩ := bind_eq_ok.mp h
  obtain ⟨hg₁, hptr'⟩ := pointerLevels_ok hptr
  obtain ⟨_, _, hcur, h⟩ := bind_eq_ok.mp h
  obtain ⟨rfl, rfl⟩ := current_eq_ok.mp hcur
  have hst₁ : s₁.stream.current = s₁.current := rfl
  cases htok : s₁.current with
  | ident id =>
    simp only [htok] at h
    obtain ⟨_, s₂, hdecl, h⟩ := bind_eq_ok.mp h
    obtain ⟨t, ht, hs₂, hst₂⟩ := declare_ok (hs.grows_nil hg₁) hdecl
    obtain ⟨_, s₃, hadv, h⟩ := bind_eq_ok.mp h
    obtain ⟨hs₃, hadv'⟩ := hs₂.advance hadv
    obtain ⟨_, s₄, hskip, h⟩ := bind_eq_ok.mp h
    obtain ⟨hs₄, hskip'⟩ := hs₃.skipOver hskip
    obtain ⟨rfl, rfl⟩ := pure_eq_ok.mp h
    rw [hst₂] at hadv'
    exact ⟨⟨type, id⟩, t, by simp [Parser.namedVariable, hptr', hst₁, htok, hadv', hskip'], ht,
      hs₄, rfl⟩
  | _ =>
    simp only [htok] at h
    exact absurd h fail_ne_ok

/-- The variables that were read are the ones bound so far, and `next` is the slot behind them. -/
def Declared (o : Output) (slot : Word) (limits : Limits) (frame next : Word) (vs : List Variable)
    (s : State) : Prop :=
  ∃ t, declareAll o.symbols slot vs = some (t, next) ∧
    Holds limits frame { o with symbols := t } s

theorem Declared.concat {slot next : Word} {vs : List Variable} {v : Variable} {t t' : SymbolTable}
    (h : declareAll o.symbols slot vs = some (t, next))
    (ht : t.declareLocal? v.id v.type next = some t')
    (hs : Holds limits frame { o with symbols := t' } s) :
    Declared o slot limits frame (next + 1) (vs ++ [v]) s :=
  ⟨t', by simp [Syntax.declareAll_append, h, declareAll, ht], hs⟩

theorem parameters_ok {slot : Word} (hs : Holds limits frame o s)
    (h : whileToken (· ≠ .rightParen) parameter 0 s = .ok slot s') :
    ∃ vs, Parser.collect (· ≠ .rightParen) Parser.parameter s.stream = some (vs, s'.stream) ∧
      Declared o 0 limits frame slot vs s' := by
  unfold Parser.collect
  refine whileToken_ok (R := fun slot vs s => Declared o 0 limits frame slot vs s) (b := []) ?_
    ⟨o.symbols, rfl, hs⟩ h
  rintro slot vs s₁ slot' s₂ ⟨t, ht, hs₁⟩ - hb
  rw [parameter] at hb
  obtain ⟨base, s₃, hbase, hb⟩ := bind_eq_ok.mp hb
  obtain ⟨hg₃, hbase'⟩ := baseType_ok hbase
  obtain ⟨v, t', hread, ht', hs₂, rfl⟩ := variable_ok (hs₁.grows_nil hg₃) hb
  exact ⟨vs ++ [v], by simp [Parser.parameter, hbase', hread], Declared.concat ht ht' hs₂⟩

theorem localVariables_ok {slot slot' : Word} (hs : Holds limits frame o s)
    (h : localVariables slot s = .ok slot' s') :
    ∃ vs, Parser.localVariables s.stream = some (vs, s'.stream) ∧
      Declared o (slot + 1) limits frame (slot' + 1) vs s' := by
  unfold Parser.localVariables
  refine whileToken_ok (R := fun slot' vs s => Declared o (slot + 1) limits frame (slot' + 1) vs s)
    (b := []) ?_ ⟨o.symbols, rfl, hs⟩ h
  rintro last vs s₁ last' s₂ ⟨t, ht, hs₁⟩ - hb
  obtain ⟨base, s₃, hbase, hb⟩ := bind_eq_ok.mp hb
  obtain ⟨hg₃, hbase'⟩ := baseType_ok hbase
  obtain ⟨last₁, s₄, hline, hb⟩ := bind_eq_ok.mp hb
  have hloop : ∃ ws, Parser.collect (· ≠ .semicolon) (Parser.namedVariable base) s₃.stream =
      some (ws, s₄.stream) ∧
      Declared { o with symbols := t } (last + 1) limits frame (last₁ + 1) ws s₄ := by
    unfold Parser.collect
    refine whileToken_ok (R := fun last₁ ws s => Declared { o with symbols := t } (last + 1) limits
      frame (last₁ + 1) ws s) (b := []) ?_ ⟨t, rfl, hs₁.grows_nil hg₃⟩ hline
    rintro last₂ ws s₅ last₃ s₆ ⟨t₂, ht₂, hs₅⟩ - hb
    rw [localVariable] at hb
    obtain ⟨v, t', hread, ht', hs₆, rfl⟩ := variable_ok hs₅ hb
    exact ⟨ws ++ [v], by simp [hread], Declared.concat ht₂ ht' hs₆⟩
  obtain ⟨ws, hread, t₁, ht₁, hs₄⟩ := hloop
  obtain ⟨_, s₇, hadv, hb⟩ := bind_eq_ok.mp hb
  obtain ⟨hs₇, hadv'⟩ := hs₄.advance hadv
  obtain ⟨rfl, rfl⟩ := pure_eq_ok.mp hb
  refine ⟨vs ++ ws, ?_, t₁, by simp [Syntax.declareAll_append, ht, ht₁], hs₇⟩
  simp only [Parser.bind_apply, Parser.pure_apply, Option.bind_some, hbase', hread, hadv']

theorem functionDefinition_ok {id : SymbolId} {type : CType} {u : Unit}
    (hs : Holds limits frame o s) (h : functionDefinition id type s = .ok u s') :
    ∃ item o', Parser.functionDefinition id type s.stream = some (item, s'.stream) ∧
      item.generate o = some o' ∧ Holds limits s'.frame o' s' := by
  rw [functionDefinition] at h
  obtain ⟨_, _, hhere, h⟩ := bind_eq_ok.mp h
  obtain ⟨rfl, rfl⟩ := here_eq_ok.mp hhere
  obtain ⟨_, _, hmod, h⟩ := bind_eq_ok.mp h
  obtain rfl := modify_eq_ok.mp hmod
  have hbound : (s.symbols.define? id ⟨.function, type, Word.ofNat s.code.size⟩).getD s.symbols =
      (o.symbols.define? id ⟨.function, type, Word.ofNat o.code.length⟩).getD o.symbols := by
    rw [hs.code_size, hs.symbols_eq]
  have hs₁ := hs.withSymbols
    ((s.symbols.define? id ⟨.function, type, Word.ofNat s.code.size⟩).getD s.symbols)
  obtain ⟨_, s₂, hadv, h⟩ := bind_eq_ok.mp h
  obtain ⟨hs₂, hadv'⟩ := hs₁.advance hadv
  obtain ⟨_, s₃, hmod, h⟩ := bind_eq_ok.mp h
  replace hmod := modify_eq_ok.mp hmod
  have hst₃ : s₃.stream = s₂.stream := by rw [← hmod]; rfl
  have hs₃ := hs₂.withSymbols s₂.symbols.openScope
  rw [hmod, hs₂.symbols_eq, hbound] at hs₃
  obtain ⟨slot, s₄, hparams, h⟩ := bind_eq_ok.mp h
  obtain ⟨params, hread₄, t₄, ht₄, hs₄⟩ := parameters_ok hs₃ hparams
  obtain ⟨_, s₅, hadv₅, h⟩ := bind_eq_ok.mp h
  obtain ⟨hs₅, hadv₅'⟩ := hs₄.advance hadv₅
  obtain ⟨_, _, hcur, h⟩ := bind_eq_ok.mp h
  obtain ⟨rfl, rfl⟩ := current_eq_ok.mp hcur
  have hst₅ : s₅.stream.current = s₅.current := rfl
  split at h
  · obtain ⟨_, _, hfail, -⟩ := bind_eq_ok.mp h
    exact absurd hfail fail_ne_ok
  rename_i hbrace
  replace hbrace : s₅.current = .leftBrace := Decidable.of_not_not hbrace
  obtain ⟨_, s₆, hmod₆, h⟩ := bind_eq_ok.mp h
  replace hmod₆ := modify_eq_ok.mp hmod₆
  have hst₆ : s₆.stream = s₅.stream := by rw [← hmod₆]; rfl
  have hs₆ := hs₅.withFrame (slot + 1)
  rw [hmod₆] at hs₆
  obtain ⟨_, s₇, hadv₇, h⟩ := bind_eq_ok.mp h
  obtain ⟨hs₇, hadv₇'⟩ := hs₆.advance hadv₇
  obtain ⟨last, s₈, hlocals, h⟩ := bind_eq_ok.mp h
  obtain ⟨locals, hread₈, t₈, ht₈, hs₈⟩ := localVariables_ok hs₇ hlocals
  obtain ⟨_, s₉, henter, h⟩ := bind_eq_ok.mp h
  obtain ⟨-, hg₉, hst₉⟩ := emit_ok henter
  obtain ⟨_, s₁₀, hbody, h⟩ := bind_eq_ok.mp h
  obtain ⟨body, c, hread₁₀, hgen, hg₁₀⟩ := statements_ok (stmt_ok maxNesting) hbody
  obtain ⟨_, s₁₁, hleave, h⟩ := bind_eq_ok.mp h
  obtain ⟨-, hg₁₁, hst₁₁⟩ := (hg₉.trans hg₁₀).emit hleave
  replace h := modify_eq_ok.mp h
  have hst' : s'.stream = s₁₁.stream := by rw [← h]; rfl
  have hsize : last - (slot + 1) = last + 1 - (slot + 1 + 1) := by
    grind
  have hcontext : s₉.context = ⟨t₈.binding, slot + 1⟩ := by
    rw [hg₉.context_eq, State.context, hs₈.symbols_eq, hs₈.frame_eq]
  rw [hcontext, hg₉.code_size, hg₉.data_size, hs₈.code_size, hs₈.data_size] at hgen
  have hgen' : Stmt.generateAll ⟨t₈.binding, slot + 1⟩ (o.code.length + 1) o.data.length body =
      some c := hgen
  refine ⟨.function id type params locals body, ⟨t₈.closeScope, o.bodies ++
    [.ofCode [.enter (last + 1 - (slot + 1 + 1))] ++ c ++ .ofCode [.leave]], o.data ++ c.data⟩,
    ?_, ?_, ?_⟩
  · replace hadv' : Parser.advance s.stream = some ((), s₂.stream) := hadv'
    rw [hst₃] at hread₄
    rw [hst₆] at hadv₇'
    rw [hst₉] at hread₁₀
    simp only [Parser.functionDefinition, Parser.bind_apply, Parser.current_apply,
      Parser.pure_apply, Option.bind_some, hadv', hst₅, hbrace, hread₄, hadv₅', hadv₇', hread₈,
      hread₁₀, hst', hst₁₁, ne_eq, not_true_eq_false, if_false]
  · simp [Item.generate, ht₄, ht₈, hgen']
  · have hs₁₁ : Holds limits (slot + 1) ⟨t₈, o.bodies ++
        [.ofCode [.enter (last + 1 - (slot + 1 + 1))] ++ c ++ .ofCode [.leave]],
        o.data ++ c.data⟩ s₁₁ := by
      refine hs₈.grows hg₁₁ rfl ?_ (by simp)
      rw [Syntax.Output.code_concat, ← hsize]
      rfl
    have hs' := hs₁₁.withSymbols s₁₁.symbols.closeScope
    rw [h, hs₁₁.symbols_eq] at hs'
    rw [hs'.frame_eq]
    exact hs'

/-! ## Sources -/

theorem declarator_ok {base : CType} {items : List Item} {u : Unit} (hs : Read o items limits s)
    (h : declarator base s = .ok u s') :
    ∃ item, Parser.declarator base s.stream = some (item, s'.stream) ∧
      Read o (items ++ [item]) limits s' := by
  obtain ⟨o₁, hgen, hs⟩ := hs
  rw [declarator] at h
  obtain ⟨type, s₁, hptr, h⟩ := bind_eq_ok.mp h
  obtain ⟨hg₁, hptr'⟩ := pointerLevels_ok hptr
  have hs₁ := hs.grows_nil hg₁
  obtain ⟨_, _, hcur, h⟩ := bind_eq_ok.mp h
  obtain ⟨rfl, rfl⟩ := current_eq_ok.mp hcur
  have hst₁ : s₁.stream.current = s₁.current := rfl
  cases htok : s₁.current with
  | ident id =>
    simp only [htok] at h
    obtain ⟨_, s₂, hadv, h⟩ := bind_eq_ok.mp h
    obtain ⟨hs₂, hadv'⟩ := hs₁.advance hadv
    obtain ⟨_, _, hcur, h⟩ := bind_eq_ok.mp h
    obtain ⟨rfl, rfl⟩ := current_eq_ok.mp hcur
    have hst₂ : s₂.stream.current = s₂.current := rfl
    split at h
    · rename_i hparen
      obtain ⟨_, s₃, hfun, h⟩ := bind_eq_ok.mp h
      obtain ⟨item, o₂, hread, hgen₂, hs₃⟩ := functionDefinition_ok hs₂ hfun
      obtain ⟨hs₄, hskip⟩ := hs₃.skipOver h
      refine ⟨item, ?_, Read.of_item hgen hgen₂ hs₄⟩
      simp [Parser.declarator, hptr', hst₁, htok, hadv', hst₂, hparen, hread, hskip]
    · rename_i hparen
      obtain ⟨_, s₃, hvar, h⟩ := bind_eq_ok.mp h
      obtain ⟨o₂, hgen₂, hs₃, hst₃⟩ := globalVariable_ok hs₂ hvar
      obtain ⟨hs₄, hskip⟩ := hs₃.skipOver h
      rw [hst₃] at hskip
      refine ⟨.globalVar type id, ?_, Read.of_item hgen hgen₂ hs₄⟩
      simp [Parser.declarator, hptr', hst₁, htok, hadv', hst₂, hparen, hskip]
  | _ =>
    simp only [htok] at h
    exact absurd h fail_ne_ok

theorem declarators_ok {base : CType} {constants : List Item} {u : Unit}
    (hs : Read o constants limits s)
    (h : (do
      whileToken (fun token => token ≠ .semicolon ∧ token ≠ .rightBrace)
        (fun _ => declarator base) ()
      advance : CompileM Unit) s = .ok u s') :
    ∃ items, (do
        let items ← Parser.collect (fun token => token ≠ .semicolon ∧ token ≠ .rightBrace)
          (Parser.declarator base)
        Parser.advance
        return constants ++ items : Parser (List Item)) s.stream = some (items, s'.stream) ∧
      Read o items limits s' := by
  obtain ⟨_, s₁, hloop, h⟩ := bind_eq_ok.mp h
  have hitems : ∃ items, Parser.collect (fun token => token ≠ .semicolon ∧ token ≠ .rightBrace)
      (Parser.declarator base) s.stream = some (items, s₁.stream) ∧
      Read o (constants ++ items) limits s₁ := by
    unfold Parser.collect
    refine whileToken_ok (R := fun _ items s => Read o (constants ++ items) limits s) (b := []) ?_
      (by simpa using hs) hloop
    intro _ items s₂ _ s₃ hs₂ _ hb
    obtain ⟨item, hread, hs₃⟩ := declarator_ok hs₂ hb
    exact ⟨items ++ [item], by simp [hread], by simpa using hs₃⟩
  obtain ⟨items, hread, o₁, hgen, hs₁⟩ := hitems
  obtain ⟨hs', hadv⟩ := hs₁.advance h
  refine ⟨constants ++ items, ?_, o₁, hgen, by rw [hs'.frame_eq]; exact hs'⟩
  simp only [Parser.bind_apply, Parser.pure_apply, Option.bind_some, hread, hadv]

theorem declaration_ok {u : Unit} (hs : Holds limits frame o s)
    (h : declaration s = .ok u s') :
    ∃ items, Parser.declaration s.stream = some (items, s'.stream) ∧ Read o items limits s' := by
  rw [declaration] at h
  obtain ⟨_, _, hcur, h⟩ := bind_eq_ok.mp h
  obtain ⟨rfl, rfl⟩ := current_eq_ok.mp hcur
  have hst : s.stream.current = s.current := rfl
  split at h
  · rename_i henum
    obtain ⟨_, s₁, henumeration, h⟩ := bind_eq_ok.mp h
    obtain ⟨constants, hread, hs₁⟩ := enumeration_ok hs henumeration
    obtain ⟨_, _, hpure, h⟩ := bind_eq_ok.mp h
    obtain ⟨rfl, rfl⟩ := pure_eq_ok.mp hpure
    obtain ⟨items, hread', hs'⟩ := declarators_ok hs₁ h
    refine ⟨items, ?_, hs'⟩
    rw [← hread']
    simp only [Parser.declaration, Parser.bind_apply, Parser.current_apply, Parser.pure_apply,
      Option.bind_some, hst, henum, if_true, hread]
  · rename_i henum
    obtain ⟨base, s₁, hbase, h⟩ := bind_eq_ok.mp h
    obtain ⟨hg₁, hbase'⟩ := baseType_ok hbase
    have hs₁ := hs.grows_nil hg₁
    have hstart : Read o [] limits s₁ := ⟨o, rfl, by rw [hs₁.frame_eq]; exact hs₁⟩
    obtain ⟨items, hread', hs'⟩ := declarators_ok hstart h
    refine ⟨items, ?_, hs'⟩
    rw [← hread']
    simp only [Parser.declaration, Parser.bind_apply, Parser.current_apply, Parser.pure_apply,
      Option.bind_some, hst, henum, if_false, hbase']

/-- A source that compiles has a tree, and the program is the output generated for the tree. -/
theorem program_ok {p : Program} (hs : Holds limits frame o s) (h : program s = .ok p s') :
    ∃ items o', (Parser.items s.stream).map (·.1) = some items ∧
      items.foldlM Item.generate o = some o' ∧ p.code.toList = o'.code ∧ p.data.toList = o'.data ∧
      p.symbols = o'.symbols ∧ (p.symbols.binding SymbolTable.entry).kind = .function ∧
      wordCount o'.code ≤ limits.code.toNat := by
  rw [program] at h
  obtain ⟨_, s₁, hadv, h⟩ := bind_eq_ok.mp h
  obtain ⟨hs₁, hadv'⟩ := hs.advance hadv
  obtain ⟨_, s₂, hloop, h⟩ := bind_eq_ok.mp h
  have hstart : Read o [] limits s₁ := ⟨o, rfl, by rw [hs₁.frame_eq]; exact hs₁⟩
  have hitems : ∃ items, Parser.whileToken (· ≠ .eof)
      (fun read => do return read ++ (← Parser.declaration)) [] s₁.stream =
        some (items, s₂.stream) ∧ Read o items limits s₂ := by
    refine whileToken_ok (R := fun _ items s => Read o items limits s) (b := []) ?_ hstart hloop
    rintro _ items s₃ _ s₄ ⟨o₁, hgen, hs₃⟩ - hb
    obtain ⟨more, hread, o₂, hgen₂, hs₄⟩ := declaration_ok hs₃ hb
    exact ⟨items ++ more, by simp [hread], o₂, by simp [List.foldlM_append, hgen, hgen₂], hs₄⟩
  obtain ⟨items, hread, o₁, hgen, hs₂⟩ := hitems
  obtain ⟨_, _, hget, h⟩ := bind_eq_ok.mp h
  obtain ⟨rfl, rfl⟩ := get_eq_ok.mp hget
  obtain ⟨_, s₃, hlist, h⟩ := bind_eq_ok.mp h
  split at h
  · rename_i hmain
    obtain ⟨rfl, rfl⟩ := pure_eq_ok.mp h
    refine ⟨items, o₁, ?_, hgen, hs₂.code_eq, hs₂.data_eq, hs₂.symbols_eq, hmain, ?_⟩
    · simp only [Parser.items, Parser.bind_apply, Option.bind_some, hadv', hread, Option.map_some]
    · rw [← hs₂.words_eq]
      exact hs₂.fits
  · exact absurd h fail_ne_ok

end MiniC.Compile

namespace MiniC

/-- A program whose source was read into `items`, for which `o` is generated. -/
structure Program.Built (source : List UInt8) (limits : Limits) (p : Program)
    (items : List Syntax.Item) (o : Syntax.Output) : Prop where
  parsed : Syntax.ofSource source limits = some items
  generated : Syntax.generate (Syntax.names source limits) items = some o
  code_eq : p.code.toList = o.code
  data_eq : p.data.toList = o.data
  symbols_eq : p.symbols = o.symbols
  entry : (p.symbols.binding SymbolTable.entry).kind = .function
  fits : Compile.wordCount o.code ≤ limits.code.toNat

theorem Program.built {source : List UInt8} {limits : Limits} {p : Program}
    (h : Program.compile source limits = .ok p) : ∃ items o, p.Built source limits items o := by
  rw [Program.compile] at h
  split at h
  · rename_i p' s' hp
    obtain rfl := Except.ok.inj h
    have hs : Compile.Holds limits 0 ⟨Syntax.names source limits, [], []⟩
        (Compile.start source limits none) :=
      ⟨rfl, rfl, rfl, rfl, rfl, rfl, Nat.zero_le _⟩
    obtain ⟨items, o, hparse, hgen, hcode, hdata, hsym, hentry, hfits⟩ := Compile.program_ok hs hp
    exact ⟨items, o, hparse, hgen, hcode, hdata, hsym, hentry, hfits⟩
  · exact absurd h (by simp)

end MiniC
