import MiniC.Proofs.Compiling.Declarations
import MiniC.Proofs.Machine.Cells
import MiniC.Proofs.Source.Generating
import MiniC.Proofs.Syntax.Bindings

/-!
# Where a compiled program keeps its parts

In the output of a printed program every function has its code at the index that its name is bound
to (`Placed`), and every global has a word of its own at the start of the data. A function finds its
parameters and locals at fixed distances from its frame pointer (`Function.offset`). Any other name
that it uses it finds as it is bound in the end. `Layout` puts this together without bindings and
numbers of names.
-/

namespace MiniC

/-- The instructions stand in the code from the index `pos` on. -/
def CodeAt (code : List Instr) (pos : Nat) (instrs : List Instr) : Prop :=
  ∃ before after, code = before ++ instrs ++ after ∧ before.length = pos

namespace CodeAt

variable {code instrs instrs' : List Instr} {pos : Nat} {i : Instr}

theorem append (h : CodeAt code pos (instrs ++ instrs')) :
    CodeAt code pos instrs ∧ CodeAt code (pos + instrs.length) instrs' := by
  obtain ⟨before, after, rfl, rfl⟩ := h
  exact ⟨⟨before, instrs' ++ after, by simp, rfl⟩, ⟨before ++ instrs, after, by simp, by simp⟩⟩

theorem cons (h : CodeAt code pos (i :: instrs)) :
    code[pos]? = some i ∧ CodeAt code (pos + 1) instrs := by
  obtain ⟨before, after, rfl, rfl⟩ := h
  exact ⟨by simp, ⟨before ++ [i], after, by simp, by simp⟩⟩

theorem le_length (h : CodeAt code pos instrs) : pos + instrs.length ≤ code.length := by
  obtain ⟨before, after, rfl, rfl⟩ := h
  simp

theorem extend (h : CodeAt code pos instrs) (more : List Instr) :
    CodeAt (code ++ more) pos instrs := by
  obtain ⟨before, after, rfl, hpos⟩ := h
  exact ⟨before, after ++ more, by simp, hpos⟩

end CodeAt

/-! ## Bindings -/

namespace SymbolTable

variable {t t' : SymbolTable} {id : SymbolId} {b : Binding}

theorem isInt_fileBinding (h : t.Fresh) (id : SymbolId) : (t.fileBinding id).IsInt := by
  have hunbound : Binding.unbound.IsInt := ⟨by decide, .inr (.inl rfl)⟩
  unfold fileBinding
  split
  · rename_i s hs
    rcases h.unbound s (List.mem_of_getElem? (by simpa using hs)) with hs | hs
    · simp only [builtinSymbols, keywordSymbols, serviceSymbols, List.mem_append, List.mem_map,
        List.mem_singleton] at hs
      rcases hs with (⟨⟨text, k⟩, -, rfl⟩ | ⟨service, -, rfl⟩) | rfl
      · exact ⟨SymbolClass.noConfusion, .inr (.inr ⟨k, rfl⟩)⟩
      · exact ⟨SymbolClass.noConfusion, .inl rfl⟩
      · exact hunbound
    · rw [hs]
      exact hunbound
  · exact hunbound

end SymbolTable

namespace Source

open Syntax (Item Output Context Chunk Variable)

variable {t : SymbolTable}

theorem idOf_inj (hi : t.Indexed) {x y : Name} (hx : (Lex.name x).Found t)
    (hy : (Lex.name y).Found t) (h : idOf t x = idOf t y) : x = y := by
  obtain ⟨id, hid⟩ := Option.isSome_iff_exists.mp hx
  obtain ⟨id', hid'⟩ := Option.isSome_iff_exists.mp hy
  rw [idOf_eq hid, idOf_eq hid'] at h
  subst h
  have htext := SymbolTable.lookup_inj hi hid hid'
  cases x
  cases y
  simpa using htext

theorem getElem?_idOf (hi : t.Indexed) {x : Name} (hx : (Lex.name x).Found t) :
    ∃ s, t.symbols[idOf t x]? = some s ∧ s ∈ t.symbols.toList ∧ s.name = x.text := by
  obtain ⟨id, hid⟩ := Option.isSome_iff_exists.mp hx
  rw [idOf_eq hid]
  exact SymbolTable.getElem?_of_lookup hi hid

theorem idOf_lt (hi : t.Indexed) {x : Name} (hx : (Lex.name x).Found t) : idOf t x < t.size := by
  obtain ⟨s, hs, -, -⟩ := getElem?_idOf hi hx
  exact (Array.getElem?_eq_some_iff.mp hs).1

/-- A name that is no service is not among the names that are bound from the start. -/
theorem not_mem_bound {x : Name} (hservice : ∀ s ∈ Service.all, s.name ≠ x.text) {s : Symbol}
    (hs : s.name = x.text) : s ∉ SymbolTable.keywordSymbols ++ SymbolTable.serviceSymbols := by
  intro hmem
  have hkeyword := x.isName
  rw [Source.isName, Bool.and_eq_true, List.all_eq_true] at hkeyword
  simp only [SymbolTable.keywordSymbols, SymbolTable.serviceSymbols, List.mem_append,
    List.mem_map] at hmem
  rcases hmem with ⟨spelling, hmem, rfl⟩ | ⟨service, hmem, rfl⟩
  · simpa [← hs] using hkeyword.2 spelling hmem
  · exact hservice service hmem hs

section Fresh

variable {x : Name} (h : t.Fresh) (hx : (Lex.name x).Found t)
  (hservice : ∀ s ∈ Service.all, s.name ≠ x.text)

include h hx hservice

theorem fileBinding_idOf : t.fileBinding (idOf t x) = .unbound := by
  obtain ⟨s, hs, hmem, hname⟩ := getElem?_idOf h.indexed hx
  rw [SymbolTable.fileBinding, hs]
  rcases h.unbound s hmem with hmem | hunbound
  · rcases List.mem_append.mp hmem with hmem | hmem
    · exact absurd hmem (not_mem_bound hservice hname)
    · rw [List.mem_singleton.mp hmem]
  · exact hunbound

theorem isBuiltin_idOf : SymbolTable.isBuiltin (idOf t x) = false := by
  obtain ⟨s, hs, -, hname⟩ := getElem?_idOf h.indexed hx
  obtain ⟨rest, hrest⟩ := h.builtin_le
  rw [SymbolTable.isBuiltin, decide_eq_false_iff_not]
  intro hlt
  have hlt' : idOf t x < (SymbolTable.keywordSymbols ++ SymbolTable.serviceSymbols).length := by
    simpa [SymbolTable.entry] using hlt
  rw [← Array.getElem?_toList, ← hrest, SymbolTable.builtinSymbols, List.append_assoc,
    List.getElem?_append_left hlt'] at hs
  exact not_mem_bound hservice hname (List.mem_of_getElem? hs)

end Fresh

/-! ## Functions -/

/-- Where a function keeps a variable of its own, in words from its frame pointer. Parameters lie
above the return address, the first of them highest, and locals below the frame pointer. -/
def Function.offset (f : Function) (x : Name) : Option Int :=
  match f.params.idxOf? x, f.locals.idxOf? x with
  | some k, _ => some (f.params.length + 1 - k)
  | none, some k => some (-1 - k)
  | none, none => none

theorem Function.offset_eq_none {f : Function} {x : Name} :
    f.offset x = none ↔ x ∉ f.params ++ f.locals := by
  rw [List.mem_append, not_or, ← List.idxOf?_eq_none_iff, ← List.idxOf?_eq_none_iff]
  unfold Function.offset
  split <;> simp_all

theorem getElem?_of_idxOf? {xs : List Name} {x : Name} {k : Nat} (h : xs.idxOf? x = some k) :
    xs[k]? = some x := by
  obtain ⟨hk, heq, -⟩ := List.idxOf?_eq_some_iff.mp h
  rw [List.getElem?_eq_getElem hk, heq]

theorem Function.offset_cases {f : Function} {x : Name} {o : Int} (h : f.offset x = some o) :
    (∃ k : Nat, f.params[k]? = some x ∧ k < f.params.length ∧ o = f.params.length + 1 - k) ∨
      ∃ k : Nat, f.locals[k]? = some x ∧ k < f.locals.length ∧ o = -1 - k := by
  unfold Function.offset at h
  split at h
  · rename_i k hk
    obtain ⟨hlt, -⟩ := List.idxOf?_eq_some_iff.mp hk
    exact .inl ⟨k, getElem?_of_idxOf? hk, hlt, (Option.some.inj h).symm⟩
  · rename_i k _ hk
    obtain ⟨hlt, -⟩ := List.idxOf?_eq_some_iff.mp hk
    exact .inr ⟨k, getElem?_of_idxOf? hk, hlt, (Option.some.inj h).symm⟩
  · simp at h

/-- What the code of a function is generated with: its own variables at their distances from the
frame pointer, and file-level bindings for all other names. -/
structure Scoped (ν : Name → SymbolId) (f : Function) (cx : Context)
    (file : SymbolId → Binding) : Prop where
  nodup : ((f.params ++ f.locals).map ν).Nodup
  inner : ∀ x o, f.offset x = some o →
    ∃ slot, cx.binding (ν x) = ⟨.localVar, .int, slot⟩ ∧ cx.frame - slot = Int64.ofInt o
  outer : ∀ id, id ∉ (f.params ++ f.locals).map ν → cx.binding id = file id

theorem scoped_of_declareAll {ν : Name → SymbolId} {f : Function}
    {symbols symbols₁ symbols₂ : SymbolTable} {slot next : Word}
    (hparams : Syntax.declareAll symbols.openScope 0 (f.params.map (variableTree ν)) =
      some (symbols₁, slot))
    (hlocals : Syntax.declareAll symbols₁ (slot + 1 + 1) (f.locals.map (variableTree ν)) =
      some (symbols₂, next)) :
    Scoped ν f ⟨symbols₂.binding, slot + 1⟩ symbols.fileBinding ∧
      next - (slot + 1 + 1) = Word.ofNat f.locals.length ∧ symbols₂.closeScope = symbols := by
  obtain ⟨hframed, hcount, hclose⟩ := Syntax.framed_of_declareAll hparams hlocals
  have hids : ((f.params.map (variableTree ν) ++ f.locals.map (variableTree ν)).map (·.id)) =
      (f.params ++ f.locals).map ν := by
    rw [← List.map_append, List.map_map]
    rfl
  refine ⟨⟨?_, ?_, ?_⟩, ?_, hclose⟩
  · rw [← hids]
    exact hframed.nodup
  · intro x o ho
    rcases Function.offset_cases ho with ⟨k, hk, -, rfl⟩ | ⟨k, hk, -, rfl⟩
    · have hparam := hframed.ofParam k (variableTree ν x) (by simp [hk])
      rwa [List.length_map] at hparam
    · exact hframed.ofLocal k (variableTree ν x) (by simp [hk])
  · intro id hid
    exact hframed.outer id (by rwa [hids])
  · rwa [List.length_map] at hcount

/-- What one function adds to the output. -/
theorem Function.generate_ok {ν : Name → SymbolId} {f : Function} {o o' : Output}
    (h : Item.generate o (f.tree ν) = some o') (hscopes : o.symbols.scopes = [])
    (hname : ν f.name < o.symbols.size) (hbuiltin : SymbolTable.isBuiltin (ν f.name) = false) :
    ∃ cx c, Scoped ν f cx o'.symbols.fileBinding ∧
      Syntax.Stmt.generateAll cx (o.code.length + 1) o.data.length (Stmt.treeAll ν f.body) =
        some c ∧
      o'.code = o.code ++ (.enter (Word.ofNat f.locals.length) :: (c.code ++ [.leave])) ∧
      o'.data = o.data ++ c.data ∧ o'.symbols.scopes = [] ∧ o'.symbols.size = o.symbols.size ∧
      ∀ id, o'.symbols.fileBinding id =
        if id = ν f.name then ⟨.function, .int, Word.ofNat o.code.length⟩
        else o.symbols.fileBinding id := by
  simp only [Function.tree, Item.generate, SymbolTable.define?_eq hbuiltin, Option.getD_some,
    Option.bind_eq_bind, Option.bind_eq_some_iff, Option.some.injEq, Prod.exists] at h
  obtain ⟨symbols₁, slot, hparams, symbols₂, next, hlocals, c, hc, rfl⟩ := h
  obtain ⟨hscoped, henter, hclose⟩ := scoped_of_declareAll hparams hlocals
  refine ⟨_, c, ?_, hc, ?_, rfl, ?_, ?_, ?_⟩
  · rw [hclose]
    exact hscoped
  · simp [Output.code, henter]
  · simp [hclose, hscopes]
  · simp [hclose, SymbolTable.size]
  · intro id
    rw [hclose]
    exact SymbolTable.fileBinding_define (SymbolTable.define?_eq hbuiltin) fun _ => hname

/-- A function in its place, with the context in which its code was generated. -/
structure Placed (t symbols : SymbolTable) (code : List Instr) (f : Function) (start : Nat)
    (cx : Context) : Prop where
  entry : symbols.fileBinding (idOf t f.name) = ⟨.function, .int, Word.ofNat start⟩
  code : CodeAt code start (.enter (Word.ofNat f.locals.length) ::
    (Stmt.codeAll (cx.env (idOf t)) (start + 1) f.body ++ [.leave]))
  nodup : (f.params ++ f.locals).Nodup
  inner : ∀ x o, f.offset x = some o → (cx.env (idOf t)).address x = .lea (Int64.ofInt o)
  outer : ∀ x ∈ Stmt.namesAll f.body, f.offset x = none →
    cx.binding (idOf t x) = symbols.fileBinding (idOf t x)

/-- Functions that can be added to an output whose file-level bindings are `file`. -/
structure Definable (t : SymbolTable) (file : SymbolId → Binding) (fs : List Function) : Prop where
  nodup : (fs.map Function.name).Nodup
  name_found : ∀ f ∈ fs, (Lex.name f.name).Found t
  found : ∀ f ∈ fs, ∀ x ∈ f.params ++ f.locals ++ Stmt.namesAll f.body, (Lex.name x).Found t
  builtin : ∀ f ∈ fs, SymbolTable.isBuiltin (idOf t f.name) = false
  unbound : ∀ f ∈ fs, file (idOf t f.name) = .unbound

theorem Scoped.isInt {f : Function} {cx : Context} {file : SymbolId → Binding}
    (h : Scoped (idOf t) f cx file) (hint : ∀ id, (file id).IsInt) (id : SymbolId) :
    (cx.binding id).IsInt := by
  by_cases hmem : id ∈ (f.params ++ f.locals).map (idOf t)
  · obtain ⟨x, hx, rfl⟩ := List.mem_map.mp hmem
    cases hoffset : f.offset x with
    | none => exact absurd hx (Function.offset_eq_none.mp hoffset)
    | some o =>
      obtain ⟨slot, hbinding, -⟩ := h.inner x o hoffset
      rw [hbinding]
      exact ⟨nofun, .inl rfl⟩
  · rw [h.outer id hmem]
    exact hint id

theorem Scoped.binding_eq (hi : t.Indexed) {f : Function} {cx : Context}
    {file : SymbolId → Binding} {x : Name} (h : Scoped (idOf t) f cx file)
    (hfound : ∀ y ∈ f.params ++ f.locals, (Lex.name y).Found t)
    (hx : (Lex.name x).Found t) (hoffset : f.offset x = none) :
    cx.binding (idOf t x) = file (idOf t x) := by
  refine h.outer _ fun hmem => ?_
  obtain ⟨y, hy, heq⟩ := List.mem_map.mp hmem
  obtain rfl := idOf_inj hi (hfound y hy) hx heq
  exact Function.offset_eq_none.mp hoffset hy

theorem Scoped.address_eq {f : Function} {cx : Context} {file : SymbolId → Binding} {x : Name}
    {o : Int} (h : Scoped (idOf t) f cx file) (ho : f.offset x = some o) :
    (cx.env (idOf t)).address x = .lea (Int64.ofInt o) := by
  obtain ⟨slot, hbinding, hslot⟩ := h.inner x o ho
  show (cx.binding (idOf t x)).address cx.frame = _
  rw [hbinding, Binding.address, if_pos rfl, hslot]

theorem placed_of_generate (hi : t.Indexed) {fs : List Function} {o o' : Output}
    (h : (fs.map (Function.tree (idOf t))).foldlM Item.generate o = some o')
    (hscopes : o.symbols.scopes = []) (hsize : o.symbols.size = t.size)
    (hint : ∀ id, (o.symbols.fileBinding id).IsInt)
    (hdef : Definable t o.symbols.fileBinding fs) :
    (∀ f ∈ fs, ∃ start cx, Placed t o'.symbols o'.code f start cx) ∧
      o'.symbols.scopes = [] ∧ (∃ more, o'.code = o.code ++ more) ∧ o'.data = o.data ∧
      ∀ id, id ∉ fs.map (fun f => idOf t f.name) →
        o'.symbols.fileBinding id = o.symbols.fileBinding id := by
  induction fs generalizing o with
  | nil =>
    obtain rfl := Option.some.inj h
    exact ⟨by simp, hscopes, ⟨[], by simp⟩, rfl, by simp⟩
  | cons f fs ih =>
    rw [List.map_cons, List.foldlM_cons, Option.bind_eq_bind, Option.bind_eq_some_iff] at h
    obtain ⟨o₁, hf, h⟩ := h
    have hfound := hdef.name_found f (by simp)
    obtain ⟨cx, c, hscoped, hc, hcode, hdata, hscopes₁, hsize₁, hfile₁⟩ :=
      Function.generate_ok hf hscopes (hsize ▸ idOf_lt hi hfound) (hdef.builtin f (by simp))
    have hnodup := List.nodup_cons.mp hdef.nodup
    have hne : ∀ g ∈ fs, idOf t g.name ≠ idOf t f.name := by
      intro g hg heq
      have hname := idOf_inj hi (hdef.name_found g (by simp [hg])) hfound heq
      exact hnodup.1 (hname ▸ List.mem_map_of_mem hg)
    have hint₁ : ∀ id, (o₁.symbols.fileBinding id).IsInt := by
      intro id
      rw [hfile₁]
      split
      · exact ⟨nofun, .inl rfl⟩
      · exact hint id
    have hdef₁ : Definable t o₁.symbols.fileBinding fs :=
      ⟨hnodup.2, fun g hg => hdef.name_found g (by simp [hg]),
        fun g hg => hdef.found g (by simp [hg]), fun g hg => hdef.builtin g (by simp [hg]),
        fun g hg => by rw [hfile₁, if_neg (hne g hg), hdef.unbound g (by simp [hg])]⟩
    obtain ⟨hplaced, hscopes', ⟨more, hmore⟩, hdata', hfile⟩ :=
      ih h hscopes₁ (hsize₁.trans hsize) hint₁ hdef₁
    obtain ⟨hcode', hdata₁, hbound⟩ := Stmt.codedAll (fun x _ => hscoped.isInt hint₁ (idOf t x)) hc
    refine ⟨?_, hscopes', ⟨_, by rw [hmore, hcode, List.append_assoc]⟩, ?_, ?_⟩
    · intro g hg
      rcases List.mem_cons.mp hg with rfl | hg
      · refine ⟨o.code.length, cx, ?_, ?_, List.Nodup.of_map _ hscoped.nodup,
          fun x o ho => hscoped.address_eq ho, fun x hx hoffset => ?_⟩
        · rw [hfile _ (by simpa using hne), hfile₁, if_pos rfl]
        · rw [hmore, hcode, hcode']
          exact CodeAt.extend ⟨o.code, [], by simp, rfl⟩ more
        · have hnames := hdef.found g hg
          have hbinding := hscoped.binding_eq hi (fun y hy => hnames y (List.mem_append_left _ hy))
            (hnames x (List.mem_append_right _ hx)) hoffset
          rw [hbinding, hfile]
          -- A function defined further below is not bound yet.
          intro hmem
          obtain ⟨g', hg', heq⟩ := List.mem_map.mp hmem
          refine hbound x hx ?_
          rw [hbinding, ← heq, hdef₁.unbound g' hg']
          rfl
      · exact hplaced g hg
    · rw [hdata', hdata, hdata₁, List.append_nil]
    · intro id hid
      rw [List.map_cons, List.mem_cons, not_or] at hid
      rw [hfile id hid.2, hfile₁, if_neg hid.1]

/-! ## Globals -/

theorem globals_of_generate (hi : t.Indexed) {xs : List Name} {o o' : Output} {n : Nat}
    (h : (xs.map fun x => Item.globalVar .int (idOf t x)).foldlM Item.generate o = some o')
    (hsize : o.symbols.size = t.size) (hfound : ∀ x ∈ xs, (Lex.name x).Found t)
    (hdata : o.data = List.replicate (wordSize * n) 0)
    (hint : ∀ id, (o.symbols.fileBinding id).IsInt) :
    (∀ x ∈ xs, ∃ k, xs[k]? = some x ∧ o'.symbols.fileBinding (idOf t x) =
        ⟨.globalVar, .int, Word.ofNat (dataBase + wordSize * (n + k))⟩) ∧
      o'.data = List.replicate (wordSize * (n + xs.length)) 0 ∧
      o'.symbols.scopes = o.symbols.scopes ∧ o'.symbols.size = t.size ∧
      (∀ id, id ∉ xs.map (idOf t) → o'.symbols.fileBinding id = o.symbols.fileBinding id) ∧
      ∀ id, (o'.symbols.fileBinding id).IsInt := by
  induction xs generalizing o n with
  | nil =>
    obtain rfl := Option.some.inj h
    exact ⟨by simp, hdata, rfl, hsize, by simp, hint⟩
  | cons x xs ih =>
    rw [List.map_cons, List.foldlM_cons, Option.bind_eq_bind, Option.bind_eq_some_iff] at h
    obtain ⟨o₁, hx, h⟩ := h
    obtain ⟨symbols, hdefine, rfl⟩ := Item.generate_globalVar hx
    have hlength : o.data.length = wordSize * n := by rw [hdata, List.length_replicate]
    rw [hlength] at hdefine
    have hfile₁ : ∀ id, symbols.fileBinding id =
        if id = idOf t x then _ else o.symbols.fileBinding id := fun id =>
      SymbolTable.fileBinding_define hdefine fun _ => hsize ▸ idOf_lt hi (hfound x (by simp))
    obtain ⟨hslots, hdata', hscopes, hsize', hfile, hint'⟩ := ih h
      ((SymbolTable.size_define hdefine).trans hsize) (fun y hy => hfound y (by simp [hy]))
      (show _ = List.replicate (wordSize * (n + 1)) 0 by
        rw [hdata, List.replicate_append_replicate, Nat.mul_succ])
      (fun id => by
        rw [hfile₁]
        split
        · exact ⟨nofun, .inl rfl⟩
        · exact hint id)
    have hscopes' := hscopes.trans (SymbolTable.scopes_define hdefine)
    refine ⟨fun y hy => ?_, ?_, hscopes', hsize', ?_, hint'⟩
    · by_cases hmem : y ∈ xs
      · obtain ⟨k, hk, hbinding⟩ := hslots y hmem
        exact ⟨k + 1, hk, by rw [hbinding, Nat.add_assoc, Nat.add_comm 1]⟩
      · obtain rfl : y = x := (List.mem_cons.mp hy).resolve_right hmem
        refine ⟨0, rfl, ?_⟩
        rw [hfile, hfile₁, if_pos rfl]
        · rfl
        · intro hmem'
          obtain ⟨z, hz, heq⟩ := List.mem_map.mp hmem'
          exact hmem (idOf_inj hi (hfound z (by simp [hz])) (hfound y hy) heq ▸ hz)
    · rw [hdata', List.length_cons, Nat.add_assoc, Nat.add_comm 1]
    · intro id hid
      rw [List.map_cons, List.mem_cons, not_or] at hid
      rw [hfile id hid.2, hfile₁, if_neg hid.1]

/-! ## Names in a text -/

theorem mem_flatMap_declare {x : Name} {xs : List Name} (h : x ∈ xs) :
    Lex.name x ∈ xs.flatMap declare :=
  List.mem_flatMap.mpr ⟨x, h, by simp [declare]⟩

theorem mem_lexesParams {x : Name} {xs : List Name} (h : x ∈ xs) : Lex.name x ∈ lexesParams xs := by
  induction xs with
  | nil => simp at h
  | cons y xs ih =>
    rw [lexesParams]
    rcases List.mem_cons.mp h with rfl | h
    · simp
    · simp [ih h]

theorem mem_inParens {l : Lex} {ls : List Lex} (h : l ∈ ls) : l ∈ inParens ls := by
  simp [inParens, h]

theorem mem_inBraces {l : Lex} {ls : List Lex} (h : l ∈ ls) : l ∈ inBraces ls := by
  simp [inBraces, h]

theorem Expr.mem_lexes {e : Expr} {x : Name} (h : x ∈ e.names) : Lex.name x ∈ e.lexes := by
  induction e with
  | literal n => simp [Expr.names] at h
  | var y | preStep step y | postStep step y =>
    obtain rfl := List.mem_singleton.mp h
    simp [Expr.lexes, inParens]
  | assign y e ih =>
    refine mem_inParens ?_
    rcases List.mem_cons.mp h with rfl | h
    · simp
    · simp [ih h]
  | unary op e ih => exact mem_inParens (by simp [ih h])
  | binary op l r ihl ihr | logic op l r ihl ihr =>
    refine mem_inParens ?_
    rcases List.mem_append.mp h with h | h
    · simp [ihl h]
    · simp [ihr h]
  | cond test yes no iht ihy ihn =>
    refine mem_inParens ?_
    rw [Expr.names, List.mem_append, List.mem_append] at h
    rcases h with (h | h) | h
    · simp [iht h]
    · simp [ihy h]
    · simp [ihn h]
  | call f args ih =>
    rw [Expr.lexes, List.mem_cons]
    rcases List.mem_cons.mp h with rfl | h
    · exact .inl rfl
    · refine .inr (mem_inParens ?_)
      clear * - h ih
      induction args with
      | nil => simp [Expr.namesArgs] at h
      | cons e args ihargs =>
        rw [Expr.lexesArgs]
        rcases List.mem_append.mp h with h | h
        · simp [ih e (by simp) h]
        · simp [ihargs (fun e he => ih e (by simp [he])) h]

mutual

theorem Stmt.mem_lexes {s : Stmt} {x : Name} (h : x ∈ s.names) : Lex.name x ∈ s.lexes := by
  cases s with
  | expr e => simp [Stmt.lexes, Expr.mem_lexes h]
  | ifThen test yes =>
    rw [Stmt.lexes]
    rcases List.mem_append.mp h with h | h
    · simp [mem_inParens (Expr.mem_lexes h)]
    · simp [mem_inBraces (Stmt.mem_lexesAll h)]
  | ifElse test yes no =>
    rw [Stmt.names, List.mem_append, List.mem_append] at h
    rw [Stmt.lexes]
    rcases h with (h | h) | h
    · simp [mem_inParens (Expr.mem_lexes h)]
    · simp [mem_inBraces (Stmt.mem_lexesAll h)]
    · simp [mem_inBraces (Stmt.mem_lexesAll h)]
  | whileLoop test body =>
    rw [Stmt.lexes]
    rcases List.mem_append.mp h with h | h
    · simp [mem_inParens (Expr.mem_lexes h)]
    · simp [mem_inBraces (Stmt.mem_lexesAll h)]
  | ret value =>
    cases value with
    | none => simp [Stmt.names] at h
    | some e => simp [Stmt.lexes, Expr.mem_lexes h]
  | block body => exact mem_inBraces (Stmt.mem_lexesAll h)
  | skip => simp [Stmt.names] at h

theorem Stmt.mem_lexesAll {ss : List Stmt} {x : Name} (h : x ∈ Stmt.namesAll ss) :
    Lex.name x ∈ Stmt.lexesAll ss := by
  cases ss with
  | nil => simp [Stmt.namesAll] at h
  | cons s ss =>
    rw [Stmt.lexesAll]
    rcases List.mem_append.mp h with h | h
    · simp [Stmt.mem_lexes h]
    · simp [Stmt.mem_lexesAll h]

end

theorem Function.mem_lexes {f : Function} {x : Name}
    (h : x = f.name ∨ x ∈ f.params ++ f.locals ++ Stmt.namesAll f.body) : Lex.name x ∈ f.lexes := by
  rw [List.mem_append, List.mem_append] at h
  rw [Function.lexes]
  rcases h with rfl | (h | h) | h
  · simp
  · simp [mem_inParens (mem_lexesParams h)]
  · simp [mem_inBraces, mem_flatMap_declare h]
  · simp [mem_inBraces, Stmt.mem_lexesAll h]

/-! ## Sizes -/

/-- How many bytes a printed token takes, with the space behind it. -/
def Lex.width (l : Lex) : Nat := (Utf8.encode l.text).length + 1

theorem length_bytesOf (ls : List Lex) : (bytesOf ls).length = (ls.map Lex.width).sum := by
  rw [bytesOf, List.length_flatMap]
  congr 1
  exact List.map_congr_left fun l _ => by rw [List.length_append, Lex.width, List.length_singleton]

theorem length_encode_textOf (ls : List Lex) (l : Lex) :
    (Utf8.encode (textOf (ls ++ [l]))).length + 1 = ((ls ++ [l]).map Lex.width).sum := by
  rw [encode_textOf, List.length_append, length_bytesOf, List.map_append, List.sum_append,
    List.map_singleton, List.sum_singleton, Lex.width, Nat.add_assoc]

theorem Lex.two_le_width_name (x : Name) : 2 ≤ (Lex.name x).width := by
  obtain ⟨first, rest, htext, hfirst, hrest⟩ := toList_of_isWord x.isWord
  have hlt : ∀ c ∈ x.text.toList, c.toNat < 128 := by
    rw [htext]
    refine List.forall_mem_cons.mpr ⟨lt_of_isNameChar ?_, fun c hc => lt_of_isNameChar (hrest c hc)⟩
    rw [hfirst, Bool.true_or]
  rw [Lex.width, Lex.text, encode_eq hlt, htext]
  simp

@[simp] theorem Lex.width_int : (Lex.keyword .intKw).width = 4 := by decide +kernel

@[simp] theorem Lex.width_semicolon : semicolon.width = 2 := by decide +kernel

@[simp] theorem Lex.width_comma : (Lex.mark .comma).width = 2 := by decide +kernel

theorem wordSize_mul_length_locals (xs : List Name) :
    wordSize * xs.length ≤ ((xs.flatMap declare).map Lex.width).sum := by
  induction xs with
  | nil => simp
  | cons x xs ih =>
    have hx := Lex.two_le_width_name x
    rw [wordSize] at ih ⊢
    simp only [List.flatMap_cons, declare, List.map_append, List.map_cons, List.map_nil,
      List.sum_append, List.sum_cons, List.sum_nil, Lex.width_int, Lex.width_semicolon,
      List.length_cons]
    omega

/-- Only the last parameter has no comma behind it. -/
theorem wordSize_mul_length_params (xs : List Name) :
    wordSize * xs.length ≤ ((lexesParams xs).map Lex.width).sum + 2 := by
  induction xs with
  | nil => simp
  | cons x xs ih =>
    have hx := Lex.two_le_width_name x
    rw [wordSize] at ih ⊢
    cases xs with
    | nil =>
      simp [lexesParams]
      omega
    | cons y ys =>
      rw [lexesParams]
      simp only [List.isEmpty_cons, List.map_append, List.map_cons, List.map_nil, List.sum_append,
        List.sum_cons, List.sum_nil, Lex.width_int, Lex.width_comma, List.length_cons,
        Bool.false_eq_true, if_false] at ih ⊢
      omega

theorem Parts.exists_lexes (p : Parts) : ∃ ls, p.lexes = ls ++ [.mark .rightBrace] := by
  refine ⟨p.globals.flatMap declare ++ (p.functions.flatMap Function.lexes ++
    ([.keyword .intKw, .name .main] ++ inParens (lexesParams []) ++
      .mark .leftBrace :: (p.locals.flatMap declare ++ Stmt.lexesAll p.body))), ?_⟩
  simp [Parts.lexes, Parts.definitions, Parts.main, Function.lexes, inBraces]

/-- Every variable of a function takes as much of the text as it takes of the stack. -/
theorem Parts.wordSize_mul_le {p : Parts} {f : Function} (hf : f ∈ p.definitions) :
    wordSize * (f.params.length + f.locals.length) ≤ (Utf8.encode p.text).length := by
  have hparams := wordSize_mul_length_params f.params
  have hlocals := wordSize_mul_length_locals f.locals
  have hname := Lex.two_le_width_name f.name
  have hlexes : wordSize * (f.params.length + f.locals.length) < (f.lexes.map Lex.width).sum := by
    rw [Nat.mul_add]
    simp only [Function.lexes, inParens, inBraces, List.map_append, List.map_cons, List.map_nil,
      List.sum_append, List.sum_cons, List.sum_nil, Lex.width_int]
    omega
  have hsum : (f.lexes.map Lex.width).sum ≤ (p.lexes.map Lex.width).sum := by
    obtain ⟨before, after, hsplit⟩ := List.append_of_mem hf
    simp only [Parts.lexes, hsplit, List.flatMap_append, List.flatMap_cons, List.map_append,
      List.sum_append]
    omega
  obtain ⟨ls, hls⟩ := p.exists_lexes
  have hlength := length_encode_textOf ls (.mark .rightBrace)
  rw [hls] at hsum
  rw [Parts.text, hls]
  omega

/-! ## Programs -/

/-- Where everything is in the code and data of a program: the index at which a function begins, how
its code reaches what its names stand for, and the cell of a global. -/
structure Layout (p : Parts) (code : List Instr) (start : Function → Nat) (env : Function → Env)
    (cell : Name → Int) : Prop where
  code : ∀ f ∈ p.definitions, CodeAt code (start f) (.enter (Word.ofNat f.locals.length) ::
    (Stmt.codeAll (env f) (start f + 1) f.body ++ [.leave]))
  nodup : ∀ f ∈ p.definitions, (f.params ++ f.locals).Nodup
  address : ∀ f x, ∃ w, (env f).address x = .imm w ∨ (env f).address x = .lea w
  own : ∀ f ∈ p.definitions, ∀ x o, f.offset x = some o →
    (env f).address x = .lea (Int64.ofInt o)
  global : ∀ f ∈ p.definitions, ∀ x ∈ Stmt.namesAll f.body, f.offset x = none → x ∈ p.globals →
    (env f).address x = .imm (addr (cell x))
  callee : ∀ f ∈ p.definitions, ∀ g ∈ p.definitions, g.name ∈ Stmt.namesAll f.body →
    f.offset g.name = none → (env f).call g.name = .call (UInt64.ofNat (start g))
  cell : ∀ x ∈ p.globals, ∃ k : Nat, p.globals[k]? = some x ∧ cell x = firstCell + k

theorem Layout.extend {p : Parts} {code : List Instr} {start : Function → Nat}
    {env : Function → Env} {cell : Name → Int} (h : Layout p code start env cell)
    (more : List Instr) : Layout p (code ++ more) start env cell :=
  { h with code := fun f hf => (h.code f hf).extend more }

end Source

open Source

theorem Program.Built.layout {p : Source.Program} {limits : Limits} {program : Program}
    {items : List Syntax.Item} {o : Syntax.Output}
    (h : program.Built (Utf8.encode p.text) limits items o) :
    ∃ start env cell, Layout p.toParts program.code.toList start env cell ∧
      program.data.toList = List.replicate (wordSize * p.globals.length) 0 ∧
      program.symbols.binding SymbolTable.entry =
        ⟨.function, .int, Word.ofNat (start p.main)⟩ := by
  obtain ⟨ls, hls⟩ := p.exists_lexes
  obtain ⟨first, more, lexemes, t, hlexemes, hfresh, hfollows, htail⟩ := lexemes_textOf
    (SymbolTable.fresh_builtin limits.symbols.toNat) ls rfl (.inr rfl) [] 1
  rw [← hls, List.append_nil, ← Parts.text] at hlexemes
  rw [← hls, htail rfl] at hfollows
  have hparsed := h.parsed
  rw [Syntax.ofSource, Lexer.ofSource, hlexemes] at hparsed
  have hgen := h.generated
  rw [Syntax.names, Lexer.ofSource, hlexemes] at hgen
  obtain ⟨rfl, hfound⟩ := parse_eq_trees hfollows hparsed
  have hglobal : ∀ x ∈ p.globals, (Lex.name x).Found t := fun x hx =>
    hfound _ (List.mem_append_left _ (mem_flatMap_declare hx))
  have hnames : ∀ f ∈ p.definitions, ∀ x,
      x = f.name ∨ x ∈ f.params ++ f.locals ++ Stmt.namesAll f.body → (Lex.name x).Found t :=
    fun f hf x hx =>
      hfound _ (List.mem_append_right _ (List.mem_flatMap.mpr ⟨f, hf, Function.mem_lexes hx⟩))
  have hfunction : ∀ f ∈ p.definitions, (Lex.name f.name).Found t := fun f hf =>
    hnames f hf _ (.inl rfl)
  have hne : ∀ x ∈ p.globals, ∀ f ∈ p.definitions, idOf t x ≠ idOf t f.name := fun x hx f hf heq =>
    p.not_global f hf (idOf_inj hfresh.indexed (hglobal x hx) (hfunction f hf) heq ▸ hx)
  rw [Syntax.generate, Parts.trees, List.foldlM_append, Option.bind_eq_bind,
    Option.bind_eq_some_iff] at hgen
  obtain ⟨o₁, hglobals, hfunctions⟩ := hgen
  obtain ⟨hslots, hdata, hscopes, hsize, hfile, hint⟩ :=
    globals_of_generate (n := 0) hfresh.indexed hglobals rfl
      hglobal rfl (SymbolTable.isInt_fileBinding hfresh)
  have hdef : Definable t o₁.symbols.fileBinding p.definitions := by
    refine ⟨p.nodup, hfunction, fun f hf x hx => hnames f hf x (.inr hx),
      fun f hf => isBuiltin_idOf hfresh (hfunction f hf) (p.not_service f hf), fun f hf => ?_⟩
    rw [hfile]
    · exact fileBinding_idOf hfresh (hfunction f hf) (p.not_service f hf)
    · intro hmem
      obtain ⟨x, hx, heq⟩ := List.mem_map.mp hmem
      exact hne x hx f hf heq
  obtain ⟨hplaced, hscopes', -, hdata', hfile'⟩ :=
    placed_of_generate hfresh.indexed hfunctions (hscopes.trans hfresh.scopes_eq) hsize hint hdef
  rw [← h.symbols_eq, ← h.code_eq] at hplaced
  rw [← h.symbols_eq] at hscopes' hfile'
  have : Nonempty Syntax.Context := ⟨⟨o₁.symbols.binding, 0⟩⟩
  choose! start cx hplaced using hplaced
  choose! index hindex hbinding using hslots
  refine ⟨start, fun f => (cx f).env (idOf t), fun x => firstCell + index x,
    ⟨fun f hf => (hplaced f hf).code, fun f hf => (hplaced f hf).nodup,
      fun f x => Binding.address_cases _ _, fun f hf => (hplaced f hf).inner, ?_, ?_,
      fun x hx => ⟨index x, hindex x hx, rfl⟩⟩, ?_, ?_⟩
  · intro f hf x hx hoffset hmem
    have hfile : program.symbols.fileBinding (idOf t x) = _ :=
      (hfile' _ fun hmem' => by
        obtain ⟨g, hg, heq⟩ := List.mem_map.mp hmem'
        exact hne x hmem g hg heq.symm).trans (hbinding x hmem)
    show ((cx f).binding (idOf t x)).address (cx f).frame = _
    rw [(hplaced f hf).outer x hx hoffset, hfile, Binding.address, if_neg (by simp), Nat.zero_add,
      ofNat_dataBase_add]
  · intro f hf g hg hmem hoffset
    show (Compile.callInstr? ((cx f).binding (idOf t g.name)) (cx f).frame).getD .leave = _
    rw [(hplaced f hf).outer g.name hmem hoffset, (hplaced g hg).entry]
    rfl
  · rw [h.data_eq, hdata', hdata, Nat.zero_add]
  · rw [SymbolTable.binding_of_scopes_nil hscopes', ← idOf_main hfresh]
    exact (hplaced p.main p.main_mem).entry

end MiniC
