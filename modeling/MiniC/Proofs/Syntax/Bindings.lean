import MiniC.Proofs.Syntax.Generate
import MiniC.Proofs.Syntax.Parser

/-!
# What names stand for

The index of a table leads from the names to the numbers of their records (`Indexed`). The table
that reading a source leaves behind holds the builtin records and otherwise names that are not bound
yet (`names_fresh`). A definition changes one file-level binding, and the variables of a function
hide file-level bindings as long as its scope is open (`framed_of_declareAll`).
-/

namespace MiniC

namespace SymbolTable

variable {t t' : SymbolTable} {name : String} {id : SymbolId} {b : Binding}

/-! ## Definitions -/

theorem define?_eq (h : isBuiltin id = false) :
    t.define? id b =
      some { t with symbols := t.symbols.modify id fun s => { s with binding := b } } := by
  rw [define?, h]
  rfl

theorem scopes_define (h : t.define? id b = some t') : t'.scopes = t.scopes := by
  unfold define? at h
  split at h
  · simp at h
  · rw [← Option.some.inj h]

theorem size_define (h : t.define? id b = some t') : t'.size = t.size := by
  unfold define? at h
  split at h
  · simp at h
  · rw [← Option.some.inj h]
    simp [size]

theorem fileBinding_define {id' : SymbolId} (h : t.define? id b = some t')
    (hid : id' = id → id < t.size) :
    t'.fileBinding id' = if id' = id then b else t.fileBinding id' := by
  unfold define? at h
  split at h
  · simp at h
  · rw [← Option.some.inj h]
    by_cases heq : id' = id
    · have hlt : id < t.symbols.size := hid heq
      have hget := Array.getElem?_eq_getElem hlt
      subst heq
      simp [fileBinding, Array.getElem?_modify, hget]
    · simp [fileBinding, Array.getElem?_modify, heq, Ne.symm heq]

theorem fileBinding_define_self (h : t.define? id b = some t') (hid : id < t.size) :
    t'.fileBinding id = b := by
  rw [fileBinding_define h fun _ => hid, if_pos rfl]

/-- A definition changes one binding at most, and no builtin one. -/
theorem fileBinding_of_ne {id' : SymbolId} (h : t.define? id b = some t')
    (hid : id' ≠ id ∨ isBuiltin id' = true) : t'.fileBinding id' = t.fileBinding id' := by
  have hne : id' ≠ id := by
    rintro rfl
    rw [define?, if_pos (hid.resolve_left (by simp))] at h
    simp at h
  rw [fileBinding_define h fun heq => absurd heq hne, if_neg hne]

theorem fileBinding_of_size_le (h : t.size ≤ id) : t.fileBinding id = .unbound := by
  rw [fileBinding, Array.getElem?_eq_none h]

/-- What a name stands for behind a definition. -/
theorem fileBinding_define_or (h : t.define? id b = some t') (x : SymbolId) :
    t'.fileBinding x = t.fileBinding x ∨ t'.fileBinding x = b := by
  by_cases hx : x = id
  · subst hx
    by_cases hlt : x < t.size
    · exact .inr (fileBinding_define_self h hlt)
    · have hle : t.size ≤ x := Nat.le_of_not_lt hlt
      have hle' : t'.size ≤ x := by rw [size_define h]; exact hle
      exact .inl (by rw [fileBinding_of_size_le hle, fileBinding_of_size_le hle'])
  · exact .inl (fileBinding_of_ne h (.inl hx))

theorem binding_of_scopes_nil (h : t.scopes = []) : t.binding = t.fileBinding := by
  funext id
  rw [binding, h]

/-! ## Names and numbers -/

/-- The names of a table, in the order of their numbers. -/
def names (t : SymbolTable) : List String := t.symbols.toList.map (·.name)

@[simp]
theorem length_names (t : SymbolTable) : t.names.length = t.size := by
  rw [names, List.length_map, Array.length_toList, size]

@[simp]
theorem names_add (t : SymbolTable) (s : Symbol) : (t.add s).names = t.names ++ [s.name] := by
  simp [names, add]

/-- No name comes twice, and the index leads from each name to its number. -/
structure Indexed (t : SymbolTable) : Prop where
  nodup : t.names.Nodup
  index_eq : t.index = t.names.zipIdx.reverse

theorem Indexed.add {s : Symbol} (h : t.Indexed) (hnew : s.name ∉ t.names) :
    (t.add s).Indexed where
  nodup := by
    rw [names_add]
    exact List.concat_eq_append ▸ h.nodup.concat hnew
  index_eq := by
    rw [names_add, List.zipIdx_append, List.reverse_append, ← h.index_eq, Nat.zero_add,
      length_names]
    rfl

theorem foldl_add (symbols : List Symbol) (t : SymbolTable) : symbols.foldl add t = { t with
    symbols := t.symbols ++ symbols.toArray
    index := ((symbols.map (·.name)).zipIdx t.size).reverse ++ t.index } := by
  induction symbols generalizing t with
  | nil => simp
  | cons s symbols ih => simp [ih, add, size]

theorem builtin_eq (capacity : Nat) : builtin capacity =
    ⟨builtinSymbols.toArray, (builtinSymbols.map (·.name)).zipIdx.reverse, [], capacity⟩ := by
  rw [builtin, foldl_add]
  simp [size]

theorem size_builtin (capacity : Nat) : (builtin capacity).size = builtinSymbols.length := by
  rw [builtin_eq]
  rfl

theorem indexed_builtin (capacity : Nat) : (builtin capacity).Indexed where
  nodup := by
    rw [builtin_eq]
    show (builtinSymbols.map (·.name)).Nodup
    decide
  index_eq := by
    rw [builtin_eq]
    rfl

theorem lookup_zipIdx_reverse {names : List String} (h : names.Nodup) (name : String) :
    names.zipIdx.reverse.lookup name = names.findIdx? (· == name) := by
  -- the index has the latest name in front, so the names are taken off at their end
  induction names using List.reverseRecOn with
  | nil => rfl
  | append_singleton names last ih =>
    obtain ⟨hnames, -, hnew⟩ := List.nodup_append.mp h
    rw [List.zipIdx_append, List.reverse_append, List.findIdx?_append, ← ih hnames]
    by_cases heq : name = last
    · subst heq
      have hnone : names.findIdx? (· == name) = none := by
        rw [List.findIdx?_eq_none_iff]
        exact fun other hother => beq_eq_false_iff_ne.mpr (hnew other hother name (by simp))
      simp [ih hnames, hnone]
    · simp [List.lookup_cons, beq_eq_false_iff_ne.mpr heq, Ne.symm heq]

/-- Asking the index is going through the records for the name. -/
theorem Indexed.lookup_eq (h : t.Indexed) (name : String) :
    t.lookup name = t.names.findIdx? (· == name) := by
  rw [lookup, h.index_eq, lookup_zipIdx_reverse h.nodup]

theorem Indexed.lookup_eq_none_iff (h : t.Indexed) : t.lookup name = none ↔ name ∉ t.names := by
  rw [h.lookup_eq, List.findIdx?_eq_none_iff]
  constructor
  · intro hnone hmem
    simpa using hnone name hmem
  · intro hnew other hother
    rw [beq_eq_false_iff_ne]
    rintro rfl
    exact hnew hother

theorem lookup_mono (hi : t.Indexed) (hi' : t'.Indexed)
    (h : t.symbols.toList <+: t'.symbols.toList) (hid : t.lookup name = some id) :
    t'.lookup name = some id := by
  obtain ⟨rest, hrest⟩ := h
  rw [hi.lookup_eq] at hid
  rw [hi'.lookup_eq, names, ← hrest, List.map_append, List.findIdx?_append]
  exact (congrArg (Option.or · _) hid).trans rfl

theorem getElem?_of_lookup (hi : t.Indexed) (h : t.lookup name = some id) :
    ∃ s, t.symbols[id]? = some s ∧ s ∈ t.symbols.toList ∧ s.name = name := by
  rw [hi.lookup_eq, names, List.findIdx?_map, List.findIdx?_eq_some_iff_getElem] at h
  obtain ⟨hlt, hname, -⟩ := h
  refine ⟨t.symbols.toList[id], ?_, List.getElem_mem hlt, by simpa using hname⟩
  rw [← Array.getElem?_toList, List.getElem?_eq_getElem hlt]

/-- Different names have different numbers. -/
theorem lookup_inj {name' : String} (hi : t.Indexed) (h : t.lookup name = some id)
    (h' : t.lookup name' = some id) : name = name' := by
  obtain ⟨s, hs, -, rfl⟩ := getElem?_of_lookup hi h
  obtain ⟨s', hs', -, rfl⟩ := getElem?_of_lookup hi h'
  rw [hs] at hs'
  rw [Option.some.inj hs']

/-- A name that is entered has a number before, or gets the next one. -/
theorem intern_cases (h : t.intern name = .ok (id, t')) :
    t.lookup name = some id ∧ t' = t ∨
      t.lookup name = none ∧ t.size < t.capacity ∧ id = t.size ∧ t' = t.add ⟨name, .unbound⟩ := by
  rw [intern] at h
  cases hl : t.lookup name with
  | some i =>
    simp only [hl, Except.ok.injEq, Prod.mk.injEq] at h
    obtain ⟨rfl, rfl⟩ := h
    exact .inl ⟨rfl, rfl⟩
  | none =>
    simp only [hl] at h
    split_ifs at h with hroom
    simp only [Except.ok.injEq, Prod.mk.injEq] at h
    obtain ⟨rfl, rfl⟩ := h
    exact .inr ⟨rfl, hroom, rfl, rfl⟩

theorem lookup_of_intern (h : t.intern name = .ok (id, t')) : t'.lookup name = some id := by
  rcases intern_cases h with ⟨hl, rfl⟩ | ⟨-, -, rfl, rfl⟩
  · exact hl
  · exact List.lookup_cons_self

theorem Indexed.intern (hi : t.Indexed) (h : t.intern name = .ok (id, t')) : t'.Indexed := by
  rcases intern_cases h with ⟨-, rfl⟩ | ⟨hl, -, -, rfl⟩
  · exact hi
  · exact hi.add (hi.lookup_eq_none_iff.mp hl)

/-! ## The table of names -/

/-- A table that holds the builtin records, and otherwise names that are not bound yet. -/
structure Fresh (t : SymbolTable) : Prop where
  scopes_eq : t.scopes = []
  builtin_le : builtinSymbols <+: t.symbols.toList
  unbound : ∀ s ∈ t.symbols.toList, s ∈ builtinSymbols ∨ s.binding = .unbound
  indexed : t.Indexed

theorem fresh_builtin (capacity : Nat) : (builtin capacity).Fresh where
  scopes_eq := by rw [builtin_eq]
  builtin_le := by rw [builtin_eq]
  unbound := by
    rw [builtin_eq]
    exact fun _ h => .inl h
  indexed := indexed_builtin capacity

/-- What the names of a fresh table stand for at file level. -/
theorem Fresh.fileBinding_cases (h : t.Fresh) (id : SymbolId) :
    (∃ s ∈ builtinSymbols, t.fileBinding id = s.binding) ∨ t.fileBinding id = .unbound := by
  unfold fileBinding
  split
  · rename_i s hs
    rcases h.unbound s (List.mem_of_getElem? (by simpa using hs)) with hmem | hunbound
    · exact .inl ⟨s, hmem, rfl⟩
    · exact .inr hunbound
  · exact .inr rfl

theorem intern_ok (h : t.intern name = .ok (id, t')) (hf : t.Fresh) :
    t'.lookup name = some id ∧ t.symbols.toList <+: t'.symbols.toList ∧ t'.Fresh := by
  refine ⟨lookup_of_intern h, ?_⟩
  rcases intern_cases h with ⟨-, rfl⟩ | ⟨-, -, -, rfl⟩
  · exact ⟨List.prefix_refl _, hf⟩
  have hgrow : t.symbols.toList <+: (t.add ⟨name, .unbound⟩).symbols.toList := by simp [add]
  refine ⟨hgrow, hf.scopes_eq, hf.builtin_le.trans hgrow, ?_, hf.indexed.intern h⟩
  intro s hs
  simp only [add, Array.toList_push, List.mem_append, List.mem_singleton] at hs
  rcases hs with hs | rfl
  · exact hf.unbound s hs
  · exact .inr rfl

theorem binding_of_lookup (hf : t.Fresh) (h : t.lookup name = some id) :
    ∃ s ∈ t.symbols.toList, s.name = name ∧ t.binding id = s.binding := by
  obtain ⟨s, hs, hmem, hname⟩ := getElem?_of_lookup hf.indexed h
  exact ⟨s, hmem, hname, by simp [binding, hf.scopes_eq, fileBinding, hs]⟩

/-- A builtin record keeps its number. -/
theorem lookup_of_builtin (hf : t.Fresh)
    (h : builtinSymbols.findIdx? (·.name == name) = some id) : t.lookup name = some id := by
  refine lookup_mono (indexed_builtin 0) hf.indexed hf.builtin_le ?_
  rw [(indexed_builtin 0).lookup_eq, builtin_eq, names, List.findIdx?_map]
  exact h

end SymbolTable

open SymbolTable

theorem Lexer.next_symbols (lx : Lexer) : lx.next.2.symbols = lx.symbols ∨
    ∃ name id, lx.symbols.intern name = .ok (id, lx.next.2.symbols) := by
  unfold Lexer.next
  dsimp only
  split
  · exact .inl rfl
  · rename_i b after hrest
    split_ifs
    · exact .inl rfl
    · cases hi : lx.symbols.intern (spelling (b :: after.takeWhile Byte.isNameByte)) with
      | error reason => exact .inl rfl
      | ok r => exact .inr ⟨_, r.1, hi⟩
    · exact .inl rfl
    · split <;> exact .inl rfl
    · split <;> exact .inl rfl
    · exact .inl rfl

theorem Lexer.next_fresh {lx : Lexer} (h : lx.symbols.Fresh) : lx.next.2.symbols.Fresh := by
  rcases lx.next_symbols with heq | ⟨name, id, hintern⟩
  · rwa [heq]
  · exact (intern_ok hintern h).2.2

theorem Lexer.collect_fresh {fuel : Nat} {lx : Lexer} {read : List Lexeme} (h : lx.symbols.Fresh) :
    (Lexer.collect fuel lx read).2.Fresh := by
  induction fuel generalizing lx read with
  | zero => exact h
  | succ fuel ih =>
    have hnext := Lexer.next_fresh h
    rw [Lexer.collect]
    split
    · rename_i lx' heq
      rwa [heq] at hnext
    · rename_i token lx' _ heq
      rw [heq] at hnext
      exact ih hnext

namespace Syntax

theorem names_fresh (source : List UInt8) (limits : Limits) : (names source limits).Fresh :=
  Lexer.collect_fresh (fresh_builtin _)

/-! ## Variables of a function -/

theorem declareAll_ok {symbols symbols' : SymbolTable} {slot slot' : Word} {vs : List Variable}
    {scope : Scope} {outer : List Scope} (hscopes : symbols.scopes = scope :: outer)
    (h : declareAll symbols slot vs = some (symbols', slot')) :
    ∃ scope', symbols' = { symbols with scopes := scope' :: outer } ∧
      slot' = slot + Word.ofNat vs.length ∧ (vs.map (·.id)).Nodup ∧
      (∀ v ∈ vs, scope.lookup v.id = none) ∧
      (∀ k v, vs[k]? = some v →
        scope'.lookup v.id = some ⟨.localVar, v.type, slot + Word.ofNat k⟩) ∧
      ∀ id, id ∉ vs.map (·.id) → scope'.lookup id = scope.lookup id := by
  induction vs generalizing symbols slot scope with
  | nil =>
    simp only [declareAll, Option.some.injEq, Prod.mk.injEq] at h
    obtain ⟨rfl, rfl⟩ := h
    refine ⟨scope, by rw [← hscopes], ?_, by simp, by simp, by simp, by simp⟩
    exact (Int64.add_zero slot).symm
  | cons v vs ih =>
    simp only [declareAll, Option.bind_eq_bind, Option.bind_eq_some_iff] at h
    obtain ⟨symbols₁, hdeclare, h⟩ := h
    simp only [SymbolTable.declareLocal?, hscopes] at hdeclare
    split at hdeclare
    · simp at hdeclare
    rename_i hnone
    obtain rfl := Option.some.inj hdeclare
    obtain ⟨scope', rfl, rfl, hnodup, hfree, hslots, hother⟩ := ih rfl h
    have hne : ∀ w ∈ vs, w.id ≠ v.id ∧ scope.lookup w.id = none := by
      intro w hw
      have hlookup := hfree w hw
      by_cases heq : w.id = v.id
      · simp [heq] at hlookup
      · exact ⟨heq, by simpa [List.lookup_cons, beq_eq_false_iff_ne.mpr heq] using hlookup⟩
    have hnotMem : v.id ∉ vs.map (·.id) := by
      intro hmem
      obtain ⟨w, hw, heq⟩ := List.mem_map.mp hmem
      exact (hne w hw).1 heq
    refine ⟨scope', rfl, ?_, ?_, ?_, ?_, ?_⟩
    · rw [List.length_cons, Word.ofNat, Word.ofNat, Int64.ofNat_add, Int64.add_assoc,
        Int64.add_comm 1]
      rfl
    · rw [List.map_cons]
      exact List.nodup_cons.mpr ⟨hnotMem, hnodup⟩
    · rintro w hw
      rcases List.mem_cons.mp hw with rfl | hw
      · exact Option.not_isSome_iff_eq_none.mp hnone
      · exact (hne w hw).2
    · intro k w hw
      cases k with
      | zero =>
        obtain rfl := Option.some.inj hw
        rw [hother _ hnotMem, List.lookup_cons_self]
        simp [Word.ofNat]
      | succ k =>
        rw [hslots k w hw, Word.ofNat, Word.ofNat, Int64.ofNat_add, Int64.add_assoc,
          Int64.add_comm 1]
        rfl
    · intro id hid
      rw [List.map_cons, List.mem_cons, not_or] at hid
      rw [hother id hid.2, List.lookup_cons, beq_eq_false_iff_ne.mpr hid.1]

/-- What the code of a function is generated with: its own variables at their distances from the
frame pointer, and file-level bindings for all other names. -/
structure Framed (params locals : List Variable) (cx : Context) (file : SymbolId → Binding) :
    Prop where
  nodup : ((params ++ locals).map (·.id)).Nodup
  ofParam : ∀ (k : Nat) v, params[k]? = some v →
    ∃ slot, cx.binding v.id = ⟨.localVar, v.type, slot⟩ ∧
      cx.frame - slot = Int64.ofInt (params.length + 1 - k)
  ofLocal : ∀ (k : Nat) v, locals[k]? = some v →
    ∃ slot, cx.binding v.id = ⟨.localVar, v.type, slot⟩ ∧
      cx.frame - slot = Int64.ofInt (-1 - k)
  outer : ∀ id, id ∉ (params ++ locals).map (·.id) → cx.binding id = file id

theorem frame_sub_param (n k : Nat) :
    0 + Word.ofNat n + 1 - Word.ofNat k = Int64.ofInt (n + 1 - k) := by
  rw [Word.ofNat, Word.ofNat, Int64.ofInt_sub, Int64.ofInt_add, Int64.ofInt_eq_ofNat,
    Int64.ofInt_eq_ofNat]
  grind

theorem frame_sub_local (n k : Nat) :
    0 + Word.ofNat n + 1 - (0 + Word.ofNat n + 1 + 1 + Word.ofNat k) = Int64.ofInt (-1 - k) := by
  rw [Word.ofNat, Word.ofNat, Int64.ofInt_sub, Int64.ofInt_neg, Int64.ofInt_eq_ofNat]
  grind

/-- The variables of a function are bound in a scope of their own, the parameters from slot 0 on and
the locals behind the slots of the return address and the saved frame pointer. -/
theorem framed_of_declareAll {symbols symbols₁ symbols₂ : SymbolTable} {slot next : Word}
    {params locals : List Variable}
    (hparams : declareAll symbols.openScope 0 params = some (symbols₁, slot))
    (hlocals : declareAll symbols₁ (slot + 1 + 1) locals = some (symbols₂, next)) :
    Framed params locals ⟨symbols₂.binding, slot + 1⟩ symbols.fileBinding ∧
      next - (slot + 1 + 1) = Word.ofNat locals.length ∧ symbols₂.closeScope = symbols := by
  obtain ⟨scope₁, rfl, rfl, hnodup₁, -, hslots₁, hother₁⟩ := declareAll_ok rfl hparams
  obtain ⟨scope₂, rfl, rfl, hnodup₂, hfree₂, hslots₂, hother₂⟩ := declareAll_ok rfl hlocals
  -- A local that has the number of a parameter would have been refused.
  have hdisjoint : ∀ v ∈ params, v.id ∉ locals.map (·.id) := by
    intro v hv hmem
    obtain ⟨w, hw, heq⟩ := List.mem_map.mp hmem
    obtain ⟨k, hk⟩ := List.getElem?_of_mem hv
    have hnone := hfree₂ w hw
    rw [heq, hslots₁ k v hk] at hnone
    exact absurd hnone (by simp)
  refine ⟨⟨?_, fun k v hv => ?_, fun k v hv => ?_, fun id hid => ?_⟩, ?_, ?_⟩
  · rw [List.map_append]
    refine List.nodup_append.mpr ⟨hnodup₁, hnodup₂, ?_⟩
    rintro id hid id' hid' rfl
    obtain ⟨v, hv, rfl⟩ := List.mem_map.mp hid
    exact hdisjoint v hv hid'
  · refine ⟨Word.ofNat k, ?_, frame_sub_param params.length k⟩
    show (scope₂.lookup v.id).getD _ = _
    rw [hother₂ _ (hdisjoint v (List.mem_of_getElem? hv)), hslots₁ k v hv, Int64.zero_add]
    rfl
  · refine ⟨_, ?_, frame_sub_local params.length k⟩
    show (scope₂.lookup v.id).getD _ = _
    rw [hslots₂ k v hv]
    rfl
  · rw [List.map_append, List.mem_append, not_or] at hid
    show (scope₂.lookup id).getD _ = _
    rw [hother₂ id hid.2, hother₁ id hid.1]
    rfl
  · grind
  · cases symbols
    rfl

/-- A name of a function is bound as a variable. -/
theorem Framed.kind_eq {params locals : List Variable} {cx : Context} {file : SymbolId → Binding}
    (h : Framed params locals cx file) {id : SymbolId} (hid : id ∈ (params ++ locals).map (·.id)) :
    (cx.binding id).kind = .localVar := by
  rw [List.map_append, List.mem_append] at hid
  rcases hid with hid | hid
  · obtain ⟨v, hv, rfl⟩ := List.mem_map.mp hid
    obtain ⟨k, hk⟩ := List.getElem?_of_mem hv
    obtain ⟨slot, hslot, -⟩ := h.ofParam k v hk
    rw [hslot]
  · obtain ⟨v, hv, rfl⟩ := List.mem_map.mp hid
    obtain ⟨k, hk⟩ := List.getElem?_of_mem hv
    obtain ⟨slot, hslot, -⟩ := h.ofLocal k v hk
    rw [hslot]

theorem Item.generate_constant {id : SymbolId} {value : Word} {o o' : Output}
    (h : Item.generate o (.constant id value) = some o') :
    ∃ t, o.symbols.define? id ⟨.constant, .int, value⟩ = some t ∧ o' = { o with symbols := t } := by
  simp only [Item.generate, Option.bind_eq_bind, Option.bind_eq_some_iff, Option.some.injEq] at h
  obtain ⟨t, ht, rfl⟩ := h
  exact ⟨t, ht, rfl⟩

theorem Item.generate_globalVar {type : CType} {id : SymbolId} {o o' : Output}
    (h : Item.generate o (.globalVar type id) = some o') :
    ∃ t, o.symbols.define? id ⟨.globalVar, type, Word.ofNat (dataBase + o.data.length)⟩ = some t ∧
      o' = { o with symbols := t, data := o.data ++ List.replicate wordSize 0 } := by
  simp only [Item.generate, Option.bind_eq_bind, Option.bind_eq_some_iff, Option.some.injEq] at h
  obtain ⟨t, ht, rfl⟩ := h
  exact ⟨t, ht, rfl⟩

/-- What one function adds to the output. Its name is bound before its variables are, and its code
is generated with both. -/
theorem Item.generate_function {id : SymbolId} {type : CType} {params locals : List Variable}
    {body : List Stmt} {o o' : Output}
    (h : Item.generate o (.function id type params locals body) = some o') :
    ∃ cx c, Framed params locals cx o'.symbols.fileBinding ∧
      Stmt.generateAll cx (o.code.length + 1) o.data.length body = some c ∧
      o'.bodies = o.bodies ++
        [.ofCode [.enter (Word.ofNat locals.length)] ++ c ++ .ofCode [.leave]] ∧
      o'.data = o.data ++ c.data ∧
      o'.symbols =
        (o.symbols.define? id ⟨.function, type, Word.ofNat o.code.length⟩).getD o.symbols := by
  simp only [Item.generate, Option.bind_eq_bind, Option.bind_eq_some_iff, Option.some.injEq,
    Prod.exists] at h
  obtain ⟨symbols₁, slot, hparams, symbols₂, next, hlocals, c, hc, rfl⟩ := h
  obtain ⟨hframed, hcount, hclose⟩ := framed_of_declareAll hparams hlocals
  refine ⟨_, c, ?_, hc, by rw [hcount], rfl, hclose⟩
  rw [hclose]
  exact hframed

end Syntax

end MiniC
