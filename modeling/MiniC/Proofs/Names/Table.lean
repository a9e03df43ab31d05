import MiniC.Proofs.Compiling.Regions

/-!
# The numbers of names

Names are numbered in the order in which they are first met, behind the builtin ones, as long as
there is room (`Numbered`). Every operation on a symbol table keeps to that, and keeps the index in
step with the records (`Indexed.apply`), so both hold after any sequence of operations
(`numbered_applyAll`): a name keeps its number, and keywords and services keep their bindings.
-/

namespace MiniC.SymbolTable

variable {t t' : SymbolTable} {name : String} {id : SymbolId}

/-! ## Names by number -/

theorem getElem?_names (h : id < t.size) : t.names[id]? = some (t.name id) := by
  have hid : id < t.symbols.size := h
  simp [names, SymbolTable.name, hid]

/-- Looking a name up is the inverse of asking for the name of a number. -/
theorem Indexed.lookup_eq_some_iff (h : t.Indexed) :
    t.lookup name = some id ↔ id < t.size ∧ t.name id = name := by
  rw [h.lookup_eq, List.findIdx?_eq_some_iff_getElem]
  constructor
  · rintro ⟨hlt, hname, -⟩
    rw [length_names] at hlt
    refine ⟨hlt, ?_⟩
    have hget := getElem?_names hlt
    rw [List.getElem?_eq_some_iff] at hget
    obtain ⟨_, hget⟩ := hget
    rw [← hget]
    simpa using hname
  · rintro ⟨hlt, rfl⟩
    obtain ⟨hlt', hget⟩ := List.getElem?_eq_some_iff.mp (getElem?_names hlt)
    refine ⟨hlt', by simpa using hget, fun j hj hsame => ?_⟩
    have heq : t.names[j] = t.names[id] := by
      rw [hget]
      simpa using hsame
    exact absurd ((List.Nodup.getElem_inj_iff h.nodup).mp heq) (by omega)

/-! ## Operations -/

/-- What can be done with a symbol table. -/
inductive Op where
  | intern (name : String)
  | define (id : SymbolId) (binding : Binding)
  | openScope
  | declare (id : SymbolId) (type : CType) (slot : Word)
  | closeScope

/-- The name that an operation enters. -/
def Op.interned? : Op → Option String
  | .intern name => some name
  | _ => none

/-- The table behind an operation. One that is refused changes nothing. -/
def apply (t : SymbolTable) : Op → SymbolTable
  | .intern name =>
    match t.intern name with
    | .ok (_, t') => t'
    | .error _ => t
  | .define id binding => (t.define? id binding).getD t
  | .openScope => t.openScope
  | .declare id type slot => (t.declareLocal? id type slot).getD t
  | .closeScope => t.closeScope

def applyAll (t : SymbolTable) (ops : List Op) : SymbolTable := ops.foldl apply t

/-- An operation that enters no name leaves all names as they are. -/
theorem sameNames_apply {op : Op} (h : op.interned? = none) : SameNames t (t.apply op) := by
  cases op with
  | intern name => simp [Op.interned?] at h
  | define id binding =>
    rw [apply]
    cases hdefine : t.define? id binding with
    | none => exact ⟨rfl, rfl, rfl⟩
    | some t' => exact sameNames_define hdefine
  | declare id type slot =>
    rw [apply]
    cases hdeclare : t.declareLocal? id type slot with
    | none => exact ⟨rfl, rfl, rfl⟩
    | some t' => exact sameNames_declareLocal hdeclare
  | openScope | closeScope => exact ⟨rfl, rfl, rfl⟩

theorem apply_intern_of_mem (hi : t.Indexed) (h : name ∈ t.names) :
    t.apply (.intern name) = t := by
  rw [apply, SymbolTable.intern]
  cases hl : t.lookup name with
  | none => exact absurd h (hi.lookup_eq_none_iff.mp hl)
  | some id => rfl

theorem apply_intern_of_full (hi : t.Indexed) (h : name ∉ t.names) (hfull : t.capacity ≤ t.size) :
    t.apply (.intern name) = t := by
  rw [apply, SymbolTable.intern, hi.lookup_eq_none_iff.mpr h]
  simp [Nat.not_lt.mpr hfull]

theorem apply_intern_of_room (hi : t.Indexed) (h : name ∉ t.names) (hroom : t.size < t.capacity) :
    t.apply (.intern name) = t.add ⟨name, .unbound⟩ := by
  rw [apply, SymbolTable.intern, hi.lookup_eq_none_iff.mpr h]
  simp [hroom]

theorem apply_of_intern (h : t.intern name = .ok (id, t')) : t.apply (.intern name) = t' := by
  rw [apply, h]

theorem intern_of_lookup (h : t.lookup name = some id) : t.intern name = .ok (id, t) := by
  rw [SymbolTable.intern, h]

/-- An operation leaves the names as they are, or enters a new one that there is room for. -/
theorem apply_cases (t : SymbolTable) (op : Op) : SameNames t (t.apply op) ∨
    ∃ name, t.lookup name = none ∧ t.apply op = t.add ⟨name, .unbound⟩ := by
  cases op with
  | intern name =>
    rw [apply]
    cases hintern : t.intern name with
    | error reason => exact .inl ⟨rfl, rfl, rfl⟩
    | ok entered =>
      obtain ⟨id, t'⟩ := entered
      rcases intern_cases hintern with ⟨-, rfl⟩ | ⟨hl, -, -, rfl⟩
      · exact .inl ⟨rfl, rfl, rfl⟩
      · exact .inr ⟨name, hl, rfl⟩
  | _ => exact .inl (sameNames_apply rfl)

theorem capacity_apply (t : SymbolTable) (op : Op) : (t.apply op).capacity = t.capacity := by
  rcases apply_cases t op with hsame | ⟨name, -, heq⟩
  · exact hsame.capacity_eq
  · rw [heq]
    rfl

theorem names_apply (t : SymbolTable) (op : Op) : t.names <+: (t.apply op).names := by
  rcases apply_cases t op with hsame | ⟨name, -, heq⟩
  · rw [hsame.names_eq]
  · rw [heq, names_add]
    exact List.prefix_append _ _

/-- Every operation keeps the index in step with the records. -/
theorem Indexed.apply (h : t.Indexed) (op : Op) : (t.apply op).Indexed := by
  rcases apply_cases t op with hsame | ⟨name, hl, heq⟩
  · exact hsame.indexed h
  · rw [heq]
    exact h.add (h.lookup_eq_none_iff.mp hl)

theorem Indexed.applyAll (h : t.Indexed) (ops : List Op) : (t.applyAll ops).Indexed := by
  induction ops generalizing t with
  | nil => exact h
  | cons op ops ih => exact ih (h.apply op)

theorem names_applyAll (t : SymbolTable) (ops : List Op) : t.names <+: (t.applyAll ops).names := by
  induction ops generalizing t with
  | nil => exact List.prefix_refl _
  | cons op ops ih => exact (names_apply t op).trans (ih (t.apply op))

/-- A name keeps its number for good. -/
theorem lookup_applyAll (hi : t.Indexed) (h : t.lookup name = some id) (ops : List Op) :
    (t.applyAll ops).lookup name = some id := by
  obtain ⟨rest, hrest⟩ := names_applyAll t ops
  rw [hi.lookup_eq] at h
  rw [(hi.applyAll ops).lookup_eq, ← hrest, List.findIdx?_append, h]
  rfl

/-- No operation changes the file-level binding of a keyword or a service. -/
theorem fileBinding_apply (op : Op) (hid : id < t.size) (hbuiltin : id < entry) :
    (t.apply op).fileBinding id = t.fileBinding id := by
  cases op with
  | intern name =>
    rw [apply]
    cases hintern : t.intern name with
    | error reason => rfl
    | ok entered =>
      obtain ⟨_, t'⟩ := entered
      rcases intern_cases hintern with ⟨-, rfl⟩ | ⟨-, -, -, rfl⟩
      · rfl
      · have hid' : id < t.symbols.size := hid
        simp [fileBinding, add, Array.getElem?_push, hid'.ne]
  | define id' binding =>
    rw [apply]
    cases hdefine : t.define? id' binding with
    | none => rfl
    | some t' => exact fileBinding_of_ne hdefine (.inr (decide_eq_true hbuiltin))
  | declare id' type slot =>
    rw [apply, declareLocal?]
    cases t.scopes with
    | nil => rfl
    | cons scope outer =>
      dsimp only
      split_ifs <;> rfl
  | openScope | closeScope => rfl

/-! ## Sequences of operations -/

/-- Removing what comes again, with one more name behind. -/
theorem eraseDups_concat (names : List String) (name : String) :
    (names ++ [name]).eraseDups =
      if name ∈ names then names.eraseDups else names.eraseDups ++ [name] := by
  rw [List.eraseDups_append]
  split_ifs with h
  · simp [List.removeAll, h]
  · simp [List.removeAll, h, List.eraseDups_cons]

/-- The names that a table of some capacity has room for, of those that are to be entered behind the
builtin ones. The builtin names are there even where the capacity is smaller. -/
def roster (capacity : Nat) (entered : List String) : List String :=
  (builtinSymbols.map (·.name) ++ entered).eraseDups.take (max capacity builtinSymbols.length)

/-- What holds of a table after any operations on a builtin one. -/
structure Numbered (capacity : Nat) (entered : List String) (t : SymbolTable) : Prop where
  capacity_eq : t.capacity = capacity
  indexed : t.Indexed
  names_eq : t.names = roster capacity entered
  length_le : builtinSymbols.length ≤ t.size
  builtin_eq : ∀ id < entry, t.fileBinding id = (builtin capacity).fileBinding id

theorem numbered_builtin (capacity : Nat) : Numbered capacity [] (builtin capacity) where
  capacity_eq := by rw [builtin_eq]
  indexed := indexed_builtin capacity
  names_eq := by
    have hdups : (builtinSymbols.map (·.name)).eraseDups = builtinSymbols.map (·.name) := by decide
    rw [roster, List.append_nil, hdups, List.take_of_length_le (by simp), builtin_eq]
    rfl
  length_le := by
    rw [builtin_eq]
    exact le_rfl
  builtin_eq _ _ := rfl

namespace Numbered

variable {capacity : Nat} {entered : List String}

theorem names_intern (h : Numbered capacity entered t) (name : String) :
    (t.apply (.intern name)).names = roster capacity (entered ++ [name]) := by
  have hsize : (roster capacity entered).length = t.size := by rw [← h.names_eq, length_names]
  rw [roster, List.length_take] at hsize
  rw [roster, ← List.append_assoc, eraseDups_concat]
  by_cases hmem : name ∈ t.names
  · have hknown : name ∈ builtinSymbols.map (·.name) ++ entered := by
      rw [h.names_eq] at hmem
      exact List.mem_eraseDups.mp (List.mem_of_mem_take hmem)
    rw [apply_intern_of_mem h.indexed hmem, if_pos hknown, h.names_eq, roster]
  by_cases hroom : t.size < t.capacity
  · have hcapacity := h.capacity_eq
    have hall : t.names = (builtinSymbols.map (·.name) ++ entered).eraseDups := by
      rw [h.names_eq, roster, List.take_of_length_le (by omega)]
    have hnew : name ∉ builtinSymbols.map (·.name) ++ entered := by
      rwa [hall, List.mem_eraseDups] at hmem
    have hlength : (t.names ++ [name]).length ≤ max capacity builtinSymbols.length := by
      rw [List.length_append, length_names, List.length_singleton]
      omega
    rw [apply_intern_of_room h.indexed hmem hroom, if_neg hnew, ← hall,
      List.take_of_length_le hlength, names_add]
  · have hfull := Nat.le_of_not_lt hroom
    have hcapacity := h.capacity_eq
    have hlength := h.length_le
    rw [apply_intern_of_full h.indexed hmem hfull, h.names_eq, roster]
    split_ifs
    · rfl
    · rw [List.take_append_of_le_length (by omega)]

theorem apply (h : Numbered capacity entered t) (op : Op) :
    Numbered capacity (entered ++ op.interned?.toList) (t.apply op) where
  capacity_eq := (capacity_apply t op).trans h.capacity_eq
  indexed := h.indexed.apply op
  names_eq := by
    cases op with
    | intern name => exact h.names_intern name
    | _ =>
      rw [(sameNames_apply rfl).names_eq, h.names_eq]
      simp [Op.interned?]
  length_le := by
    have hle := (names_apply t op).length_le
    rw [length_names, length_names] at hle
    exact h.length_le.trans hle
  builtin_eq id hid := by
    have hlt : id < t.size := lt_of_lt_of_le (hid.trans (by decide)) h.length_le
    rw [fileBinding_apply op hlt hid, h.builtin_eq id hid]

end Numbered

theorem numbered_applyAll (capacity : Nat) (ops : List Op) :
    Numbered capacity (ops.filterMap Op.interned?) ((builtin capacity).applyAll ops) := by
  induction ops using List.reverseRecOn with
  | nil =>
    rw [applyAll, List.foldl_nil]
    exact numbered_builtin capacity
  | append_singleton ops op ih =>
    rw [applyAll, List.foldl_concat, List.filterMap_append]
    have hlast := ih.apply op
    rwa [show [op].filterMap Op.interned? = op.interned?.toList by cases op <;> rfl]

/-- After any operations on a builtin table, looking up a name and asking for the name of a number
are inverse to each other. The names are the ones entered, in the order in which they first come and
as far as there is room. A number that is handed out for a name is the name's for good. Entering a
name fails for a new name in a full table only, and then nothing changes. Keywords and services stay
what they are. -/
theorem names_numbered (capacity : Nat) (ops : List Op) :
    let t := (builtin capacity).applyAll ops
    (∀ name id, t.lookup name = some id ↔ id < t.size ∧ t.name id = name) ∧
    t.names.Nodup ∧
    t.names = ((builtinSymbols.map (·.name) ++ ops.filterMap Op.interned?).eraseDups).take
      (max capacity 22) ∧
    (∀ name id t', t.intern name = .ok (id, t') → t' = t.apply (.intern name) ∧
      (t.lookup name = some id ∧ t' = t ∨
        t.lookup name = none ∧ id = t.size ∧ t'.names = t.names ++ [name]) ∧
      ∀ more, (t'.applyAll more).intern name = .ok (id, t'.applyAll more)) ∧
    (∀ name reason, t.intern name = .error reason ↔
      t.lookup name = none ∧ capacity ≤ t.size ∧ reason = .capacityExceeded .symbols capacity) ∧
    (∀ name reason, t.intern name = .error reason → t.apply (.intern name) = t) ∧
    ∀ id < 21, t.fileBinding id = (builtin capacity).fileBinding id := by
  intro t
  have h : Numbered capacity (ops.filterMap Op.interned?) t := numbered_applyAll capacity ops
  refine ⟨fun name id => h.indexed.lookup_eq_some_iff, h.indexed.nodup, h.names_eq, ?_,
    Compile.intern_error_iff h.capacity_eq, ?_, h.builtin_eq⟩
  · intro name id t' hintern
    refine ⟨(apply_of_intern hintern).symm, ?_, fun more => ?_⟩
    · refine (intern_cases hintern).imp_right ?_
      rintro ⟨hl, -, rfl, rfl⟩
      exact ⟨hl, rfl, names_add t _⟩
    · have hi := h.indexed.intern hintern
      exact intern_of_lookup (lookup_applyAll hi (lookup_of_intern hintern) more)
  · intro name reason hintern
    rw [apply, hintern]

end MiniC.SymbolTable
