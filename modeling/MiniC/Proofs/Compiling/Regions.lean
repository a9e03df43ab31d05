import MiniC.Proofs.Code.Encoding
import MiniC.Proofs.Compiling.Composition

/-!
# The regions of a compilation

Code, data and names live in regions of fixed capacity. Every step of a compilation keeps what the
regions hold within them, and the count of words in step with the code (`Step.within`), so the same
holds of every state that a run passes through (`Trace`), whether the run succeeds or not. A region
turns away exactly what does not fit.
-/

namespace MiniC

/-! ## What steps keep -/

/-- The tables hold the same names and differ at most in what these stand for. -/
structure SymbolTable.SameNames (t t' : SymbolTable) : Prop where
  names_eq : t'.names = t.names
  index_eq : t'.index = t.index
  capacity_eq : t'.capacity = t.capacity

namespace SymbolTable

variable {t t' t'' : SymbolTable} {id : SymbolId}

theorem name_eq_getD (t : SymbolTable) (id : SymbolId) : t.name id = t.names[id]?.getD "" := by
  rw [name, names, List.getElem?_map, Array.getElem?_toList]
  cases t.symbols[id]? <;> rfl

namespace SameNames

theorem trans (h : SameNames t t') (h' : SameNames t' t'') : SameNames t t'' :=
  ⟨h'.names_eq.trans h.names_eq, h'.index_eq.trans h.index_eq, h'.capacity_eq.trans h.capacity_eq⟩

theorem size_eq (h : SameNames t t') : t'.size = t.size := by
  rw [← length_names, ← length_names, h.names_eq]

theorem name_eq (h : SameNames t t') : t'.name = t.name := by
  funext id
  rw [name_eq_getD, name_eq_getD, h.names_eq]

theorem lookup_eq (h : SameNames t t') : t'.lookup = t.lookup := by
  funext name
  rw [lookup, lookup, h.index_eq]

theorem indexed (h : SameNames t t') (hi : t.Indexed) : t'.Indexed where
  nodup := h.names_eq.symm ▸ hi.nodup
  index_eq := by rw [h.index_eq, hi.index_eq, h.names_eq]

end SameNames

theorem sameNames_define {b : Binding} (h : t.define? id b = some t') : SameNames t t' := by
  rw [define?] at h
  split_ifs at h
  obtain rfl := Option.some.inj h
  refine ⟨List.ext_getElem? fun id' => ?_, rfl, rfl⟩
  simp only [names, List.getElem?_map, Array.getElem?_toList, Array.getElem?_modify]
  cases t.symbols[id']? with
  | none => simp
  | some symbol => by_cases heq : id = id' <;> simp [heq]

theorem sameNames_declareLocal {type : CType} {slot : Word}
    (h : t.declareLocal? id type slot = some t') : SameNames t t' := by
  rw [declareLocal?] at h
  split at h
  · simp at h
  · split_ifs at h
    obtain rfl := Option.some.inj h
    exact ⟨rfl, rfl, rfl⟩

end SymbolTable

namespace Compile

variable {s s' : State} {limits : Limits} {p : Permit} {ids : Set SymbolId}

theorem Step.limits_eq (h : Step p ids s s') : s'.limits = s.limits := by cases h <;> rfl

theorem Step.sameNames (h : Step p ids s s') : s.symbols.SameNames s'.symbols := by
  cases h with
  | define hdefine => exact SymbolTable.sameNames_define hdefine
  | declare hdeclare => exact SymbolTable.sameNames_declareLocal hdeclare
  | _ => exact ⟨rfl, rfl, rfl⟩

theorem Steps.sameNames (h : Steps s s') : s.symbols.SameNames s'.symbols :=
  h.keep (P := fun t => s.symbols.SameNames t.symbols) (fun hstep hs => hs.trans hstep.sameNames)
    ⟨rfl, rfl, rfl⟩

theorem words_retarget (target : UInt64) (i : Instr) : (retarget target i).words = i.words := by
  cases i <;> rfl

theorem wordCount_modify (code : Array Instr) (index : Nat) (target : UInt64) :
    wordCount (code.modify index (retarget target)).toList = wordCount code.toList := by
  rw [Array.toList_modify, wordCount, wordCount]
  congr 1
  apply List.ext_getElem?
  intro k
  simp only [List.getElem?_map, List.getElem?_modify]
  cases code.toList[k]? with
  | none => rfl
  | some i => by_cases h : index = k <;> simp [h, words_retarget]

/-- Code that ends with a load is one word longer than the code before the load. -/
theorem wordCount_pop {code : Array Instr} {width : Width} (h : code.back? = some (.load width)) :
    wordCount code.toList = wordCount code.pop.toList + 1 := by
  obtain ⟨front, rfl⟩ := Array.back?_eq_some_iff.mp h
  simp [Instr.words, Instr.operand?]

/-! ## States within their regions -/

/-- What the state holds fits the capacities, and the words are counted right. The builtin names are
there even where the capacity is smaller. -/
structure Within (limits : Limits) (s : State) : Prop where
  limits_eq : s.limits = limits
  words_eq : s.words = wordCount s.code.toList
  words_le : s.words ≤ limits.code.toNat
  data_le : s.data.size ≤ limits.data.toNat
  symbols_le : s.symbols.size ≤ max limits.symbols.toNat 22

theorem Step.within (h : Step p ids s s') (hs : Within limits s) : Within limits s' := by
  obtain ⟨hlimits, hwords, hcode, hdata, hsymbols⟩ := hs
  have hlimits' := h.limits_eq.trans hlimits
  have hsymbols' := h.sameNames.size_eq.trans_le hsymbols
  cases h with
  | emit hfit =>
    rw [hlimits] at hfit
    exact ⟨hlimits', by simp [hwords], hfit, hdata, hsymbols'⟩
  | @store bytes hfit =>
    rw [hlimits] at hfit
    have hsize : (s.data ++ bytes).size = s.data.size + bytes.length := by
      rw [← Array.length_toList, Array.toList_appendList, List.length_append, Array.length_toList]
    exact ⟨hlimits', hwords, hcode, hsize.trans_le hfit, hsymbols'⟩
  | patch index target =>
    exact ⟨hlimits', by rw [wordCount_modify]; exact hwords, hcode, hdata, hsymbols'⟩
  | loadToPush hback =>
    refine ⟨hlimits', hwords.trans ?_, hcode, hdata, hsymbols'⟩
    simp [wordCount_pop hback, Instr.words, Instr.operand?]
  | dropLoad hback =>
    refine ⟨hlimits', ?_, (Nat.sub_le _ _).trans hcode, hdata, hsymbols'⟩
    show s.words - 1 = wordCount s.code.pop.toList
    rw [hwords, wordCount_pop hback, Nat.add_sub_cancel]
  | _ => exact ⟨hlimits', hwords, hcode, hdata, hsymbols'⟩

theorem Path.within (h : Path p ids s s') (hs : Within limits s) : Within limits s' :=
  h.keep Step.within hs

theorem within_start (source : List UInt8) (limits : Limits) (listing : Option Sink) :
    Within limits (start source limits listing) where
  limits_eq := rfl
  words_eq := rfl
  words_le := Nat.zero_le _
  data_le := Nat.zero_le _
  symbols_le := ((reads_start source limits listing).bounded (bounded_reader source limits)).size_le

/-! ## What does not fit is turned away -/

theorem emit_ok_iff (hs : Within limits s) (i : Instr) :
    (∃ index s', emit i s = .ok index s') ↔ s.words + i.words ≤ limits.code.toNat := by
  rw [emit_apply, hs.limits_eq]
  split_ifs with hfit
  · simp [hfit]
  · simp [hfit]

theorem storeData_ok_iff (hs : Within limits s) (bytes : List UInt8) :
    (∃ s', storeData bytes s = .ok () s') ↔ s.data.size + bytes.length ≤ limits.data.toNat := by
  rw [storeData_apply, hs.limits_eq]
  split_ifs with hfit
  · simp [hfit]
  · simp [hfit]

theorem intern_error_iff {t : SymbolTable} {capacity : Nat} (h : t.capacity = capacity)
    (name : String) (reason : Reason) :
    t.intern name = .error reason ↔ t.lookup name = none ∧ capacity ≤ t.size ∧
      reason = .capacityExceeded .symbols capacity := by
  rw [SymbolTable.intern, h]
  cases t.lookup name with
  | some id => simp
  | none =>
    split_ifs with hroom
    · simp [hroom]
    · simp [Nat.le_of_not_lt hroom, eq_comm]

/-! ## The states of a run -/

/-- The states that a run passes through, one behind each of its basic actions. -/
inductive Trace : {α : Type} → CompileM α → State → List State → Prop
  | basic {α : Type} {x : CompileM α} (h : Basic .all Set.univ x) (s : State) :
      Trace x s [after x s]
  | fails {α β : Type} {x : CompileM α} {f : α → CompileM β} {s s' : State} {e : CompileError}
      {states : List State} (hx : Trace x s states) (h : x s = .error e s') :
      Trace (x >>= f) s states
  | seq {α β : Type} {x : CompileM α} {f : α → CompileM β} {s s' : State} {a : α}
      {states states' : List State} (hx : Trace x s states) (h : x s = .ok a s')
      (hf : Trace (f a) s' states') : Trace (x >>= f) s (states ++ states')
  | whileToken {α : Type} {more : Token → Bool} {body : α → CompileM α} {a : α} {s : State}
      {states : List State} (h : Trace (loop more body (s.left + 1) a) s states) :
      Trace (whileToken more body a) s states

variable {α : Type} {x : CompileM α}

theorem Trace.steps {states : List State} (h : Trace x s states) :
    Steps s (after x s) ∧ ∀ t ∈ states, Steps s t := by
  induction h with
  | basic h s => exact ⟨h.path s, by simpa using h.path s⟩
  | fails _ h ih =>
    rw [after_of_error h] at ih
    rwa [after_bind_of_error h]
  | seq _ h _ ihx ihf =>
    rw [after_of_ok h] at ihx
    rw [after_bind_of_ok h]
    refine ⟨ihx.1.trans ihf.1, fun t ht => ?_⟩
    rcases List.mem_append.mp ht with ht | ht
    · exact ihx.2 t ht
    · exact ihx.1.trans (ihf.2 t ht)
  | whileToken _ ih => rwa [after, whileToken_apply, ← after]

theorem trace_loop {more : Token → Bool} {body : α → CompileM α}
    (htrace : ∀ a s, ∃ states, Trace (body a) s states) (fuel : Nat) (a : α) (s : State) :
    ∃ states, Trace (loop more body fuel a) s states := by
  induction fuel generalizing s a with
  | zero => exact ⟨_, .basic (.pure a) s⟩
  | succ fuel ih =>
    suffices h : ∃ states, Trace
        (if more s.current then body a >>= loop more body fuel else pure a : CompileM α) s states by
      obtain ⟨states, h⟩ := h
      exact ⟨_, .seq (.basic .current s) rfl h⟩
    split
    · obtain ⟨states, h⟩ := htrace a s
      cases hb : body a s with
      | error e s' => exact ⟨states, .fails h hb⟩
      | ok a' s' =>
        obtain ⟨states', h'⟩ := ih a' s'
        exact ⟨states ++ states', .seq h hb h'⟩
    · exact ⟨_, .basic (.pure a) s⟩

theorem Composed.trace (h : Composed p ids x) (s : State) : ∃ states, Trace x s states := by
  induction h generalizing s with
  | basic h => exact ⟨_, .basic (h.mono p.le_all (Set.subset_univ _)) s⟩
  | @bind _ _ _ x f _ _ ihx ihf =>
    obtain ⟨states, h⟩ := ihx s
    cases hfirst : x s with
    | error e s' => exact ⟨states, .fails h hfirst⟩
    | ok a s' =>
      obtain ⟨states', h'⟩ := ihf s a s' hfirst s'
      exact ⟨states ++ states', .seq h hfirst h'⟩
  | whileToken _ _ a ih =>
    obtain ⟨states, h⟩ := trace_loop ih (s.left + 1) a s
    exact ⟨states, .whileToken h⟩

/-- The regions of a compilation are never overrun and never turn away what fits. A run passes
through states from the start on up to the last, and in all of them the words are the sum of the
widths of the instructions, and what is held fits. Names are entered while the source is read, so
the table fits after any number of readings, too. -/
theorem regions_enforced (source : List UInt8) (limits : Limits) (listing : Option Sink) :
    (∃ states, Trace declarations (start source limits listing) states) ∧
      (∀ states, Trace declarations (start source limits listing) states →
        ∀ s ∈ start source limits listing :: states ++
            [after program (start source limits listing)],
          s.words = (s.code.toList.map Instr.words).sum ∧ s.words ≤ limits.code.toNat ∧
          s.data.size ≤ limits.data.toNat ∧ s.symbols.size ≤ max limits.symbols.toNat 22 ∧
          (∀ i, (∃ index s', emit i s = .ok index s') ↔ s.words + i.words ≤ limits.code.toNat) ∧
          ∀ bytes, (∃ s', storeData bytes s = .ok () s') ↔
            s.data.size + bytes.length ≤ limits.data.toNat) ∧
      (∀ k, let t := ((fun lx => lx.next.2)^[k] (reader source limits)).symbols
        t.size ≤ max limits.symbols.toNat 22 ∧ ∀ name reason,
          t.intern name = .error reason ↔ t.lookup name = none ∧ limits.symbols.toNat ≤ t.size ∧
            reason = .capacityExceeded .symbols limits.symbols.toNat) ∧
      ∀ p s, program (start source limits listing) = .ok p s →
        p.words.length = s.words ∧ p.words.length ≤ limits.code.toNat := by
  have hrun := steps_program (start source limits listing)
  have hwithin : ∀ {s}, Steps (start source limits listing) s → Within limits s :=
    fun h => h.within (within_start source limits listing)
  refine ⟨composed_declarations.trace _, fun states h s hs => ?_, fun k => ?_, fun p s h => ?_⟩
  · have hsteps : Steps (start source limits listing) s := by
      rcases List.mem_append.mp hs with hs | hs
      · rcases List.mem_cons.mp hs with rfl | hs
        · exact .refl
        · exact h.steps.2 s hs
      · rwa [List.mem_singleton.mp hs]
    have hs := hwithin hsteps
    exact ⟨hs.words_eq, hs.words_le, hs.data_le, hs.symbols_le, emit_ok_iff hs, storeData_ok_iff hs⟩
  · have hbounded := Lexer.iterate_bounded (bounded_reader source limits) k
    exact ⟨hbounded.size_le, intern_error_iff hbounded.capacity_eq⟩
  · rw [after_of_ok h] at hrun
    have hs := hwithin hrun
    have hcode : p.code = s.code := by
      rw [program_eq] at h
      obtain ⟨_, _, -, hfinish⟩ := bind_eq_ok.mp h
      rw [finish_ok hfinish]
    have hlength : p.words.length = s.words := by
      rw [Program.words, Instr.length_encodeAll, hcode, hs.words_eq]
    exact ⟨hlength, hlength.trans_le hs.words_le⟩

end Compile

end MiniC
