import MiniC.Proofs.Compiling.Concatenation
import MiniC.Proofs.Names.Keywords

/-!
# Scopes

A compilation is followed from declaration to declaration (`Between`) and from name to name inside
of one (`Declaring`). A scope is open inside of functions only. It hides file-level bindings while
the function is compiled, and behind the function the table is the one before it, but for what the
function's own name stands for (`scopes_of_compile`).
-/

namespace MiniC

theorem Syntax.Parser.functionDefinition_eq {id : SymbolId} {type : CType} {item : Syntax.Item}
    {st st' : Syntax.Stream} (h : Syntax.Parser.functionDefinition id type st = some (item, st')) :
    ∃ params locals body, item = .function id type params locals body := by
  simp only [functionDefinition, bind_apply, Option.bind_eq_some_iff, Prod.exists] at h
  obtain ⟨_, _, -, params, _, -, _, _, -, token, _, -, h⟩ := h
  split at h
  · simp at h
  · simp only [bind_apply, Option.bind_eq_some_iff, Prod.exists, pure_apply, Option.some.injEq,
      Prod.mk.injEq] at h
    obtain ⟨_, _, -, locals, _, -, body, _, -, rfl, -⟩ := h
    exact ⟨params, locals, body, rfl⟩

namespace Compile

open SymbolTable (isBuiltin)
open Syntax (Item Output Parser Stmt Framed Refers)

variable {s s' : State} {source : List UInt8} {limits : Limits}

/-! ## States of a compilation -/

/-- The states between two declarations, the one before the first and the one behind the last
included. -/
inductive Between (source : List UInt8) (limits : Limits) : State → Prop
  | first {s : State} (h : advance (start source limits none) = .ok () s) : Between source limits s
  | next {s s' : State} (hs : Between source limits s) (hmore : s.current ≠ .eof)
      (h : declaration s = .ok () s') : Between source limits s'

/-- The states inside of a declaration, behind its base type and behind each of its names. -/
inductive Declaring (source : List UInt8) (limits : Limits) : CType → State → Prop
  | enumeration {s s' : State} (hs : Between source limits s)
      (htoken : s.current = .keyword .enumKw) (h : enumeration s = .ok () s') :
      Declaring source limits .int s'
  | baseType {s s' : State} {base : CType} (hs : Between source limits s)
      (hmore : s.current ≠ .eof) (htoken : s.current ≠ .keyword .enumKw)
      (h : baseType s = .ok base s') : Declaring source limits base s'
  | next {s s' : State} {base : CType} (hs : Declaring source limits base s)
      (hmore : s.current ≠ .semicolon ∧ s.current ≠ .rightBrace)
      (h : declarator base s = .ok () s') : Declaring source limits base s'

/-- The states at the parenthesis behind the name of a function that is defined. -/
def AtFunction (source : List UInt8) (limits : Limits) (id : SymbolId) (type : CType) (s : State) :
    Prop :=
  ∃ base t u, Declaring source limits base t ∧ pointerLevels base t = .ok type u ∧
    u.current = .ident id ∧ advance u = .ok () s ∧ s.current = .leftParen

/-- What has been compiled is the output for some items, and only names that have been met are
bound. -/
structure Placed (source : List UInt8) (limits : Limits) (s : State) : Prop where
  read : ∃ items, Read ⟨Syntax.names source limits, [], []⟩ items limits s
  sound : Sound (start source limits none).symbols (metAt source limits) s

namespace Placed

theorem scopes_eq (hs : Placed source limits s) : s.symbols.scopes = [] := by
  obtain ⟨items, o, hgen, hholds⟩ := hs.read
  rw [hholds.symbols_eq]
  exact ((Syntax.resolved_names source limits).items hgen).scopes

theorem keeps {α : Type} {x : CompileM α} {a : α} (hs : Placed source limits s)
    (hx : Composed .all ∅ x) (h : x s = .ok a s') :
    Sound (start source limits none).symbols (metAt source limits) s' := by
  have hsound := hx.sound (antitone_metAt source limits) (fun _ h => h.elim) hs.sound
  rwa [after_of_ok h] at hsound

/-- Moving on. -/
theorem grows_nil {α : Type} {x : CompileM α} {a : α} (hs : Placed source limits s)
    (hx : Composed .all ∅ x) (hg : Grows s s' [] []) (h : x s = .ok a s') :
    Placed source limits s' := by
  obtain ⟨items, o, hgen, hholds⟩ := hs.read
  refine ⟨⟨items, o, hgen, ?_⟩, hs.keeps hx h⟩
  rw [hg.frame_eq]
  exact hholds.grows_nil hg

/-- Reading more items. -/
theorem items {α : Type} {x : CompileM α} {a : α} (hs : Placed source limits s)
    (hx : Composed .all ∅ x)
    (hread : ∀ {o}, Holds limits s.frame o s → ∃ more, Read o more limits s')
    (h : x s = .ok a s') : Placed source limits s' := by
  obtain ⟨items, o, hgen, hholds⟩ := hs.read
  obtain ⟨more, o', hmore, hholds'⟩ := hread hholds
  exact ⟨⟨items ++ more, o', by simp [List.foldlM_append, hgen, hmore], hholds'⟩, hs.keeps hx h⟩

end Placed

theorem placed_start (source : List UInt8) (limits : Limits) :
    Placed source limits (start source limits none) where
  read :=
    ⟨[], ⟨Syntax.names source limits, [], []⟩, rfl, rfl, rfl, rfl, rfl, rfl, rfl, Nat.zero_le _⟩
  sound := sound_start source limits

theorem Between.placed (h : Between source limits s) : Placed source limits s := by
  induction h with
  | first h => exact (placed_start source limits).grows_nil .advance (advance_ok h).1 h
  | next _ _ h ih =>
    refine ih.items Advances.declaration.composed (fun hholds => ?_) h
    obtain ⟨items, -, hread⟩ := declaration_ok hholds h
    exact ⟨items, hread⟩

theorem Declaring.placed {base : CType} (h : Declaring source limits base s) :
    Placed source limits s := by
  induction h with
  | enumeration hs _ h =>
    refine hs.placed.items .enumeration (fun hholds => ?_) h
    obtain ⟨items, -, hread⟩ := enumeration_ok hholds h
    exact ⟨items, hread⟩
  | baseType hs _ _ h => exact hs.placed.grows_nil .baseType (baseType_ok h).1 h
  | next _ _ h ih =>
    refine ih.items (Advances.declarator _).composed (fun {o} hholds => ?_) h
    have hnone : Read o [] limits _ := ⟨o, rfl, hholds⟩
    obtain ⟨item, -, hread⟩ := declarator_ok hnone h
    exact ⟨[] ++ [item], hread⟩

/-- The name of the function has been met. -/
theorem AtFunction.placed {id : SymbolId} {type : CType} (h : AtFunction source limits id type s) :
    Placed source limits s ∧ id < metAt source limits s.left := by
  obtain ⟨base, t, u, ht, hptr, hid, hadv, -⟩ := h
  have hu := ht.placed.grows_nil (.pointerLevels base) (pointerLevels_ok hptr).1 hptr
  have hleft := (steps_advance u).left_le
  rw [after_of_ok hadv] at hleft
  exact ⟨hu.grows_nil .advance (advance_ok hadv).1 hadv,
    (hu.sound.current_fits id hid).2.trans_le (antitone_metAt source limits hleft)⟩

/-- The declarations of a source lead from state to state between them. -/
theorem Between.loop {fuel : Nat} {t : State} (hs : Between source limits s)
    (h : loop (· ≠ .eof) (fun _ => declaration) fuel () s = .ok () t) :
    Between source limits t := by
  induction fuel generalizing s with
  | zero =>
    cases h
    exact hs
  | succ fuel ih =>
    by_cases heof : s.current = .eof
    · rw [loop_succ_of_not_more (by simp [heof])] at h
      cases h
      exact hs
    · rw [loop_succ_of_more (by simp [heof])] at h
      obtain ⟨_, s₁, hdecl, h⟩ := bind_eq_ok.mp h
      exact ih (hs.next heof hdecl) h

/-! ## Functions -/

/-- Compiling a function: what becomes of the table, and what the body is compiled with. -/
theorem functionDefinition_scoped {id : SymbolId} {type : CType} (hs : Placed source limits s)
    (h : functionDefinition id type s = .ok () s') :
    s'.symbols =
      (s.symbols.define? id ⟨.function, type, Word.ofNat s.code.size⟩).getD s.symbols ∧
    ∃ params locals body cx c,
      Parser.functionDefinition id type s.stream =
        some (.function id type params locals body, s'.stream) ∧
      Framed params locals cx s'.symbols.fileBinding ∧
      Stmt.generateAll cx (s.code.size + 1) s.data.size body = some c ∧
      s'.code.toList =
        s.code.toList ++ .enter (Word.ofNat locals.length) :: (c.code ++ [.leave]) := by
  obtain ⟨items, o, hgen, hholds⟩ := hs.read
  obtain ⟨item, o', hread, hitem, hholds'⟩ := functionDefinition_ok hholds h
  obtain ⟨params, locals, body, rfl⟩ := Parser.functionDefinition_eq hread
  obtain ⟨cx, c, hframed, hc, hbodies, -, hsymbols⟩ := Item.generate_function hitem
  rw [← hholds.code_size, ← hholds'.symbols_eq, ← hholds.symbols_eq] at hsymbols
  rw [← hholds.code_size, ← hholds.data_size] at hc
  rw [← hholds'.symbols_eq] at hframed
  refine ⟨hsymbols, params, locals, body, cx, c, hread, hframed, hc, ?_⟩
  rw [hholds'.code_eq, hholds.code_eq, Output.code, hbodies, List.flatMap_append]
  simp [Output.code]

/-- A definition that may be refused changes one file-level binding at most. -/
theorem getD_define (t : SymbolTable) (id : SymbolId) (b : Binding) :
    ((t.define? id b).getD t).scopes = t.scopes ∧ ∀ x, x ≠ id ∨ isBuiltin x = true →
      ((t.define? id b).getD t).fileBinding x = t.fileBinding x := by
  cases hdefine : t.define? id b with
  | none => exact ⟨rfl, fun _ _ => rfl⟩
  | some t' =>
    exact ⟨SymbolTable.scopes_define hdefine, fun _ => SymbolTable.fileBinding_of_ne hdefine⟩

/-! ## Programs -/

theorem between_of_compile {p : Program} (h : Program.compile source limits = .ok p) :
    ∃ s, Between source limits s ∧ s.current = .eof ∧ p = ⟨s.code, s.data, s.symbols⟩ := by
  obtain ⟨t, hdecl, rfl⟩ := program_of_compile h
  obtain ⟨_, s₁, hadv, hloop⟩ := bind_eq_ok.mp hdecl
  have heof : t.current = .eof :=
    declarations_stop ((ready_start source limits none).proper hadv).closed hloop
  rw [whileToken_apply] at hloop
  exact ⟨t, Between.loop (.first hadv) hloop, heof, rfl⟩

theorem guarded_upTo (source : List UInt8) (limits : Limits) (k : Nat) :
    (start source limits none).symbols.Guarded (start source limits none).symbols.size
      (after declarations ((start source limits none).upTo k)).symbols :=
  (composed_declarations.sound antitone_const (fun _ h => h.elim)
    (sound_upTo source limits k)).table

/-- Scopes of a source that compiles. No scope is open between two declarations. Behind the
definition of a function the table is as before, but for what the function's own name stands for,
unless that is a service. Names that have not been met by then, as those first met in the function,
are not bound. The body is compiled with the function's parameters and locals by their names and
with file-level bindings for all other names. At whatever lexeme the compilation is looked at, no
scope binds a keyword, every spelling of a keyword is read as that keyword, and all lexemes of the
source are read as they are. -/
theorem scopes_of_compile {source : List UInt8} {limits : Limits} {p : Program}
    (h : Program.compile source limits = .ok p) :
    (∀ s, Between source limits s → s.symbols.scopes = []) ∧
    (∃ s, Between source limits s ∧ s.current = .eof ∧ p = ⟨s.code, s.data, s.symbols⟩) ∧
    (∀ id type s s', AtFunction source limits id type s → functionDefinition id type s = .ok () s' →
      s.symbols.scopes = [] ∧ s'.symbols.scopes = [] ∧
      s'.symbols =
        (s.symbols.define? id ⟨.function, type, Word.ofNat s.code.size⟩).getD s.symbols ∧
      (∀ x, x ≠ id ∨ isBuiltin x = true →
        s'.symbols.fileBinding x = s.symbols.fileBinding x) ∧
      (∀ x, metAt source limits s.left ≤ x →
        s.symbols.fileBinding x = .unbound ∧ s'.symbols.fileBinding x = .unbound) ∧
      ∃ params locals body cx c,
        Parser.functionDefinition id type s.stream =
          some (.function id type params locals body, s'.stream) ∧
        Framed params locals cx s'.symbols.fileBinding ∧
        Stmt.generateAll cx (s.code.size + 1) s.data.size body = some c ∧
        Refers cx (Stmt.usesIn body) c ∧
        s'.code.toList =
          s.code.toList ++ .enter (Word.ofNat locals.length) :: (c.code ++ [.leave])) ∧
    ∀ k < (start source limits none).left,
      ∃ s, Interrupted declarations ((start source limits none).upTo k) s ∧
        (∀ scope ∈ s.symbols.scopes, ∀ e ∈ scope, ∀ kw,
          (s.symbols.fileBinding e.1).kind ≠ .keyword kw) ∧
        (∀ name kw, (name, kw) ∈ Keyword.spellings →
          Lexer.enter s.symbols name = (.ok (.keyword kw), s.symbols)) ∧
        ∀ (j : Nat) l, (start source limits none).rest.items[j]? = some l →
          { (reader source limits).behind j with symbols := s.symbols }.next.1 = l.token := by
  refine ⟨fun s hs => hs.placed.scopes_eq, between_of_compile h, ?_, ?_⟩
  · intro id type s s' hat hfun
    obtain ⟨hplaced, hid⟩ := hat.placed
    obtain ⟨hsymbols, params, locals, body, cx, c, hread, hframed, hc, hcode⟩ :=
      functionDefinition_scoped hplaced hfun
    obtain ⟨hscopes, hother⟩ :=
      getD_define s.symbols id ⟨.function, type, Word.ofNat s.code.size⟩
    rw [← hsymbols] at hscopes hother
    refine ⟨hplaced.scopes_eq, hscopes.trans hplaced.scopes_eq, hsymbols, hother, fun x hx => ?_,
      params, locals, body, cx, c, hread, hframed, hc, Stmt.generateAll_refers hc, hcode⟩
    -- the function's own name has been met, so it is none of these
    have hunbound := hplaced.sound.table.unbound x hx
    rw [hother x (.inl (Nat.ne_of_gt (hid.trans_le hx)))]
    exact ⟨hunbound, hunbound⟩
  · obtain ⟨t, hdecl, -⟩ := program_of_compile h
    have hready := ready_start source limits none
    intro k hk
    obtain ⟨s, hs⟩ := hready.interrupted rfl hdecl hk
    have hguarded := guarded_upTo source limits k
    rw [after_of_error hs.1] at hguarded
    refine ⟨s, hs, fun scope hscope e he kw => ?_, fun name kw hkw => ?_, fun j l hl => ?_⟩
    · rw [Ne, hguarded.keyword_iff]
      exact (hguarded.locals scope hscope e he).1 kw
    · exact Lexer.enter_keyword hguarded (fresh_start source limits) hkw
    · obtain ⟨token, htoken⟩ := (hready.declarations_ok hdecl).2 l (List.mem_of_getElem? hl)
      rw [htoken]
      exact (reads_start source limits none).reread (fresh_reader source limits) hguarded hl htoken

/-- A function whose parameters and local hide the function itself, a service and the entry point,
which are used behind it. -/
def hidingSource : List UInt8 := Utf8.encode
  "int f(int f, int printf) { int main; while (main) main = f - printf; }
   int main() { return f(7, printf(0)); }"

def hidingLimits : Limits := .ofPoolSize Limits.defaultPoolSize

/-- The state at the parenthesis behind the name of the function. -/
def hidingState : State :=
  after advance (after (pointerLevels .int) (after baseType (after advance
    (start hidingSource hidingLimits none))))

/-- The value that an action ends with. -/
def value? {α : Type} (x : CompileM α) (s : State) : Option α :=
  match x s with
  | .ok a _ => some a
  | .error _ _ => none

theorem eq_ok_after {α : Type} {x : CompileM α} {a : α} (h : value? x s = some a) :
    x s = .ok a (after x s) := by
  rw [value?] at h
  cases hx : x s with
  | error e s' => simp [hx] at h
  | ok b s' =>
    rw [hx] at h
    rw [Option.some.inj h, after_of_ok hx]

theorem atFunction_hiding : AtFunction hidingSource hidingLimits 22 .int hidingState := by
  have hrun :
      let s₀ := start hidingSource hidingLimits none
      let s₁ := after advance s₀
      let s₂ := after baseType s₁
      let s₃ := after (pointerLevels .int) s₂
      value? advance s₀ = some () ∧ s₁.current ≠ .eof ∧ s₁.current ≠ .keyword .enumKw ∧
      value? baseType s₁ = some .int ∧ value? (pointerLevels .int) s₂ = some .int ∧
      s₃.current = .ident 22 ∧ value? advance s₃ = some () ∧ hidingState.current = .leftParen := by
    decide +kernel
  obtain ⟨hadvance, hmore, htoken, hbase, hlevels, hid, hname, hparen⟩ := hrun
  exact ⟨.int, _, _, .baseType (.first (eq_ok_after hadvance)) hmore htoken (eq_ok_after hbase),
    eq_ok_after hlevels, hid, eq_ok_after hname, hparen⟩

theorem scopes_of_hiding :
    ∃ p s t, Program.compile hidingSource hidingLimits = .ok p ∧
      functionDefinition 22 .int hidingState = .ok () s ∧ s.symbols.scopes = [] ∧
      s.symbols.fileBinding SymbolTable.entry = hidingState.symbols.fileBinding SymbolTable.entry ∧
      Interrupted declarations ((start hidingSource hidingLimits none).upTo 17) t ∧
      t.symbols.scopes.map List.length = [3] ∧
      Lexer.enter t.symbols "while" = (.ok (.keyword .whileKw), t.symbols) := by
  have hok : (Program.compile hidingSource hidingLimits).toOption.isSome := by decide +kernel
  have hfun : functionDefinition 22 .int hidingState =
      .ok () (after (functionDefinition 22 .int) hidingState) := eq_ok_after (by decide +kernel)
  have hscope : (after declarations
      ((start hidingSource hidingLimits none).upTo 17)).symbols.scopes.map List.length = [3] := by
    decide +kernel
  cases h : Program.compile hidingSource hidingLimits with
  | error e => simp [h, Except.toOption] at hok
  | ok p =>
    obtain ⟨-, -, hfunctions, hpoints⟩ := scopes_of_compile h
    obtain ⟨-, hclosed, -, hother, -⟩ := hfunctions 22 .int _ _ atFunction_hiding hfun
    obtain ⟨t, ht, -, hkeyword, -⟩ := hpoints 17 (by decide +kernel)
    rw [after_of_error ht.1] at hscope
    exact ⟨p, _, t, rfl, hfun, hclosed, hother _ (.inl (by decide)), ht, hscope,
      hkeyword _ _ (by decide)⟩

end Compile

end MiniC
