import MiniC.Proofs.Compiling.Actions

/-!
# Compiling step by step

`Step` lists the changes that compiling makes to its state, and `Basic` the actions that make them
or look at the state. An action is `Composed` when it is a basic one, a sequence or a loop of
composed ones. What every step keeps is therefore kept by every run of a composed action, to
whatever end the run comes (`Composed.path`). A `Permit` says which steps may be taken: an action
that may not move on stays at its token (`Composed.stream_eq`).

A loop asks for more: each of its rounds must move over a lexeme. Then the number of lexemes left
bounds the rounds, and a loop ends for no other reason than that its condition fails
(`Composed.not_more`).

Names are numbers in these statements, and an action is composed over those that it may mention. A
token that has been looked at adds the name that it is. A state is `Proper n` when the tokens still
to come, the current one included, mention numbers below `n` only, and the end of the source stands
at the end of the lexemes and nowhere else.
-/

namespace MiniC

/-- The names that a token mentions. -/
def Token.names (token : Token) : Set SymbolId := {id | token = .ident id}

theorem Token.mem_names (id : SymbolId) : id ∈ (Token.ident id).names := rfl

namespace Compile

variable {α β : Type} {s s' : State} {n : Nat} {x : CompileM α} {f : α → CompileM β}

/-! ## Where a run ends -/

/-- The state in which a run ends, be it with a value or with an error. -/
def after (x : CompileM α) (s : State) : State :=
  match x s with
  | .ok _ s' => s'
  | .error _ s' => s'

theorem after_of_ok {a : α} (h : x s = .ok a s') : after x s = s' := by rw [after, h]

theorem after_of_error {e : CompileError} (h : x s = .error e s') : after x s = s' := by
  rw [after, h]

theorem bind_of_ok {a : α} (h : x s = .ok a s') : (x >>= f) s = f a s' := by
  show EStateM.bind x f s = _
  rw [EStateM.bind, h]

theorem bind_of_error {e : CompileError} (h : x s = .error e s') : (x >>= f) s = .error e s' := by
  show EStateM.bind x f s = _
  rw [EStateM.bind, h]

theorem after_bind_of_ok {a : α} (h : x s = .ok a s') : after (x >>= f) s = after (f a) s' := by
  rw [after, bind_of_ok h, after]

theorem after_bind_of_error {e : CompileError} (h : x s = .error e s') :
    after (x >>= f) s = s' := after_of_error (bind_of_error h)

/-! ## What the basic actions do -/

theorem after_get_bind (f : State → CompileM α) (s : State) : after (get >>= f) s = after (f s) s :=
  rfl

theorem fail_apply (reason : Reason) (s : State) :
    (fail reason : CompileM α) s = .error ⟨s.line, reason⟩ s := rfl

theorem listBefore_of_none {line : Nat} (h : s.listing = none) : listBefore line s = .ok () s := by
  rw [listBefore, get_bind, h]
  rfl

theorem next?_eq (l : Lexemes) :
    l.next? = match l.items with
      | [] => none
      | first :: items => some (first, .ofList items) := by
  obtain ⟨items, count, rfl⟩ := l
  cases items <;> rfl

theorem advance_apply (s : State) :
    advance s = match s.rest.items with
      | [] => .ok () s
      | lexeme :: items =>
        match lexeme.token with
        | .error reason => .error ⟨lexeme.line, reason⟩ s
        | .ok token =>
          listBefore lexeme.line
            { s with current := token, line := lexeme.line, rest := .ofList items } := by
  rw [advance, get_bind, next?_eq]
  cases s.rest.items with
  | nil => rfl
  | cons lexeme items =>
    obtain ⟨line, token⟩ := lexeme
    cases token <;> rfl

theorem emit_apply (i : Instr) (s : State) :
    emit i s = if s.words + i.words ≤ s.limits.code.toNat then
      .ok s.code.size { s with code := s.code.push i, words := s.words + i.words }
    else .error ⟨s.line, .capacityExceeded .code s.limits.code.toNat⟩ s := by
  rw [emit, get_bind]
  split <;> rfl

theorem storeData_apply (bytes : List UInt8) (s : State) :
    storeData bytes s = if s.data.size + bytes.length ≤ s.limits.data.toNat then
      .ok () { s with data := s.data ++ bytes }
    else .error ⟨s.line, .capacityExceeded .data s.limits.data.toNat⟩ s := by
  rw [storeData, get_bind]
  split <;> rfl

theorem patch_apply (index : Nat) (s : State) :
    patch index s = .ok ()
      { s with code := s.code.modify index (retarget (UInt64.ofNat s.code.size)) } := rfl

theorem loadToPush_apply (s : State) :
    loadToPush s = match s.code.back? with
      | some (.load width) => .ok (some width) { s with code := s.code.pop.push .push }
      | _ => .ok none s := by
  rw [loadToPush, get_bind]
  cases s.code.back? with
  | none => rfl
  | some i => cases i <;> rfl

theorem dropLoad_apply (s : State) :
    dropLoad s = match s.code.back? with
      | some (.load _) => .ok true { s with code := s.code.pop, words := s.words - 1 }
      | _ => .ok false s := by
  rw [dropLoad, get_bind]
  cases s.code.back? with
  | none => rfl
  | some i => cases i <;> rfl

theorem defineGlobal_apply (id : SymbolId) (b : Binding) (s : State) :
    defineGlobal id b s = match s.symbols.define? id b with
      | some symbols => .ok () { s with symbols }
      | none => .error ⟨s.line, .duplicateGlobal (s.symbols.name id)⟩ s := by
  rw [defineGlobal, get_bind]
  cases s.symbols.define? id b <;> rfl

theorem declare_apply (id : SymbolId) (type : CType) (slot : Word) (duplicate : String → Reason)
    (s : State) :
    declare id type slot duplicate s = match s.symbols.declareLocal? id type slot with
      | some symbols => .ok () { s with symbols }
      | none => .error ⟨s.line, duplicate (s.symbols.name id)⟩ s := by
  rw [declare, get_bind]
  cases s.symbols.declareLocal? id type slot <;> rfl

/-! ## Steps -/

/-- What an action may do, besides looking at the state, failing, storing data and binding names. -/
structure Permit where
  /-- Moving on to the next token. -/
  moves : Bool
  /-- Emitting complete instructions, and changing or removing a load at the end of the code. -/
  edits : Bool
  /-- Emitting branches without a target, and giving them their targets. -/
  branches : Bool

abbrev Permit.all : Permit := ⟨true, true, true⟩

instance : LE Permit :=
  ⟨fun p q => p.moves ≤ q.moves ∧ p.edits ≤ q.edits ∧ p.branches ≤ q.branches⟩

theorem Permit.le_refl (p : Permit) : p ≤ p := ⟨id, id, id⟩

theorem Permit.le_all (p : Permit) : p ≤ .all := ⟨fun _ => rfl, fun _ => rfl, fun _ => rfl⟩

/-- An instruction that does not wait for a target. -/
def Complete (i : Instr) : Prop := ∀ condition, i ≠ .branch condition 0

/-- One change of the state, by an action that may mention the names `ids`. Compiling makes no
others. -/
inductive Step (p : Permit) (ids : Set SymbolId) (s : State) : State → Prop
  | move {token : Token} {lexeme : Lexeme} {rest : Lexemes}
      (hrest : s.rest.items = lexeme :: rest.items) (htoken : lexeme.token = .ok token)
      (hp : p.moves = true) : Step p ids s { s with current := token, line := lexeme.line, rest }
  | list {l : Listing} (hlisting : s.listing = some l) (l' : Listing) :
      Step p ids s { s with listing := some l' }
  | emit {i : Instr} (hfit : s.words + i.words ≤ s.limits.code.toNat) (hp : p.edits = true)
      (hi : p.branches = true ∨ Complete i) :
      Step p ids s { s with code := s.code.push i, words := s.words + i.words }
  | patch (index : Nat) (target : UInt64) (hp : p.branches = true) :
      Step p ids s { s with code := s.code.modify index (retarget target) }
  | loadToPush {width : Width} (hback : s.code.back? = some (.load width)) (hp : p.edits = true) :
      Step p ids s { s with code := s.code.pop.push .push }
  | dropLoad {width : Width} (hback : s.code.back? = some (.load width)) (hp : p.edits = true) :
      Step p ids s { s with code := s.code.pop, words := s.words - 1 }
  | store {bytes : List UInt8} (hfit : s.data.size + bytes.length ≤ s.limits.data.toNat) :
      Step p ids s { s with data := s.data ++ bytes }
  | define {id : SymbolId} {b : Binding} {symbols : SymbolTable}
      (hdefine : s.symbols.define? id b = some symbols) (hid : id ∈ ids)
      (hb : ∀ k, b.kind ≠ .keyword k) : Step p ids s { s with symbols }
  | declare {id : SymbolId} {type : CType} {slot : Word} {symbols : SymbolTable}
      (hdeclare : s.symbols.declareLocal? id type slot = some symbols) (hid : id ∈ ids) :
      Step p ids s { s with symbols }
  | openScope : Step p ids s { s with symbols := s.symbols.openScope }
  | closeScope : Step p ids s { s with symbols := s.symbols.closeScope }
  | setFrame (frame : Word) : Step p ids s { s with frame }

variable {p q : Permit} {ids ids' : Set SymbolId}

/-- What is not permitted is not done. -/
theorem Step.mono (h : Step p ids s s') (hpermit : p ≤ q) (hids : ids ⊆ ids') :
    Step q ids' s s' := by
  obtain ⟨hmoves, hedits, hbranches⟩ := hpermit
  cases h with
  | move hrest htoken hp => exact .move hrest htoken (hmoves hp)
  | list hlisting l' => exact .list hlisting l'
  | emit hfit hp hi => exact .emit hfit (hedits hp) (hi.imp_left hbranches)
  | patch index target hp => exact .patch index target (hbranches hp)
  | loadToPush hback hp => exact .loadToPush hback (hedits hp)
  | dropLoad hback hp => exact .dropLoad hback (hedits hp)
  | store hfit => exact .store hfit
  | define hdefine hid hb => exact .define hdefine (hids hid) hb
  | declare hdeclare hid => exact .declare hdeclare (hids hid)
  | openScope => exact .openScope
  | closeScope => exact .closeScope
  | setFrame frame => exact .setFrame frame

/-- Any number of steps. -/
abbrev Path (p : Permit) (ids : Set SymbolId) : State → State → Prop :=
  Relation.ReflTransGen (Step p ids)

abbrev Steps : State → State → Prop := Path .all Set.univ

theorem Path.mono (h : Path p ids s s') (hpermit : p ≤ q) (hids : ids ⊆ ids') : Path q ids' s s' :=
  Relation.ReflTransGen.mono (fun _ _ hstep => Step.mono hstep hpermit hids) _ _ h

theorem Path.steps (h : Path p ids s s') : Steps s s' :=
  h.mono p.le_all (Set.subset_univ _)

/-- A sequence does what its parts can do. -/
theorem path_bind (hx : Path p ids s (after x s))
    (hf : ∀ a s', x s = .ok a s' → Path p ids s' (after (f a) s')) :
    Path p ids s (after (x >>= f) s) := by
  cases h : x s with
  | error e s' =>
    rw [after_bind_of_error h]
    rwa [after_of_error h] at hx
  | ok a s' =>
    rw [after_bind_of_ok h]
    rw [after_of_ok h] at hx
    exact hx.trans (hf a s' h)

theorem path_listLines (count : Nat) (s : State) : Path p ids s (after (listLines count) s) := by
  refine listLines_induction (motive := fun s r => Path p ids s (after (fun _ => r) s)) ?_ ?_ ?_ ?_
    count s
  · exact fun _ => .refl
  · exact fun _ _ _ _ _ => .refl
  · exact fun _ _ hl _ => .single (.list hl _)
  · exact fun _ _ _ hl _ _ ih => .head (.list hl _) ih

theorem path_listBefore (line : Nat) (s : State) : Path p ids s (after (listBefore line) s) := by
  rw [listBefore, after_get_bind]
  cases s.listing with
  | none => exact .refl
  | some l => exact path_listLines _ s

theorem path_advance (hp : p.moves = true) (s : State) : Path p ids s (after advance s) := by
  rw [after, advance_apply]
  cases hitems : s.rest.items with
  | nil => exact .refl
  | cons lexeme items =>
    dsimp only
    cases ht : lexeme.token with
    | error reason => exact .refl
    | ok token => exact .head (.move hitems ht hp) (path_listBefore _ _)

theorem steps_advance (s : State) : Steps s (after advance s) := path_advance rfl s

/-! ## States whose lexemes end -/

/-- Lexemes that end with the end of the source, and have it nowhere else. -/
def Terminated (items : List Lexeme) : Prop :=
  ∃ front line, items = front ++ [⟨line, .ok .eof⟩] ∧ ∀ l ∈ front, l.token ≠ .ok .eof

/-- A token that mentions no number from `n` on. -/
def Known (n : Nat) (token : Token) : Prop := ∀ id, token = .ident id → id < n

/-- The end of the source is still to come, or it is the current token. -/
def Closed (s : State) : Prop :=
  (s.current = .eof ∧ s.rest.items = []) ∨ (s.current ≠ .eof ∧ Terminated s.rest.items)

structure Proper (n : Nat) (s : State) : Prop where
  closed : Closed s
  current_known : Known n s.current
  rest_known : ∀ l ∈ s.rest.items, ∀ token, l.token = .ok token → Known n token

/-- Moving on over a lexeme, which may be the last. -/
theorem Terminated.move {lexeme : Lexeme} {token : Token} {items : List Lexeme}
    (h : Terminated (lexeme :: items)) (ht : lexeme.token = .ok token) :
    (token = .eof ∧ items = []) ∨ (token ≠ .eof ∧ Terminated items) := by
  obtain ⟨front, line, heq, hfront⟩ := h
  cases front with
  | nil =>
    obtain ⟨rfl, rfl⟩ := List.cons.inj heq
    exact .inl ⟨(Except.ok.inj ht).symm, rfl⟩
  | cons first front =>
    obtain ⟨rfl, rfl⟩ := List.cons.inj heq
    refine .inr ⟨fun htoken => hfront lexeme (by simp) (by rw [ht, htoken]), front, line, rfl, ?_⟩
    exact fun l hl => hfront l (List.mem_cons_of_mem _ hl)

/-- The number of lexemes still to be looked at. -/
def State.left (s : State) : Nat := s.rest.items.length

namespace Step

theorem rest_suffix (h : Step p ids s s') : s'.rest.items <:+ s.rest.items := by
  cases h with
  | move hrest => exact hrest ▸ List.suffix_cons _ _
  | _ => exact List.suffix_refl _

/-- A listing is not begun on the way. -/
theorem unlisted (h : Step p ids s s') (hs : s.listing = none) : s'.listing = none := by
  cases h with
  | list hlisting => simp [hs] at hlisting
  | _ => exact hs

theorem closed (h : Step p ids s s') (hs : Closed s) : Closed s' := by
  cases h with
  | move hrest htoken =>
    obtain ⟨-, hnil⟩ | ⟨-, hend⟩ := hs
    · simp [hnil] at hrest
    · exact (hrest ▸ hend).move htoken
  | _ => exact hs

theorem proper (h : Step p ids s s') (hs : Proper n s) : Proper n s' := by
  refine ⟨h.closed hs.closed, ?_, fun l hl => hs.rest_known l (h.rest_suffix.subset hl)⟩
  cases h with
  | move hrest htoken => exact hs.rest_known _ (hrest ▸ List.mem_cons_self) _ htoken
  | _ => exact hs.current_known

end Step

namespace Path

/-- What every step keeps, any number of steps keep. -/
theorem keep {P : State → Prop} (hstep : ∀ {s s'}, Step p ids s s' → P s → P s')
    (h : Path p ids s s') (hs : P s) : P s' := by
  induction h with
  | refl => exact hs
  | tail _ hlast ih => exact hstep hlast ih

theorem rest_suffix (h : Path p ids s s') : s'.rest.items <:+ s.rest.items :=
  h.keep (P := fun t => t.rest.items <:+ s.rest.items)
    (fun hstep hs => hstep.rest_suffix.trans hs) (List.suffix_refl _)

theorem closed (h : Path p ids s s') (hs : Closed s) : Closed s' := h.keep Step.closed hs

theorem proper (h : Path p ids s s') (hs : Proper n s) : Proper n s' := h.keep Step.proper hs

theorem left_le (h : Path p ids s s') : s'.left ≤ s.left := h.rest_suffix.length_le

/-- The lexemes that were moved over are tokens. -/
theorem read (h : Path p ids s s') : ∃ front, s.rest.items = front ++ s'.rest.items ∧
    ∀ l ∈ front, ∃ token, l.token = .ok token := by
  induction h with
  | refl => exact ⟨[], rfl, by simp⟩
  | @tail t u _ hlast ih =>
    obtain ⟨front, hfront, hread⟩ := ih
    cases hlast with
    | @move token lexeme rest hrest htoken =>
      refine ⟨front ++ [lexeme], by simp [hfront, hrest], fun l hl => ?_⟩
      rcases List.mem_append.mp hl with hl | hl
      · exact hread l hl
      · exact ⟨token, List.mem_singleton.mp hl ▸ htoken⟩
    | _ => exact ⟨front, hfront, hread⟩

end Path

/-! ## Composed actions -/

/-- The actions that others are composed of. Names are bound to anything but keywords. That no entry
point is defined is not for these actions to say: it is known at the end of the source only. -/
inductive Basic (p : Permit) (ids : Set SymbolId) : {α : Type} → CompileM α → Prop
  | pure {α : Type} (a : α) : Basic p ids (pure a)
  | fail {α : Type} {reason : Reason} (hreason : reason ≠ .mainNotDefined) :
      Basic p ids (fail reason : CompileM α)
  | current : Basic p ids current
  | here : Basic p ids here
  | dataSize : Basic p ids (do return (← get).data.size)
  | frame : Basic p ids (do return (← get).frame)
  | meaning {id : SymbolId} (hid : id ∈ ids) : Basic p ids (do
      let s ← get
      return (s.symbols.binding id, s.symbols.name id))
  | advance (hp : p.moves = true) : Basic p ids advance
  | emit {i : Instr} (hp : p.edits = true) (hi : p.branches = true ∨ Complete i) :
      Basic p ids (emit i)
  | patch (hp : p.branches = true) (index : Nat) : Basic p ids (patch index)
  | loadToPush (hp : p.edits = true) : Basic p ids loadToPush
  | dropLoad (hp : p.edits = true) : Basic p ids dropLoad
  | storeData (bytes : List UInt8) : Basic p ids (storeData bytes)
  | defineGlobal {id : SymbolId} (hid : id ∈ ids) {b : Binding} (hb : ∀ k, b.kind ≠ .keyword k) :
      Basic p ids (defineGlobal id b)
  | defineFunction {id : SymbolId} (hid : id ∈ ids) {b : Binding}
      (hb : ∀ k, b.kind ≠ .keyword k) : Basic p ids (modify fun s =>
        { s with symbols := (s.symbols.define? id b).getD s.symbols })
  | declare {id : SymbolId} (hid : id ∈ ids) (type : CType) (slot : Word)
      {duplicate : String → Reason} (hduplicate : ∀ name, duplicate name ≠ .mainNotDefined) :
      Basic p ids (declare id type slot duplicate)
  | openScope : Basic p ids (modify fun s => { s with symbols := s.symbols.openScope })
  | closeScope : Basic p ids (modify fun s => { s with symbols := s.symbols.closeScope })
  | setFrame (frame : Word) : Basic p ids (modify fun s => { s with frame })

theorem Basic.path (h : Basic p ids x) (s : State) : Path p ids s (after x s) := by
  cases h with
  | pure | fail | current | here | dataSize | frame | meaning => exact .refl
  | advance hp => exact path_advance hp s
  | emit hp hi =>
    rw [after, emit_apply]
    split_ifs with hfit
    · exact .single (.emit hfit hp hi)
    · exact .refl
  | patch hp index => exact .single (.patch index _ hp)
  | loadToPush hp =>
    rw [after, loadToPush_apply]
    cases hback : s.code.back? with
    | none => exact .refl
    | some i =>
      cases i with
      | load width => exact .single (.loadToPush hback hp)
      | _ => exact .refl
  | dropLoad hp =>
    rw [after, dropLoad_apply]
    cases hback : s.code.back? with
    | none => exact .refl
    | some i =>
      cases i with
      | load width => exact .single (.dropLoad hback hp)
      | _ => exact .refl
  | storeData bytes =>
    rw [after, storeData_apply]
    split_ifs with hfit
    · exact .single (.store hfit)
    · exact .refl
  | @defineGlobal id hid b hb =>
    rw [after, defineGlobal_apply]
    cases hdefine : s.symbols.define? id b with
    | none => exact .refl
    | some symbols => exact .single (.define hdefine hid hb)
  | @defineFunction id hid b hb =>
    show Path p ids s { s with symbols := (s.symbols.define? id b).getD s.symbols }
    cases hdefine : s.symbols.define? id b with
    | none => exact .refl
    | some symbols => exact .single (.define hdefine hid hb)
  | @declare id hid type slot duplicate _ =>
    rw [after, declare_apply]
    cases hdeclare : s.symbols.declareLocal? id type slot with
    | none => exact .refl
    | some symbols => exact .single (.declare hdeclare hid)
  | openScope => exact .single .openScope
  | closeScope => exact .single .closeScope
  | setFrame frame => exact .single (.setFrame frame)

theorem listLines_reason {count : Nat} {e : CompileError} (h : listLines count s = .error e s') :
    e.reason ≠ .mainNotDefined := by
  refine listLines_induction (motive := fun _ r => r = .error e s' → e.reason ≠ .mainNotDefined)
    (fun _ h => ?_) (fun _ _ _ _ _ h => ?_) (fun _ _ _ _ h => ?_) (fun _ _ _ _ _ _ ih => ih) count
    s h
  all_goals cases h
  · simp
  · simp

theorem listBefore_reason {line : Nat} {e : CompileError} (h : listBefore line s = .error e s') :
    e.reason ≠ .mainNotDefined := by
  rw [listBefore, get_bind] at h
  cases hl : s.listing with
  | none =>
    rw [hl] at h
    cases h
  | some l =>
    rw [hl] at h
    exact listLines_reason h

theorem Basic.reason_ne {e : CompileError} (h : Basic p ids x)
    (hread : ∀ l ∈ s.rest.items, l.token ≠ .error .mainNotDefined) (hx : x s = .error e s') :
    e.reason ≠ .mainNotDefined := by
  cases h with
  | pure | current | here | dataSize | frame | meaning | patch | defineFunction | openScope
  | closeScope | setFrame => cases hx
  | fail hreason =>
    cases hx
    exact hreason
  | advance =>
    rw [advance_apply] at hx
    cases hitems : s.rest.items with
    | nil =>
      rw [hitems] at hx
      cases hx
    | cons lexeme items =>
      rw [hitems] at hx
      cases htoken : lexeme.token with
      | error reason =>
        simp only [htoken] at hx
        cases hx
        rintro rfl
        exact hread lexeme (hitems ▸ List.mem_cons_self) htoken
      | ok token =>
        simp only [htoken] at hx
        exact listBefore_reason hx
  | emit =>
    rw [emit_apply] at hx
    split_ifs at hx
    cases hx
    simp
  | loadToPush =>
    rw [loadToPush_apply] at hx
    split at hx <;> cases hx
  | dropLoad =>
    rw [dropLoad_apply] at hx
    split at hx <;> cases hx
  | storeData bytes =>
    rw [storeData_apply] at hx
    split_ifs at hx
    cases hx
    simp
  | defineGlobal =>
    rw [defineGlobal_apply] at hx
    split at hx <;> cases hx
    simp
  | declare _ _ _ hduplicate =>
    rw [declare_apply] at hx
    split at hx <;> cases hx
    exact hduplicate _

theorem Basic.mono (h : Basic p ids x) (hpermit : p ≤ q) (hids : ids ⊆ ids') :
    Basic q ids' x := by
  obtain ⟨hmoves, hedits, hbranches⟩ := hpermit
  cases h with
  | pure a => exact .pure a
  | fail hreason => exact .fail hreason
  | current => exact .current
  | here => exact .here
  | dataSize => exact .dataSize
  | frame => exact .frame
  | meaning hid => exact .meaning (hids hid)
  | advance hp => exact .advance (hmoves hp)
  | emit hp hi => exact .emit (hedits hp) (hi.imp_left hbranches)
  | patch hp index => exact .patch (hbranches hp) index
  | loadToPush hp => exact .loadToPush (hedits hp)
  | dropLoad hp => exact .dropLoad (hedits hp)
  | storeData bytes => exact .storeData bytes
  | defineGlobal hid hb => exact .defineGlobal (hids hid) hb
  | defineFunction hid hb => exact .defineFunction (hids hid) hb
  | declare hid type slot hduplicate => exact .declare (hids hid) type slot hduplicate
  | openScope => exact .openScope
  | closeScope => exact .closeScope
  | setFrame frame => exact .setFrame frame

/-- At a token of which `pre` holds the action moves over a lexeme at least, or fails. -/
def Moves (pre : Token → Prop) (x : CompileM α) : Prop :=
  ∀ ⦃s a s'⦄, Closed s → pre s.current → x s = .ok a s' → s'.left < s.left

/-- Sequences and loops of basic actions. What follows an action may mention the name that was the
current token before it. Every round of a loop must move over a lexeme. -/
inductive Composed (p : Permit) : Set SymbolId → {α : Type} → CompileM α → Prop
  | basic {α : Type} {ids : Set SymbolId} {x : CompileM α} (h : Basic p ids x) : Composed p ids x
  | bind {α β : Type} {ids : Set SymbolId} {x : CompileM α} {f : α → CompileM β}
      (hx : Composed p ids x)
      (hf : ∀ s a s', x s = .ok a s' → Composed p (ids ∪ s.current.names) (f a)) :
      Composed p ids (x >>= f)
  | whileToken {α : Type} {ids : Set SymbolId} {more : Token → Bool} {body : α → CompileM α}
      (hbody : ∀ a, Composed p ids (body a)) (hmoves : ∀ a, Moves (more · = true) (body a))
      (a : α) : Composed p ids (whileToken more body a)

theorem whileToken_apply {more : Token → Bool} {body : α → CompileM α} {a : α} :
    whileToken more body a s = loop more body (s.left + 1) a s := by
  rw [whileToken, get_bind, s.rest.count_eq]
  rfl

theorem loop_succ_of_more {more : Token → Bool} {body : α → CompileM α} {a : α} {fuel : Nat}
    (h : more s.current = true) :
    loop more body (fuel + 1) a s = (body a >>= loop more body fuel) s := by
  show (if more s.current = true then body a >>= loop more body fuel else pure a : CompileM α) s = _
  rw [if_pos h]

theorem loop_succ_of_not_more {more : Token → Bool} {body : α → CompileM α} {a : α} {fuel : Nat}
    (h : more s.current = false) : loop more body (fuel + 1) a s = .ok a s := by
  show (if more s.current = true then body a >>= loop more body fuel else pure a : CompileM α) s = _
  rw [if_neg (by simp [h])]
  rfl

/-- What every round of a loop can do, the loop can do. -/
theorem path_loop {more : Token → Bool} {body : α → CompileM α}
    (hbody : ∀ a s, Path p ids s (after (body a) s)) (fuel : Nat) (a : α) (s : State) :
    Path p ids s (after (loop more body fuel a) s) := by
  induction fuel generalizing s a with
  | zero => exact .refl
  | succ fuel ih =>
    cases hm : more s.current with
    | false => rw [after, loop_succ_of_not_more hm]
    | true =>
      rw [after, loop_succ_of_more hm, ← after]
      exact path_bind (hbody a s) fun a' s' _ => ih a' s'

namespace Composed

theorem path (h : Composed p ids x) (s : State) : Path p Set.univ s (after x s) := by
  induction h generalizing s with
  | basic h => exact (h.path s).mono p.le_refl (Set.subset_univ _)
  | bind _ _ ihx ihf => exact path_bind (ihx s) fun a s' hx => ihf s a s' hx s'
  | whileToken _ _ a ih =>
    rw [after, whileToken_apply, ← after]
    exact path_loop ih _ a s

theorem path_ok {a : α} (h : Composed p ids x) (hx : x s = .ok a s') : Path p Set.univ s s' := by
  have hpath := h.path s
  rwa [after_of_ok hx] at hpath

theorem steps (h : Composed p ids x) (s : State) : Steps s (after x s) := (h.path s).steps

theorem steps_ok {a : α} (h : Composed p ids x) (hx : x s = .ok a s') : Steps s s' :=
  (h.path_ok hx).steps

theorem stream_eq {a : α} (h : Composed p ids x) (hp : p.moves = false) (hx : x s = .ok a s') :
    s'.stream = s.stream := by
  refine (h.path_ok hx).keep (P := fun t => t.stream = s.stream) (fun hstep hs => ?_) rfl
  cases hstep with
  | move _ _ hmoves => simp [hp] at hmoves
  | _ => exact hs

theorem mono (h : Composed p ids x) (hpermit : p ≤ q) (hids : ids ⊆ ids') :
    Composed q ids' x := by
  induction h generalizing ids' with
  | basic h => exact .basic (h.mono hpermit hids)
  | bind _ _ ihx ihf =>
    exact .bind (ihx hids) fun s a s' hx => ihf s a s' hx (Set.union_subset_union_left _ hids)
  | whileToken _ hmoves a ih => exact .whileToken (fun a => ih a hids) hmoves a

/-- A loop ends because its condition fails: the lexemes left are more than the rounds to come. -/
theorem not_more {more : Token → Bool} {body : α → CompileM α}
    (hbody : ∀ a, Composed p ids (body a)) (hmoves : ∀ a, Moves (more · = true) (body a))
    {a a' : α} (hs : Closed s) (h : Compile.whileToken more body a s = .ok a' s') :
    more s'.current = false := by
  rw [whileToken_apply] at h
  have hfuel : s.left < s.left + 1 := Nat.lt_succ_self _
  generalize s.left + 1 = fuel at h hfuel
  induction fuel generalizing s a with
  | zero => omega
  | succ fuel ih =>
    cases hm : more s.current with
    | false =>
      rw [loop_succ_of_not_more hm] at h
      cases h
      exact hm
    | true =>
      rw [loop_succ_of_more hm] at h
      obtain ⟨a₁, s₁, hb, h⟩ := bind_eq_ok.mp h
      have hlt := hmoves a hs hm hb
      exact ih (((hbody a).steps_ok hb).closed hs) h (by omega)

/-! ### Reasons -/

/-- Only the end of the source, and no composed action, finds that there is no entry point. -/
theorem reason_ne {e : CompileError} (h : Composed p ids x)
    (hread : ∀ l ∈ s.rest.items, l.token ≠ .error .mainNotDefined) (hx : x s = .error e s') :
    e.reason ≠ .mainNotDefined := by
  induction h generalizing s with
  | basic h => exact h.reason_ne hread hx
  | @bind _ _ _ x f hcomposed _ ihx ihf =>
    cases hfirst : x s with
    | error e₁ s₁ =>
      rw [bind_of_error hfirst] at hx
      cases hx
      exact ihx hread hfirst
    | ok a s₁ =>
      rw [bind_of_ok hfirst] at hx
      have hsuffix := (hcomposed.steps_ok hfirst).rest_suffix
      exact ihf s a s₁ hfirst (fun l hl => hread l (hsuffix.subset hl)) hx
  | @whileToken _ _ more body hbody _ a ih =>
    rw [whileToken_apply] at hx
    generalize s.left + 1 = fuel at hx
    induction fuel generalizing s a with
    | zero => cases hx
    | succ fuel ihfuel =>
      cases hm : more s.current with
      | false =>
        rw [loop_succ_of_not_more hm] at hx
        cases hx
      | true =>
        rw [loop_succ_of_more hm] at hx
        cases hfirst : body a s with
        | error e₁ s₁ =>
          rw [bind_of_error hfirst] at hx
          cases hx
          exact ih a hread hfirst
        | ok a₁ s₁ =>
          rw [bind_of_ok hfirst] at hx
          have hsuffix := ((hbody a).steps_ok hfirst).rest_suffix
          exact ihfuel a₁ (fun l hl => hread l (hsuffix.subset hl)) hx

/-! ### Rules -/

theorem seq (hx : Composed p ids x) (hf : ∀ a, Composed p ids (f a)) : Composed p ids (x >>= f) :=
  hx.bind fun _ a _ _ => (hf a).mono p.le_refl Set.subset_union_left

theorem pure (a : α) : Composed p ids (pure a) := .basic (.pure a)

theorem fail (reason : Reason) (h : reason ≠ .mainNotDefined) :
    Composed p ids (fail reason : CompileM α) := .basic (.fail h)

theorem fail_seq (reason : Reason) (h : reason ≠ .mainNotDefined) :
    Composed p ids ((Compile.fail reason : CompileM α) >>= f) :=
  .bind (.fail reason h) fun _ _ _ hx => absurd hx fail_ne_ok

/-- A token that is looked at mentions names that may be mentioned then. -/
theorem current {f : Token → CompileM α}
    (hf : ∀ token, Composed p (ids ∪ token.names) (f token)) :
    Composed p ids (current >>= f) := by
  refine .bind (.basic .current) fun s token s' h => ?_
  obtain ⟨rfl, rfl⟩ := current_eq_ok.mp h
  exact hf _

/-- What is done with the state may be told apart by the current token first. -/
theorem byToken {g : State → CompileM α} (hg : ∀ token, Composed p (ids ∪ token.names)
    (get >>= fun s => g { s with current := token })) : Composed p ids (get >>= g) :=
  show Composed p ids (Compile.current >>= fun token => get >>= fun s =>
    g { s with current := token }) from .current hg

/-- Of the state, what a name means and where the frame is may be looked at. -/
theorem meaning {id : SymbolId} (hid : id ∈ ids) {g : State → CompileM α}
    (hsame : g.FactorsThrough fun s => (s.symbols.binding id, s.symbols.name id, s.frame))
    (hg : ∀ s, Composed p ids (g s)) : Composed p ids (get >>= g) := by
  have : Nonempty (CompileM α) := ⟨get >>= g⟩
  obtain ⟨f, rfl⟩ := (Function.factorsThrough_iff g).mp hsame
  show Composed p ids ((do
      let s ← get
      return (s.symbols.binding id, s.symbols.name id)) >>= fun p =>
        (do return (← get).frame) >>= fun frame => f (p.1, p.2, frame))
  refine .bind (.basic (.meaning hid)) fun s r s' h => ?_
  cases h
  refine .seq (.basic .frame) fun frame => ?_
  exact (hg { s with frame }).mono p.le_refl Set.subset_union_left

end Composed

theorem moves_advance {pre : Token → Prop} (h : ¬ pre .eof) : Moves pre advance := by
  intro s _ s' hs hpre hadv
  obtain ⟨heof, -⟩ | ⟨-, front, line, hitems, -⟩ := hs
  · exact absurd (heof ▸ hpre) h
  · obtain ⟨first, rest, hrest⟩ : ∃ first rest, s.rest.items = first :: rest := by
      cases front <;> exact ⟨_, _, hitems⟩
    obtain ⟨-, hread⟩ := advance_ok hadv
    simp only [Syntax.Parser.advance, State.stream, hrest] at hread
    cases htoken : first.token with
    | error reason => simp [htoken] at hread
    | ok token =>
      simp only [htoken, Option.some.injEq, Prod.mk.injEq, Syntax.Stream.mk.injEq] at hread
      simp [State.left, hrest, ← hread.2.2]

/-- Nothing is known of the current token. -/
abbrev anyToken (_ : Token) : Prop := True

/-- At every token the action moves over a lexeme at least, or fails. -/
structure Advances (ids : Set SymbolId) (x : CompileM α) : Prop where
  composed : Composed .all ids x
  moves : Moves anyToken x

theorem Advances.left_lt {a : α} (h : Advances ids x) (hs : Closed s) (hx : x s = .ok a s') :
    s'.left < s.left := h.moves hs trivial hx

theorem Advances.seq (hx : Advances ids x) (hf : ∀ a, Composed .all ids (f a)) :
    Advances ids (x >>= f) := by
  refine ⟨hx.composed.seq hf, fun s b s' hs _ h => ?_⟩
  obtain ⟨a, s₁, h₁, h₂⟩ := bind_eq_ok.mp h
  exact ((hf a).steps_ok h₂).left_le.trans_lt (hx.left_lt hs h₁)

theorem Advances.after (hx : Composed .all ids x) (hf : ∀ a, Advances ids (f a)) :
    Advances ids (x >>= f) := by
  refine ⟨hx.seq fun a => (hf a).composed, fun s b s' hs _ h => ?_⟩
  obtain ⟨a, s₁, h₁, h₂⟩ := bind_eq_ok.mp h
  have hsteps := hx.steps_ok h₁
  exact ((hf a).left_lt (hsteps.closed hs) h₂).trans_le hsteps.left_le

theorem Composed.rounds {more : Token → Bool} {body : α → CompileM α}
    (hbody : ∀ a, Advances ids (body a)) (a : α) :
    Composed .all ids (Compile.whileToken more body a) :=
  .whileToken (fun a => (hbody a).composed) (fun a _ _ _ hs _ h => (hbody a).left_lt hs h) a

/-! ## Single actions -/

/-- What ends a call, behind its arguments: the instruction for what its name is bound to. -/
def invocation (id : SymbolId) (count : Nat) : CompileM CType := do
  let s ← get
  let binding := s.symbols.binding id
  match callInstr? binding s.frame with
  | none => fail (.badFunctionCall (s.symbols.name id))
  | some i =>
    let _ ← emit i
    if count ≠ 0 then
      let _ ← emit (.adjust (Word.ofNat count))
    return binding.type

/-- The program that the state holds at the end of the source. -/
def finish : CompileM Program := do
  let s ← get
  listBefore (s.line + 1)
  if (s.symbols.binding SymbolTable.entry).kind = .function then
    return ⟨s.code, s.data, s.symbols⟩
  else fail .mainNotDefined

namespace Composed

variable {moves edits branches : Bool}

theorem advance : Composed ⟨true, edits, branches⟩ ids advance := .basic (.advance rfl)

theorem patch (index : Nat) : Composed ⟨moves, edits, true⟩ ids (patch index) :=
  .basic (.patch rfl index)

theorem emit {i : Instr} (hi : branches = true ∨ Complete i) :
    Composed ⟨moves, true, branches⟩ ids (emit i) := .basic (.emit rfl hi)

theorem emitAll {code : List Instr} (h : ∀ i ∈ code, branches = true ∨ Complete i) :
    Composed ⟨moves, true, branches⟩ ids (emitAll code) := by
  induction code with
  | nil => exact .pure ()
  | cons i code ih =>
    exact .seq (.emit (h i (by simp))) fun _ => ih fun j hj => h j (by simp [hj])

theorem loadToPush : Composed ⟨moves, true, branches⟩ ids loadToPush := .basic (.loadToPush rfl)

theorem expect (token : Token) (reason : Reason) (h : reason ≠ .mainNotDefined) :
    Composed ⟨true, edits, branches⟩ ids (expect token reason) := by
  unfold Compile.expect
  refine .current fun t => ?_
  split
  · exact .advance
  · exact .fail reason h

theorem skipOver (token : Token) : Composed ⟨true, edits, branches⟩ ids (skipOver token) := by
  unfold Compile.skipOver
  refine .current fun t => ?_
  split
  · exact .advance
  · exact .pure _

theorem currentName : Composed p ids currentName := by
  refine .byToken fun token => ?_
  cases token with
  | ident id =>
    refine .meaning (.inr (Token.mem_names id)) (fun s s' h => ?_) fun _ => .pure _
    simp only [Prod.mk.injEq] at h
    simp only [h]
  | _ => exact .pure _

theorem storeData (bytes : List UInt8) : Composed p ids (storeData bytes) :=
  .basic (.storeData bytes)

theorem here : Composed p ids here := .basic .here

theorem dataAddress : Composed p ids dataAddress :=
  show Composed p ids ((do return (← get).data.size) >>= fun size =>
      Pure.pure (Word.ofNat (dataBase + size))) from
    .seq (.basic .dataSize) fun _ => .pure _

theorem alignData : Composed p ids alignData :=
  show Composed p ids ((do return (← get).data.size) >>= fun size =>
      Compile.storeData (List.replicate (wordSize - size % wordSize) 0)) from
    .seq (.basic .dataSize) fun _ => .storeData _

theorem baseType? : Composed ⟨true, edits, branches⟩ ids baseType? := by
  unfold Compile.baseType?
  refine .current fun t => ?_
  split
  · exact advance.seq fun _ => .pure _
  · exact advance.seq fun _ => .pure _
  · exact .pure _

theorem baseType : Composed ⟨true, edits, branches⟩ ids baseType :=
  baseType?.seq fun _ => .pure _

theorem postStep (left : CType) (apply undo : BinOp) :
    Composed ⟨moves, true, branches⟩ ids (postStep left apply undo) := by
  refine loadToPush.seq fun width => ?_
  cases width with
  | none => exact .fail _ (by simp)
  | some width => exact .seq (.emitAll (by simp [stepBy, Complete])) fun _ => .pure _

theorem invocation {id : SymbolId} (hid : id ∈ ids) (count : Nat) :
    Composed ⟨moves, true, branches⟩ ids (invocation id count) := by
  refine .meaning hid (fun s s' h => ?_) fun s => ?_
  · simp only [Prod.mk.injEq] at h
    simp only [h]
  · dsimp only
    split
    · exact .fail _ (by simp)
    · rename_i i hcall
      have hi : Complete i := by
        rintro condition rfl
        rw [callInstr?] at hcall
        split at hcall <;> simp at hcall
      refine .seq (.emit (.inr hi)) fun _ => ?_
      split
      · exact .seq (.emit (by simp [Complete])) fun _ => .pure _
      · exact .pure _

theorem variableUse {id : SymbolId} (hid : id ∈ ids) :
    Composed ⟨moves, true, branches⟩ ids (variableUse id) := by
  refine .meaning hid (fun s s' h => ?_) fun s => ?_
  · simp only [Prod.mk.injEq] at h
    simp only [h]
  · dsimp only
    split
    · exact .seq (.emit (by simp [Complete])) fun _ => .pure _
    · exact .seq (.emitAll (by simp [Complete])) fun _ => .pure _
    · exact .seq (.emitAll (by simp [Complete])) fun _ => .pure _
    · exact .seq (.emitAll (by simp [Complete])) fun _ => .pure _
    · exact .fail _ (by simp)

theorem globalVariable {id : SymbolId} (hid : id ∈ ids) (type : CType) :
    Composed p ids (globalVariable id type) :=
  .seq .dataAddress fun _ => .seq (.basic (.defineGlobal hid (by simp))) fun _ => .storeData _

end Composed

end Compile

end MiniC
