import MiniC.Proofs.Compiling.Composition
import MiniC.Proofs.Syntax.Bindings

/-!
# Two compilations in lockstep

`Tracks` relates the states of two compilations that have done the same so far, though the second
may have larger regions and may know more names. The lexemes still to come are `Alike`: the same,
but for two ways in which the first compilation may come to an end earlier. A lexeme may be one that
it cannot read since its table of names is full, and its source may end where the other one goes on,
which is called the seam.

An action that is composed of the basic ones keeps the two in lockstep (`Composed.together`): they
succeed alike or fail alike, unless the first exceeds a capacity or moves past the seam.
-/

namespace MiniC

/-- Whether something did not fit into a region. -/
def Reason.isCapacity : Reason → Bool
  | .capacityExceeded _ _ => true
  | _ => false

/-- The tables give the same records to the numbers below `n`, and the same scopes. -/
structure SymbolTable.Agree (n : Nat) (t t' : SymbolTable) : Prop where
  symbols_eq : ∀ id < n, t'.symbols[id]? = t.symbols[id]?
  scopes_eq : t'.scopes = t.scopes

namespace SymbolTable.Agree

variable {n : Nat} {t t' : SymbolTable} {id : SymbolId}

/-- A table that only grew while a source was read agrees with what it was before. -/
theorem of_grows (hf : t.Fresh) (hf' : t'.Fresh)
    (h : t.symbols.toList <+: t'.symbols.toList) : Agree t.size t t' := by
  refine ⟨fun id hid => ?_, hf'.scopes_eq.trans hf.scopes_eq.symm⟩
  obtain ⟨more, hmore⟩ := h
  rw [← Array.getElem?_toList, ← Array.getElem?_toList, ← hmore]
  exact List.getElem?_append_left (by rwa [Array.length_toList])

theorem symm (h : Agree n t t') : Agree n t' t :=
  ⟨fun id hid => (h.symbols_eq id hid).symm, h.scopes_eq.symm⟩

theorem symbols_eq_of_size (h : Agree n t t') (ht : t.size = n) (ht' : t'.size = n) :
    t'.symbols = t.symbols := by
  apply Array.ext_getElem?
  intro id
  by_cases hid : id < n
  · exact h.symbols_eq id hid
  · rw [Array.getElem?_eq_none (ht'.trans_le (Nat.le_of_not_lt hid)),
      Array.getElem?_eq_none (ht.trans_le (Nat.le_of_not_lt hid))]

theorem name_eq (h : Agree n t t') (hid : id < n) : t'.name id = t.name id := by
  rw [SymbolTable.name, SymbolTable.name, h.symbols_eq id hid]

theorem binding_eq (h : Agree n t t') (hid : id < n) : t'.binding id = t.binding id := by
  rw [SymbolTable.binding, SymbolTable.binding, h.scopes_eq, fileBinding, fileBinding,
    h.symbols_eq id hid]

theorem openScope (h : Agree n t t') : Agree n t.openScope t'.openScope :=
  ⟨h.symbols_eq, congrArg ([] :: ·) h.scopes_eq⟩

theorem closeScope (h : Agree n t t') : Agree n t.closeScope t'.closeScope :=
  ⟨h.symbols_eq, congrArg List.tail h.scopes_eq⟩

/-- Both tables accept a definition, or neither does. -/
theorem define? (h : Agree n t t') (id : SymbolId) (b : Binding) :
    (t.define? id b = none ∧ t'.define? id b = none) ∨
      ∃ u u', t.define? id b = some u ∧ t'.define? id b = some u' ∧ Agree n u u' := by
  cases hb : isBuiltin id with
  | true => exact .inl ⟨by simp [SymbolTable.define?, hb], by simp [SymbolTable.define?, hb]⟩
  | false =>
    refine .inr ⟨_, _, define?_eq hb, define?_eq hb, fun k hk => ?_, h.scopes_eq⟩
    simp only [Array.getElem?_modify, h.symbols_eq k hk]

theorem declareLocal? (h : Agree n t t') (id : SymbolId) (type : CType) (slot : Word) :
    (t.declareLocal? id type slot = none ∧ t'.declareLocal? id type slot = none) ∨
      ∃ u u', t.declareLocal? id type slot = some u ∧ t'.declareLocal? id type slot = some u' ∧
        Agree n u u' := by
  simp only [SymbolTable.declareLocal?, h.scopes_eq]
  cases t.scopes with
  | nil => exact .inl ⟨rfl, rfl⟩
  | cons scope outer =>
    dsimp only
    split
    · exact .inl ⟨rfl, rfl⟩
    · exact .inr ⟨_, _, rfl, rfl, h.symbols_eq, rfl⟩

end SymbolTable.Agree

namespace Compile

/-- The same lexemes up to one that the first list could not read for want of capacity, or up to the
end of the first list, where a seam is allowed. -/
inductive Alike (seam : Prop) : List Lexeme → List Lexeme → Prop
  | nil : Alike seam [] []
  | cons (lexeme : Lexeme) {items items' : List Lexeme} (h : Alike seam items items') :
      Alike seam (lexeme :: items) (lexeme :: items')
  | full {reason : Reason} (h : reason.isCapacity = true) (line : Nat)
      (items items' : List Lexeme) : Alike seam (⟨line, .error reason⟩ :: items) items'
  | seam (h : seam) (line : Nat) (items' : List Lexeme) : Alike seam [⟨line, .ok .eof⟩] items'

theorem Alike.refl (seam : Prop) (items : List Lexeme) : Alike seam items items := by
  induction items with
  | nil => exact .nil
  | cons first items ih => exact .cons first ih

/-- The second state has `d` lexemes more to come and is otherwise as the first, up to larger
regions and more names. -/
structure Tracks (seam : Prop) (n d : Nat) (s s' : State) : Prop where
  current_eq : s'.current = s.current
  line_eq : s'.line = s.line
  rest : Alike seam s.rest.items s'.rest.items
  left_eq : s'.left = s.left + d
  symbols : SymbolTable.Agree n s.symbols s'.symbols
  code_eq : s'.code = s.code
  words_eq : s'.words = s.words
  data_eq : s'.data = s.data
  frame_eq : s'.frame = s.frame
  code_le : s.limits.code.toNat ≤ s'.limits.code.toNat
  data_le : s.limits.data.toNat ≤ s'.limits.data.toNat
  unlisted : s.listing = none
  unlisted' : s'.listing = none

/-- How two actions end when they begin in lockstep. -/
inductive Together (seam : Prop) (n d : Nat) {α : Type} (x x' : CompileM α) (s s' : State) : Prop
  | ok {a : α} {t t' : State} (h : x s = .ok a t) (h' : x' s' = .ok a t')
      (ht : Tracks seam n d t t')
  | error {e : CompileError} {t t' : State} (h : x s = .error e t) (h' : x' s' = .error e t')
  | full {e : CompileError} {t : State} (h : x s = .error e t) (he : e.reason.isCapacity = true)
  | past (hseam : seam) (h : (after x s).rest.items = [])

variable {α β : Type} {seam : Prop} {n d : Nat} {s s' : State} {x x' : CompileM α}
  {f f' : α → CompileM β} {p : Permit} {ids : Set SymbolId}

/-! ## Basic actions -/

theorem together_advance (hs : Tracks seam n d s s') : Together seam n d advance advance s s' := by
  have hadv := advance_apply s
  have hadv' := advance_apply s'
  have hleft : s'.rest.items.length = s.rest.items.length + d := hs.left_eq
  have hrest := hs.rest
  generalize s.rest.items = items at hadv hleft hrest
  generalize s'.rest.items = items' at hadv' hleft hrest
  cases hrest with
  | nil => exact .ok hadv hadv' hs
  | @cons lexeme items items' h =>
    cases htoken : lexeme.token with
    | error reason =>
      simp only [htoken] at hadv hadv'
      exact .error hadv hadv'
    | ok token =>
      simp only [htoken] at hadv hadv'
      have hleft' : items'.length = items.length + d := by
        simp only [List.length_cons] at hleft
        omega
      exact .ok (hadv.trans (listBefore_of_none hs.unlisted))
        (hadv'.trans (listBefore_of_none hs.unlisted'))
        { hs with current_eq := rfl, line_eq := rfl, rest := h, left_eq := hleft' }
  | full h => exact .full hadv h
  | seam h =>
    exact .past h (by rw [after_of_ok (hadv.trans (listBefore_of_none hs.unlisted))]; rfl)

theorem together_emit (hs : Tracks seam n d s s') (i : Instr) :
    Together seam n d (emit i) (emit i) s s' := by
  have h := emit_apply i s
  have h' := emit_apply i s'
  by_cases hfit : s.words + i.words ≤ s.limits.code.toNat
  · have hfit' : s'.words + i.words ≤ s'.limits.code.toNat := hs.words_eq ▸ hfit.trans hs.code_le
    rw [if_pos hfit] at h
    rw [if_pos hfit', hs.code_eq, hs.words_eq] at h'
    exact .ok h h' { hs with code_eq := rfl, words_eq := rfl }
  · rw [if_neg hfit] at h
    exact .full h rfl

theorem together_storeData (hs : Tracks seam n d s s') (bytes : List UInt8) :
    Together seam n d (storeData bytes) (storeData bytes) s s' := by
  have h := storeData_apply bytes s
  have h' := storeData_apply bytes s'
  by_cases hfit : s.data.size + bytes.length ≤ s.limits.data.toNat
  · have hfit' : s'.data.size + bytes.length ≤ s'.limits.data.toNat :=
      hs.data_eq ▸ hfit.trans hs.data_le
    rw [if_pos hfit] at h
    rw [if_pos hfit', hs.data_eq] at h'
    exact .ok h h' { hs with data_eq := rfl }
  · rw [if_neg hfit] at h
    exact .full h rfl

/-- Basic actions read the parts of a state that are the same, and change them in the same way. -/
theorem Basic.together (h : Basic p ids x) (hids : ∀ id ∈ ids, id < n)
    (hs : Tracks seam n d s s') : Together seam n d x x s s' := by
  cases h with
  | pure a => exact .ok rfl rfl hs
  | fail => exact .error rfl (by rw [fail_apply, hs.line_eq])
  | current => exact .ok rfl (by rw [← hs.current_eq]; rfl) hs
  | here => exact .ok rfl (by rw [← hs.code_eq]; rfl) hs
  | dataSize => exact .ok rfl (by rw [← hs.data_eq]; rfl) hs
  | frame => exact .ok rfl (by rw [← hs.frame_eq]; rfl) hs
  | meaning hid =>
    have hid := hids _ hid
    exact .ok rfl (by rw [← hs.symbols.binding_eq hid, ← hs.symbols.name_eq hid]; rfl) hs
  | advance => exact together_advance hs
  | emit => exact together_emit hs _
  | patch _ index =>
    have h' := patch_apply index s'
    rw [hs.code_eq] at h'
    exact .ok (patch_apply index s) h' { hs with code_eq := rfl }
  | loadToPush =>
    have h := loadToPush_apply s
    have h' := loadToPush_apply s'
    rw [hs.code_eq] at h'
    cases hback : s.code.back? with
    | none =>
      rw [hback] at h h'
      exact .ok h h' hs
    | some i =>
      rw [hback] at h h'
      cases i with
      | load width => exact .ok h h' { hs with code_eq := rfl }
      | _ => exact .ok h h' hs
  | dropLoad =>
    have h := dropLoad_apply s
    have h' := dropLoad_apply s'
    rw [hs.code_eq, hs.words_eq] at h'
    cases hback : s.code.back? with
    | none =>
      rw [hback] at h h'
      exact .ok h h' hs
    | some i =>
      rw [hback] at h h'
      cases i with
      | load width => exact .ok h h' { hs with code_eq := rfl, words_eq := rfl }
      | _ => exact .ok h h' hs
  | storeData bytes => exact together_storeData hs bytes
  | @defineGlobal id hid b _ =>
    have h := defineGlobal_apply id b s
    have h' := defineGlobal_apply id b s'
    rcases hs.symbols.define? id b with ⟨hd, hd'⟩ | ⟨u, u', hd, hd', hu⟩
    · rw [hd] at h
      rw [hd', hs.line_eq, hs.symbols.name_eq (hids id hid)] at h'
      exact .error h h'
    · rw [hd] at h
      rw [hd'] at h'
      exact .ok h h' { hs with symbols := hu }
  | @defineFunction id hid b _ =>
    refine .ok rfl rfl { hs with symbols := ?_ }
    show SymbolTable.Agree n ((s.symbols.define? id b).getD s.symbols)
      ((s'.symbols.define? id b).getD s'.symbols)
    rcases hs.symbols.define? id b with ⟨hd, hd'⟩ | ⟨u, u', hd, hd', hu⟩
    · rw [hd, hd']
      exact hs.symbols
    · rw [hd, hd']
      exact hu
  | @declare id hid type slot duplicate _ =>
    have h := declare_apply id type slot duplicate s
    have h' := declare_apply id type slot duplicate s'
    rcases hs.symbols.declareLocal? id type slot with ⟨hd, hd'⟩ | ⟨u, u', hd, hd', hu⟩
    · rw [hd] at h
      rw [hd', hs.line_eq, hs.symbols.name_eq (hids id hid)] at h'
      exact .error h h'
    · rw [hd] at h
      rw [hd'] at h'
      exact .ok h h' { hs with symbols := hu }
  | openScope => exact .ok rfl rfl { hs with symbols := hs.symbols.openScope }
  | closeScope => exact .ok rfl rfl { hs with symbols := hs.symbols.closeScope }
  | setFrame frame => exact .ok rfl rfl { hs with frame_eq := rfl }

/-! ## Composed actions -/

theorem Together.congr {y y' : CompileM α} (hx : x s = y s) (hx' : x' s' = y' s')
    (h : Together seam n d y y' s s') : Together seam n d x x' s s' := by
  cases h with
  | ok h h' ht => exact .ok (hx.trans h) (hx'.trans h') ht
  | error h h' => exact .error (hx.trans h) (hx'.trans h')
  | full h he => exact .full (hx.trans h) he
  | past hseam h => exact .past hseam (by rwa [after, hx])

/-- Where both succeed, they are still in lockstep or the first is past the seam. -/
theorem Together.of_ok {a a' : α} {t t' : State} (h : Together seam n d x x' s s')
    (hx : x s = .ok a t) (hx' : x' s' = .ok a' t') :
    (a' = a ∧ Tracks seam n d t t') ∨ t.rest.items = [] := by
  cases h with
  | ok h h' ht =>
    cases hx.symm.trans h
    cases hx'.symm.trans h'
    exact .inl ⟨rfl, ht⟩
  | error h => cases hx.symm.trans h
  | full h => cases hx.symm.trans h
  | past _ h => exact .inr (by rwa [after_of_ok hx] at h)

theorem Together.bind (hx : Together seam n d x x' s s')
    (hf : ∀ a t t', x s = .ok a t → Tracks seam n d t t' → Together seam n d (f a) (f' a) t t')
    (hsteps : ∀ a t, x s = .ok a t → Steps t (after (f a) t)) :
    Together seam n d (x >>= f) (x' >>= f') s s' := by
  cases hx with
  | ok h h' ht =>
    cases hf _ _ _ h ht with
    | ok hfa hfa' hu => exact .ok ((bind_of_ok h).trans hfa) ((bind_of_ok h').trans hfa') hu
    | error hfa hfa' => exact .error ((bind_of_ok h).trans hfa) ((bind_of_ok h').trans hfa')
    | full hfa he => exact .full ((bind_of_ok h).trans hfa) he
    | past hseam hpast => exact .past hseam (by rw [after_bind_of_ok h]; exact hpast)
  | error h h' => exact .error (bind_of_error h) (bind_of_error h')
  | full h he => exact .full (bind_of_error h) he
  | past hseam hpast =>
    refine .past hseam ?_
    -- no step gives lexemes back, so what follows stays past the seam
    cases h : x s with
    | error e t =>
      rw [after_bind_of_error h]
      rwa [after_of_error h] at hpast
    | ok a t =>
      rw [after_of_ok h] at hpast
      rw [after_bind_of_ok h]
      exact List.suffix_nil.mp (hpast ▸ (hsteps a t h).rest_suffix)

/-- The rounds of the two loops go together. Both loops have rounds left as long as the first has
lexemes left. -/
theorem together_loop {more : Token → Bool} {body : α → CompileM α}
    (hbody : ∀ a {s s'}, Proper n s → Tracks seam n d s s' →
      Together seam n d (body a) (body a) s s')
    (hsteps : ∀ a s, Steps s (after (body a) s)) (hmoves : ∀ a, Moves (more · = true) (body a))
    {fuel : Nat} (hfuel : s.left < fuel) (hp : Proper n s)
    (hs : Tracks seam n d s s') (a : α) :
    Together seam n d (loop more body fuel a) (loop more body (fuel + d) a) s s' := by
  induction fuel generalizing s s' a with
  | zero => omega
  | succ fuel ih =>
    rw [Nat.add_right_comm]
    cases hm : more s.current with
    | false =>
      exact .ok (loop_succ_of_not_more hm) (loop_succ_of_not_more (hs.current_eq ▸ hm)) hs
    | true =>
      refine .congr (loop_succ_of_more hm) (loop_succ_of_more (hs.current_eq ▸ hm)) ?_
      refine (hbody a hp hs).bind (fun a' t t' hb ht => ?_) fun a' t hb =>
        path_loop hsteps fuel a' t
      have hlt := hmoves a hp.closed hm hb
      have hround := hsteps a s
      rw [after_of_ok hb] at hround
      exact ih (by omega) (hround.proper hp) ht a'

theorem Composed.together (h : Composed p ids x) (hids : ∀ id ∈ ids, id < n) (hp : Proper n s)
    (hs : Tracks seam n d s s') : Together seam n d x x s s' := by
  induction h generalizing s s' with
  | basic h => exact h.together hids hs
  | @bind _ _ _ x f hx hf ihx ihf =>
    refine (ihx hids hp hs).bind (fun a t t' h ht => ?_) fun a t h => (hf s a t h).steps t
    exact ihf s a t h (fun id hid => hid.elim (hids id) (hp.current_known id))
      ((hx.steps_ok h).proper hp) ht
  | @whileToken _ _ more body hbody hmoves a ih =>
    refine .congr whileToken_apply whileToken_apply ?_
    rw [hs.left_eq, Nat.add_right_comm]
    exact together_loop (fun a _ _ hp hs => ih a hids hp hs) (fun a s => (hbody a).steps s) hmoves
      (Nat.lt_succ_self s.left) hp hs a

theorem Ready.together (hr : Ready n s) (hs : Tracks seam n d s s') :
    Together seam n d declarations declarations s s' :=
  (together_advance hs).bind
    (fun _ _ _ hadv ht => Composed.declarations.together (fun _ h => h.elim) (hr.proper hadv) ht)
    fun _ s _ => Composed.declarations.steps s

theorem tracks_start {source source' : List UInt8} {limits limits' : Limits}
    (hrest : Alike seam (start source limits none).rest.items
      (start source' limits' none).rest.items)
    (hleft : (start source' limits' none).left = (start source limits none).left + d)
    (hsymbols : SymbolTable.Agree n (start source limits none).symbols
      (start source' limits' none).symbols)
    (hcode : limits.code ≤ limits'.code) (hdata : limits.data ≤ limits'.data) :
    Tracks seam n d (start source limits none) (start source' limits' none) where
  current_eq := rfl
  line_eq := rfl
  rest := hrest
  left_eq := hleft
  symbols := hsymbols
  code_eq := rfl
  words_eq := rfl
  data_eq := rfl
  frame_eq := rfl
  code_le := UInt64.le_iff_toNat_le.mp hcode
  data_le := UInt64.le_iff_toNat_le.mp hdata
  unlisted := rfl
  unlisted' := rfl

end Compile

end MiniC
