import MiniC.Proofs.Compiling.Composition

/-!
# What compiling does not depend on

An action of the compiler looks at no lexeme that it has not moved on to. A run that succeeds is
therefore the same run when other lexemes stand behind those that it moved over
(`Composed.carried`): it yields the same value and makes the same changes to the state.
-/

namespace MiniC.Compile

variable {α β : Type} {s s' t : State} {x : CompileM α} {a : α} {k k' : List Lexeme} {p : Permit}
  {ids : Set SymbolId}

/-- The state with other lexemes to come. -/
def State.facing (s : State) (items : List Lexeme) : State := { s with rest := .ofList items }

theorem facing_self (s : State) : s.facing s.rest.items = s := by
  obtain ⟨_, _, ⟨items, count, rfl⟩, _, _, _, _, _, _, _⟩ := s
  rfl

theorem code_facing (s : State) (items : List Lexeme) : (s.facing items).code = s.code := rfl

theorem symbols_facing (s : State) (items : List Lexeme) :
    (s.facing items).symbols = s.symbols := rfl

/-! ## Actions that do not move on -/

/-- An action that ends in the same way whatever lexemes are to come, and leaves them alone. -/
def Deaf (x : CompileM α) : Prop :=
  ∀ s items, x (s.facing items) = match x s with
    | .ok a t => .ok a (t.facing items)
    | .error e t => .error e (t.facing items)

theorem Deaf.rest_eq (hx : Deaf x) (h : x s = .ok a t) : t.rest.items = s.rest.items := by
  have hself := hx s s.rest.items
  rw [facing_self, h] at hself
  have ht : t = t.facing s.rest.items := (EStateM.Result.ok.inj hself).2
  rw [ht]
  rfl

theorem deaf_emit (i : Instr) : Deaf (emit i) := by
  intro s items
  rw [emit_apply, emit_apply]
  by_cases hfit : s.words + i.words ≤ s.limits.code.toNat
  · rw [if_pos hfit]
    exact if_pos hfit
  · rw [if_neg hfit]
    exact if_neg hfit

theorem deaf_storeData (bytes : List UInt8) : Deaf (storeData bytes) := by
  intro s items
  rw [storeData_apply, storeData_apply]
  by_cases hfit : s.data.size + bytes.length ≤ s.limits.data.toNat
  · rw [if_pos hfit]
    exact if_pos hfit
  · rw [if_neg hfit]
    exact if_neg hfit

theorem deaf_loadToPush : Deaf loadToPush := by
  intro s items
  rw [loadToPush_apply, loadToPush_apply, code_facing]
  cases s.code.back? with
  | none => rfl
  | some i => cases i <;> rfl

theorem deaf_dropLoad : Deaf dropLoad := by
  intro s items
  rw [dropLoad_apply, dropLoad_apply, code_facing]
  cases s.code.back? with
  | none => rfl
  | some i => cases i <;> rfl

theorem deaf_defineGlobal (id : SymbolId) (b : Binding) : Deaf (defineGlobal id b) := by
  intro s items
  rw [defineGlobal_apply, defineGlobal_apply, symbols_facing]
  cases s.symbols.define? id b <;> rfl

theorem deaf_declare (id : SymbolId) (type : CType) (slot : Word) (duplicate : String → Reason) :
    Deaf (declare id type slot duplicate) := by
  intro s items
  rw [declare_apply, declare_apply, symbols_facing]
  cases s.symbols.declareLocal? id type slot <;> rfl

/-! ## Runs with other lexemes behind -/

/-- The second state is the first with `k'` in the place of `k` at the end of what is to come. -/
structure Beside (k k' : List Lexeme) (s s' : State) : Prop where
  ne_nil : k ≠ []
  unlisted : s.listing = none
  common : ∃ front, s.rest.items = front ++ k ∧ s' = s.facing (front ++ k')

theorem Beside.left_eq (h : Beside k k' s s') : s'.left + k.length = s.left + k'.length := by
  obtain ⟨front, hrest, rfl⟩ := h.common
  rw [State.left, State.left, hrest, State.facing, Lexemes.ofList, List.length_append,
    List.length_append]
  omega

theorem Beside.current_eq (h : Beside k k' s s') : s'.current = s.current := by
  obtain ⟨front, -, rfl⟩ := h.common
  rfl

/-- A run of the action that has not moved past the common lexemes is also one with the others. -/
def Carried (k k' : List Lexeme) (x : CompileM α) (s s' : State) : Prop :=
  ∀ a t, x s = .ok a t → k.length ≤ t.left → ∃ t', x s' = .ok a t' ∧ Beside k k' t t'

theorem Deaf.carried (hx : Deaf x) (hunlisted : ∀ a t, x s = .ok a t → t.listing = none)
    (hs : Beside k k' s s') : Carried k k' x s s' := by
  intro a t h _
  obtain ⟨front, hrest, rfl⟩ := hs.common
  have hrest' := (hx.rest_eq h).trans hrest
  refine ⟨t.facing (front ++ k'), ?_, hs.ne_nil, hunlisted a t h, front, hrest', rfl⟩
  rw [hx, h]

theorem carried_advance (hs : Beside k k' s s') : Carried k k' advance s s' := by
  intro _ t h hleft
  obtain ⟨front, hrest, rfl⟩ := hs.common
  rw [advance_apply, hrest] at h
  have h' := advance_apply (s.facing (front ++ k'))
  have hitems : (s.facing (front ++ k')).rest.items = front ++ k' := rfl
  rw [hitems] at h'
  cases front with
  | nil =>
    -- the first lexeme of `k` would be moved over
    obtain ⟨lexeme, items, rfl⟩ := List.exists_cons_of_ne_nil hs.ne_nil
    cases htoken : lexeme.token with
    | error reason => simp [htoken] at h
    | ok token =>
      simp only [List.nil_append, htoken] at h
      cases h.symm.trans (listBefore_of_none hs.unlisted)
      exact absurd hleft (Nat.not_succ_le_self _)
  | cons lexeme front =>
    cases htoken : lexeme.token with
    | error reason => simp [htoken] at h
    | ok token =>
      simp only [List.cons_append, htoken] at h h'
      cases h.symm.trans (listBefore_of_none hs.unlisted)
      exact ⟨_, h'.trans (listBefore_of_none hs.unlisted), hs.ne_nil, hs.unlisted, front, rfl, rfl⟩

theorem Basic.carried (h : Basic p ids x) (hs : Beside k k' s s') : Carried k k' x s s' := by
  have hunlisted : ∀ a t, x s = .ok a t → t.listing = none := by
    intro a t hx
    have hpath := h.path s
    rw [after_of_ok hx] at hpath
    exact hpath.keep Step.unlisted hs.unlisted
  cases h with
  | advance => exact carried_advance hs
  | pure | fail | current | here | dataSize | frame | meaning | patch | defineFunction | openScope
  | closeScope | setFrame => exact Deaf.carried (fun _ _ => rfl) hunlisted hs
  | @emit i => exact (deaf_emit i).carried hunlisted hs
  | loadToPush => exact deaf_loadToPush.carried hunlisted hs
  | dropLoad => exact deaf_dropLoad.carried hunlisted hs
  | storeData bytes => exact (deaf_storeData bytes).carried hunlisted hs
  | @defineGlobal id _ b _ => exact (deaf_defineGlobal id b).carried hunlisted hs
  | @declare id _ type slot duplicate _ =>
    exact (deaf_declare id type slot duplicate).carried hunlisted hs

theorem Carried.bind {f : α → CompileM β} (hx : Carried k k' x s s')
    (hf : ∀ a t t', x s = .ok a t → Beside k k' t t' → Carried k k' (f a) t t')
    (hsteps : ∀ a t, x s = .ok a t → Steps t (after (f a) t)) : Carried k k' (x >>= f) s s' := by
  intro b u h hleft
  obtain ⟨a, t, ha, hb⟩ := bind_eq_ok.mp h
  have hsteps := hsteps a t ha
  rw [after_of_ok hb] at hsteps
  obtain ⟨t', ha', ht⟩ := hx a t ha (hleft.trans hsteps.left_le)
  obtain ⟨u', hb', hu⟩ := hf a t t' ha ht b u hb hleft
  exact ⟨u', bind_eq_ok.mpr ⟨a, t', ha', hb'⟩, hu⟩

/-- Both loops have rounds left for every lexeme that is to come. -/
theorem carried_loop {more : Token → Bool} {body : α → CompileM α}
    (hbody : ∀ a {s s'}, Closed s → Beside k k' s s' → Carried k k' (body a) s s')
    (hsteps : ∀ a s, Steps s (after (body a) s)) (hmoves : ∀ a, Moves (more · = true) (body a))
    {fuel fuel' : Nat} {b : α} (hfuel : s.left < fuel) (hfuel' : s'.left < fuel') (hp : Closed s)
    (hs : Beside k k' s s')
    (h : loop more body fuel a s = .ok b t) (hend : k.length ≤ t.left) :
    ∃ t', loop more body fuel' a s' = .ok b t' ∧ Beside k k' t t' := by
  induction fuel generalizing fuel' s s' a with
  | zero => omega
  | succ fuel ih =>
    obtain ⟨fuel', rfl⟩ : ∃ m, fuel' = m + 1 := ⟨fuel' - 1, by omega⟩
    cases hm : more s.current with
    | false =>
      rw [loop_succ_of_not_more hm] at h
      cases h
      exact ⟨s', loop_succ_of_not_more (hs.current_eq ▸ hm), hs⟩
    | true =>
      rw [loop_succ_of_more hm] at h
      obtain ⟨a₁, s₁, hround, h⟩ := bind_eq_ok.mp h
      have hclosed : Closed s₁ := by
        have hmoved := hsteps a s
        rw [after_of_ok hround] at hmoved
        exact hmoved.closed hp
      have hmore : Steps s₁ (after (loop more body fuel a₁) s₁) := path_loop hsteps fuel a₁ s₁
      rw [after_of_ok h] at hmore
      obtain ⟨s₁', hround', hs₁⟩ := hbody a hp hs a₁ s₁ hround (hend.trans hmore.left_le)
      have hlt := hmoves a hp hm hround
      have heq := hs.left_eq
      have heq₁ := hs₁.left_eq
      have hfuel₁ : s₁'.left < fuel' := by omega
      obtain ⟨t', h', ht⟩ := ih (by omega) hfuel₁ hclosed hs₁ h
      refine ⟨t', ?_, ht⟩
      rw [loop_succ_of_more (hs.current_eq ▸ hm)]
      exact bind_eq_ok.mpr ⟨a₁, s₁', hround', h'⟩

theorem Composed.carried (h : Composed p ids x) (hp : Closed s) (hs : Beside k k' s s') :
    Carried k k' x s s' := by
  induction h generalizing s s' with
  | basic h => exact h.carried hs
  | @bind _ _ _ x f hx hf ihx ihf =>
    exact (ihx hp hs).bind (fun a t t' h ht => ihf s a t h ((hx.steps_ok h).closed hp) ht)
      fun a t h => (hf s a t h).steps t
  | @whileToken _ _ more body hbody hmoves a ih =>
    intro b t h hend
    rw [whileToken_apply] at h ⊢
    exact carried_loop (fun a _ _ hp hs => ih a hp hs) (fun a s => (hbody a).steps s) hmoves
      (Nat.lt_succ_self _) (Nat.lt_succ_self _) hp hs h hend

end MiniC.Compile
