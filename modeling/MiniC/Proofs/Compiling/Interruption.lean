import MiniC.Proofs.Compiling.Composition

/-!
# Compilations that are interrupted

Between two lexemes a compilation can be looked at by interrupting it: the lexemes from some point
on are replaced by one that cannot be read (`State.upTo`). Up to there everything goes as it would
without the interruption (`Composed.stops`), so a source that compiles is interrupted at each of its
lexemes, with all lexemes before that one read (`Ready.interrupted`).
-/

namespace MiniC.Compile

variable {α β : Type} {s s' : State} {n k : Nat} {x : CompileM α} {f : α → CompileM β} {a : α}
  {p : Permit} {ids : Set SymbolId}

/-- A lexeme that cannot be read. -/
def stop : Lexeme := ⟨0, .error .unterminatedLiteral⟩

/-- The state with no more than `k` lexemes to come before one that cannot be read. -/
def State.upTo (s : State) (k : Nat) : State :=
  { s with rest := .ofList (s.rest.items.take k ++ [stop]) }

/-- The action was interrupted, in the state `t`. -/
def Interrupted (x : CompileM α) (s t : State) : Prop :=
  x s = .error ⟨stop.line, .unterminatedLiteral⟩ t ∧ t.rest.items = [stop]

/-- The action ends in `s'` where all lexemes of `s` are to come. With `k` of them it does the same
and moves over as many lexemes, unless it is interrupted. -/
def Stops (x : CompileM α) (s : State) (k : Nat) (a : α) (s' : State) : Prop :=
  (∃ k', k' + s.left = s'.left + k ∧ x (s.upTo k) = .ok a (s'.upTo k')) ∨
    ∃ t, Interrupted x (s.upTo k) t

/-! ## Basic actions -/

theorem stops_advance {u : Unit} (hl : s.listing = none) (h : advance s = .ok u s') :
    Stops advance s k u s' := by
  have happly := advance_apply (s.upTo k)
  rw [advance_apply] at h
  cases hitems : s.rest.items with
  | nil =>
    refine .inr ⟨s.upTo k, ?_, by simp [State.upTo, hitems, Lexemes.ofList]⟩
    simpa [State.upTo, hitems, Lexemes.ofList, stop] using happly
  | cons lexeme items =>
    simp only [hitems] at h
    cases htoken : lexeme.token with
    | error reason => simp [htoken] at h
    | ok token =>
      simp only [htoken] at h
      cases h.symm.trans (listBefore_of_none hl)
      -- with none of the lexemes to come, the first one read is the one that cannot be read
      cases k with
      | zero =>
        refine .inr ⟨s.upTo 0, ?_, by simp [State.upTo, Lexemes.ofList]⟩
        simpa [State.upTo, Lexemes.ofList, stop] using happly
      | succ k =>
        refine .inl ⟨k, ?_, ?_⟩
        · simp only [State.left, hitems, Lexemes.ofList, List.length_cons]
          omega
        · rw [happly]
          simp only [State.upTo, hitems, Lexemes.ofList, List.take_succ_cons, List.cons_append,
            htoken]
          exact listBefore_of_none hl

/-- An action that does not look at the lexemes to come. -/
def Blind (x : CompileM α) : Prop := ∀ s a s', x s = .ok a s' →
  s'.rest = s.rest ∧ ∀ rest, x { s with rest } = .ok a { s' with rest }

theorem Blind.stops (hx : Blind x) (h : x s = .ok a s') : Stops x s k a s' := by
  obtain ⟨hrest, hother⟩ := hx s a s' h
  refine .inl ⟨k, by rw [State.left, State.left, hrest, Nat.add_comm], ?_⟩
  have hsame := hother (.ofList (s.rest.items.take k ++ [stop]))
  rw [← hrest] at hsame
  rw [State.upTo, State.upTo, ← hrest]
  exact hsame

theorem blind_emit (i : Instr) : Blind (emit i) := by
  intro s a s' h
  rw [emit_apply] at h
  split_ifs at h with hfit
  cases h
  exact ⟨rfl, fun rest => (emit_apply i _).trans (if_pos hfit)⟩

theorem blind_storeData (bytes : List UInt8) : Blind (storeData bytes) := by
  intro s a s' h
  rw [storeData_apply] at h
  split_ifs at h with hfit
  cases h
  exact ⟨rfl, fun rest => (storeData_apply bytes _).trans (if_pos hfit)⟩

/-- All basic actions but the one that moves on are blind. -/
theorem Basic.stops (h : Basic p ids x) (hl : s.listing = none) (hx : x s = .ok a s') :
    Stops x s k a s' := by
  cases h with
  | advance => exact stops_advance hl hx
  | pure | current | here | dataSize | frame | meaning | patch | defineFunction | openScope
  | closeScope | setFrame =>
    cases hx
    exact .inl ⟨k, Nat.add_comm _ _, rfl⟩
  | fail => cases hx
  | @emit i => exact (blind_emit i).stops hx
  | storeData bytes => exact (blind_storeData bytes).stops hx
  | loadToPush =>
    refine Blind.stops (fun s a s' h => ?_) hx
    rw [loadToPush_apply] at h
    cases hback : s.code.back? with
    | none =>
      rw [hback] at h
      cases h
      exact ⟨rfl, fun rest => (loadToPush_apply _).trans (by rw [hback])⟩
    | some i =>
      rw [hback] at h
      cases i <;> cases h <;> exact ⟨rfl, fun rest => (loadToPush_apply _).trans (by rw [hback])⟩
  | dropLoad =>
    refine Blind.stops (fun s a s' h => ?_) hx
    rw [dropLoad_apply] at h
    cases hback : s.code.back? with
    | none =>
      rw [hback] at h
      cases h
      exact ⟨rfl, fun rest => (dropLoad_apply _).trans (by rw [hback])⟩
    | some i =>
      rw [hback] at h
      cases i <;> cases h <;> exact ⟨rfl, fun rest => (dropLoad_apply _).trans (by rw [hback])⟩
  | @defineGlobal id _ b _ =>
    refine Blind.stops (fun s a s' h => ?_) hx
    rw [defineGlobal_apply] at h
    cases hdefine : s.symbols.define? id b with
    | none => simp [hdefine] at h
    | some symbols =>
      rw [hdefine] at h
      cases h
      exact ⟨rfl, fun rest => (defineGlobal_apply id b _).trans (by rw [hdefine])⟩
  | @declare id _ type slot duplicate _ =>
    refine Blind.stops (fun s a s' h => ?_) hx
    rw [declare_apply] at h
    cases hdeclare : s.symbols.declareLocal? id type slot with
    | none => simp [hdeclare] at h
    | some symbols =>
      rw [hdeclare] at h
      cases h
      exact ⟨rfl, fun rest => (declare_apply id type slot duplicate _).trans (by rw [hdeclare])⟩

/-! ## Composed actions -/

theorem left_upTo (s : State) (k : Nat) : (s.upTo k).left = min k s.left + 1 := by
  simp [State.left, State.upTo, Lexemes.ofList]

theorem Stops.congr {y : CompileM α} (h : Stops y s k a s') (heq : x (s.upTo k) = y (s.upTo k)) :
    Stops x s k a s' := by
  rcases h with ⟨k', hk', h⟩ | ⟨t, h, ht⟩
  · exact .inl ⟨k', hk', heq.trans h⟩
  · exact .inr ⟨t, heq.trans h, ht⟩

theorem Stops.bind {b : β} {t : State} (hx : Stops x s k a s')
    (hf : ∀ k', k' + s.left = s'.left + k → Stops (f a) s' k' b t) : Stops (x >>= f) s k b t := by
  rcases hx with ⟨k₁, hk₁, hx⟩ | ⟨u, hx, hu⟩
  · rcases hf k₁ hk₁ with ⟨k₂, hk₂, hfa⟩ | ⟨u, hfa, hu⟩
    · exact .inl ⟨k₂, by omega, (bind_of_ok hx).trans hfa⟩
    · exact .inr ⟨u, (bind_of_ok hx).trans hfa, hu⟩
  · exact .inr ⟨u, bind_of_error hx, hu⟩

/-- Both loops have rounds left as long as they have lexemes left. -/
theorem stops_loop {more : Token → Bool} {body : α → CompileM α}
    (hbody : ∀ a, Composed p ids (body a)) (hmoves : ∀ a, Moves (more · = true) (body a))
    (hstops : ∀ {s a a' s' k}, Closed s → s.listing = none → body a s = .ok a' s' →
      Stops (body a) s k a' s')
    {fuel fuel' : Nat} {b : α} (hs : Closed s) (hl : s.listing = none) (hfuel : s.left < fuel)
    (hfuel' : (s.upTo k).left < fuel') (h : loop more body fuel a s = .ok b s') :
    Stops (loop more body fuel' a) s k b s' := by
  induction fuel generalizing s a k fuel' with
  | zero => omega
  | succ fuel ih =>
    obtain ⟨fuel', rfl⟩ := Nat.exists_eq_succ_of_ne_zero (Nat.ne_zero_of_lt hfuel')
    cases hm : more s.current with
    | false =>
      rw [loop_succ_of_not_more hm] at h
      cases h
      exact .inl ⟨k, Nat.add_comm _ _, loop_succ_of_not_more hm⟩
    | true =>
      rw [loop_succ_of_more hm] at h
      obtain ⟨a₁, s₁, hb, h⟩ := bind_eq_ok.mp h
      have hlt := hmoves a hs hm hb
      have hsteps := (hbody a).steps_ok hb
      refine Stops.congr ((hstops hs hl hb).bind fun k₁ hk₁ => ?_) (loop_succ_of_more hm)
      have hfuel₁ : (s₁.upTo k₁).left < fuel' := by
        rw [left_upTo] at hfuel' ⊢
        omega
      exact ih (hsteps.closed hs) (hsteps.keep Step.unlisted hl) (by omega) hfuel₁ h

theorem Composed.stops (h : Composed p ids x) (hs : Closed s) (hl : s.listing = none)
    (hx : x s = .ok a s') : Stops x s k a s' := by
  induction h generalizing s s' k with
  | basic h => exact h.stops hl hx
  | bind hcomposed _ ihx ihf =>
    obtain ⟨a₁, s₁, h₁, h₂⟩ := bind_eq_ok.mp hx
    have hsteps := hcomposed.steps_ok h₁
    exact (ihx hs hl h₁).bind fun _ _ =>
      ihf s a₁ s₁ h₁ (hsteps.closed hs) (hsteps.keep Step.unlisted hl) h₂
  | whileToken hbody hmoves _ ih =>
    rw [whileToken_apply] at hx
    exact Stops.congr (stops_loop hbody hmoves (fun hs hl hb => ih _ hs hl hb) hs hl
      (Nat.lt_succ_self _) (Nat.lt_succ_self _) hx) whileToken_apply

/-- A source that compiles is interrupted at each of its lexemes. -/
theorem Ready.interrupted {u : Unit} (hs : Ready n s) (hl : s.listing = none)
    (h : declarations s = .ok u s') (hk : k < s.left) :
    ∃ t, Interrupted declarations (s.upTo k) t := by
  have hnil := (hs.declarations_ok h).1
  obtain ⟨_, s₁, hadv, hloop⟩ := bind_eq_ok.mp h
  have hsteps := steps_advance s
  rw [after_of_ok hadv] at hsteps
  have hstops : Stops declarations s k u s' := (stops_advance hl hadv).bind fun _ _ =>
    Composed.declarations.stops (hs.proper hadv).closed (hsteps.keep Step.unlisted hl) hloop
  rcases hstops with ⟨k', hk', -⟩ | hstops
  · have hleft : s'.left = 0 := by rw [State.left, hnil, List.length_nil]
    omega
  · exact hstops

end MiniC.Compile
