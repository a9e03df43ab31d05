import MiniC.Proofs.Compiling.Composition

/-!
# Compiling ends

A run takes no more steps than the lexemes of the source pay for, and these are no more than its
bytes and its end (`compile_terminates`).
-/

namespace MiniC.Compile

/-! ## Sources -/

/-- The end of the source is not moved over. -/
theorem finish_left {s s' : State} {p : Program} (h : finish s = .ok p s') :
    s.left ≤ s'.left + 1 := by
  obtain ⟨_, _, hget, h⟩ := bind_eq_ok.mp h
  obtain ⟨rfl, rfl⟩ := get_eq_ok.mp hget
  obtain ⟨_, s₁, hlist, h⟩ := bind_eq_ok.mp h
  have hrest : s₁.rest.items = s.rest.items :=
    congrArg Syntax.Stream.rest (listBefore_ok hlist).2
  split at h
  · obtain ⟨-, rfl⟩ := pure_eq_ok.mp h
    rw [State.left, State.left, hrest]
    exact Nat.le_succ _
  · exact absurd h fail_ne_ok

theorem ends_finish (s : State) : ∃ j ≤ 2, Config.Ends j ⟨0, liftM finish, s⟩ (finish s) := by
  have hsound : Config.Sound ⟨0, Plan.act finish .done, s⟩ :=
    Config.sound_act (Nat.zero_le _) finish_left
  cases h : finish s with
  | ok p s' =>
    exact ⟨2, le_rfl, .cons hsound (Config.step_act_ok h)
      (.last (Config.sound_done (Nat.zero_le _)) rfl)⟩
  | error e s' => exact ⟨1, by omega, .last hsound (Config.step_act_error h)⟩

/-- Before the first token all lexemes are left to pay. -/
theorem Ready.ends_program {n : Nat} {s : State} (hs : Ready n s) :
    ∃ j ≤ 32 * (s.left + 1), Config.Ends j ⟨0, Plan.program, s⟩ (program s) := by
  have hsound : Config.Sound ⟨0, Plan.program, s⟩ :=
    Config.sound_act (Nat.zero_le _) (Brief.advance : Brief true true ∅ advance).left_le
  rw [program_eq, declarations, bind_assoc]
  cases hadvance : advance s with
  | error e s₁ =>
    rw [bind_of_error hadvance]
    exact ⟨1, by omega, .last hsound (Config.step_act_error hadvance)⟩
  | ok u s₁ =>
    rw [bind_of_ok hadvance]
    have hs₁ := (hs.proper hadvance).closed
    have hleft : s₁.left ≤ s.left := by
      have hsteps := steps_advance s
      rw [after_of_ok hadvance] at hsteps
      exact hsteps.left_le
    have hfirst : Config.Leads 1 ⟨0, Plan.program, s⟩
        ⟨0, Plan.repeated .declarations () >>= fun _ => liftM finish, s₁⟩ :=
      .single hsound (Config.step_act_ok hadvance)
    have hloop : Performs ∅ maxNesting anyToken (Plan.repeated .declarations ())
        (whileToken (· ≠ .eof) (fun _ => declaration) ()) anyToken 1 9 :=
      .repeated (by decide) (fun _ => Realizes.declaration.toPerforms) ()
    cases hdeclarations : whileToken (· ≠ .eof) (fun _ => declaration) () s₁ with
    | error e s₂ =>
      obtain ⟨j, hj, hends⟩ := hloop.error (fun _ => liftM finish) (Nat.zero_add _) hs₁ trivial
        hdeclarations
      rw [bind_of_error hdeclarations]
      exact ⟨1 + j, by omega, hfirst.ends hends⟩
    | ok u s₂ =>
      obtain ⟨j, hj, hleads⟩ :=
        (hloop.ok hs₁ trivial hdeclarations).2.leads (fun _ => liftM finish) (Nat.zero_add _)
      obtain ⟨i, hi, hends⟩ := ends_finish s₂
      rw [bind_of_ok hdeclarations]
      exact ⟨1 + j + i, by omega, (hfirst.trans hleads).ends hends⟩

/-- Compiling a source, before its first step. -/
def Config.ofSource (source : List UInt8) (limits : Limits) (listing : Option Sink) :
    Config Program :=
  ⟨0, Plan.program, start source limits listing⟩

/-- The steps that a source of the given length takes at most. -/
def stepBound (length : Nat) : Nat := 32 * (length + 2)

/-- Compiling ends on every source, with every limits. What is read is the end or takes a byte, so
the lexemes are no more than the bytes and one. Whatever the steps lead to, statements and
expressions are not nested deeper than `maxNesting` there, and a loop that goes on moves over a
lexeme in its next round, or fails in it. The number of steps is bounded by the length of the
source, and what they end with is what `Program.compile` returns. -/
theorem compile_terminates (source : List UInt8) (limits : Limits) :
    (∀ lx : Lexer, lx.next.1 ≠ .ok .eof → lx.next.2.rest.length < lx.rest.length) ∧
    (start source limits none).left ≤ source.length + 1 ∧
    (∀ steps c, (Config.ofSource source limits none).run steps = .inr c → c.Sound) ∧
    ∃ outcome, (Config.ofSource source limits none).run (stepBound source.length) = .inl outcome ∧
      Program.compile source limits =
        match outcome with
        | .ok p _ => .ok p
        | .error e _ => .error e := by
  have hread : ∀ lx : Lexer, lx.next.1 ≠ .ok .eof → lx.next.2.rest.length < lx.rest.length :=
    fun lx hne => Lexer.length_next_lt fun heof => hne (Lexer.next_eq_eof.mpr heof)
  have hleft : (start source limits none).left ≤ source.length + 1 :=
    (reads_start source limits none).length_le
  obtain ⟨j, hj, hends⟩ := (ready_start source limits none).ends_program
  refine ⟨hread, hleft, fun steps c hrun => hends.sound hrun, _,
    hends.run_eq (i := stepBound source.length) ?_, rfl⟩
  rw [stepBound]
  omega

end MiniC.Compile
