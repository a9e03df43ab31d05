import MiniC.Proofs.Compiling.Expressions

/-!
# Compiling a statement is parsing it and generating its code

The counterpart for statements of what holds for expressions: a statement that compiles has a tree,
and its code and data are what is generated for the tree (`stmt_ok`).
-/

namespace MiniC.Compile

open Syntax (Context Chunk Expr Stmt Parser)

variable {s s' : State}

/-- Whenever the action succeeds, the parser reads a statement and its code was appended. -/
def FollowsStmt (x : CompileM Unit) (read : Parser Stmt) : Prop :=
  ∀ s u s', x s = .ok u s' → ∃ st c, read s.stream = some (st, s'.stream) ∧
    st.generate s.context s.code.size s.data.size = some c ∧ Grows s s' c.code c.data

theorem FollowsStmt.after {x : CompileM Unit} {read : Parser Stmt} {s₀ : State} {code : List Instr}
    {data : List UInt8} {u : Unit} (hx : FollowsStmt x read) (hg : Grows s₀ s code data)
    (h : x s = .ok u s') :
    ∃ st c, read s.stream = some (st, s'.stream) ∧
      st.generate s₀.context (s₀.code.size + code.length) (s₀.data.size + data.length) = some c ∧
      Grows s₀ s' (code ++ c.code) (data ++ c.data) := by
  obtain ⟨st, c, hread, hgen, hg'⟩ := hx _ _ _ h
  rw [hg.context_eq, hg.code_size, hg.data_size] at hgen
  exact ⟨st, c, hread, hgen, hg.trans hg'⟩

theorem currentName_ok {name : String} (h : currentName s = .ok name s') : s = s' := by
  rw [currentName] at h
  obtain ⟨_, _, hget, h⟩ := bind_eq_ok.mp h
  obtain ⟨rfl, rfl⟩ := get_eq_ok.mp hget
  generalize s.current = token at h
  split at h
  · exact (pure_eq_ok.mp h).2
  · exact (pure_eq_ok.mp h).2

theorem semicolon_ok {u : Unit} (h : semicolon s = .ok u s') :
    Grows s s' [] [] ∧ Parser.expect .semicolon s.stream = some ((), s'.stream) := by
  rw [semicolon] at h
  obtain ⟨_, _, hname, h⟩ := bind_eq_ok.mp h
  obtain rfl := currentName_ok hname
  exact expect_ok h

section Nested

variable {sub : Prec → CompileM CType} {read : Prec → Parser Expr}
  (hsub : ∀ prec, Follows (sub prec) (read prec))
  {body : CompileM Unit} {readStmt : Parser Stmt} (hbody : FollowsStmt body readStmt)

include hsub

/-- The condition behind the keyword that begins a statement. -/
theorem condition_ok {s₁ : State} {u u' : Unit} (hadv : advance s = .ok u s₁)
    (h : condition sub s₁ = .ok u' s') :
    ∃ e t c, (Parser.advance >>= fun _ => Parser.condition read) s.stream = some (e, s'.stream) ∧
      e.generate s.context s.code.size s.data.size = some (t, c) ∧ Grows s s' c.code c.data := by
  rw [condition] at h
  obtain ⟨hg₀, hadv'⟩ := advance_ok hadv
  obtain ⟨_, s₂, hopen, h⟩ := bind_eq_ok.mp h
  obtain ⟨hg₁, hopen'⟩ := hg₀.expect hopen
  obtain ⟨t, s₃, he, h⟩ := bind_eq_ok.mp h
  obtain ⟨e, c, hread, hgen, hg₂⟩ := (hsub .assign).after hg₁ he
  obtain ⟨hg₃, hclose'⟩ := hg₂.expect h
  exact ⟨e, t, c, by simp [Parser.condition, hadv', hopen', hread, hclose'], hgen, hg₃⟩

include hbody

theorem ifStmt_ok : FollowsStmt (ifStmt sub body) (Parser.ifStmt read readStmt) := by
  intro s u s' h
  rw [ifStmt] at h
  obtain ⟨_, s₁, hadv, h⟩ := bind_eq_ok.mp h
  obtain ⟨_, s₂, hcond, h⟩ := bind_eq_ok.mp h
  obtain ⟨test, t, c, hread, hgen, hg⟩ := condition_ok hsub hadv hcond
  obtain ⟨n₁, s₃, hemit₁, h⟩ := bind_eq_ok.mp h
  obtain ⟨hn₁, hg₁, hst₁⟩ := hg.emit hemit₁
  obtain ⟨_, s₄, hyes, h⟩ := bind_eq_ok.mp h
  obtain ⟨yes, c₁, hread₁, hgen₁, hg₂⟩ := hbody.after hg₁ hyes
  have hpos₁ : s.code.size + (c.code ++ [Instr.branch .ifZero 0]).length =
      c.stop s.code.size + 1 := by
    simp [Chunk.stop_eq]; omega
  rw [hpos₁] at hgen₁
  obtain ⟨_, _, hcur, h⟩ := bind_eq_ok.mp h
  obtain ⟨rfl, rfl⟩ := current_eq_ok.mp hcur
  have hcurrent : s₄.stream.current = s₄.current := rfl
  have hfront : Parser.ifStmt read readStmt s.stream = (do
      if (← Parser.current) = .keyword .elseKw then
        Parser.advance
        return .ifElse test yes (← readStmt)
      else return .ifThen test yes : Parser Stmt) s₄.stream := by
    rw [Parser.bind_apply, Option.bind_eq_some_iff] at hread
    obtain ⟨⟨_, st⟩, hadv', hcond'⟩ := hread
    simp only [Parser.ifStmt, Parser.bind_apply, hadv', Option.bind_some, hcond', ← hst₁, hread₁]
  split at h
  · rename_i helse
    obtain ⟨n₂, s₅, hemit₂, h⟩ := bind_eq_ok.mp h
    obtain ⟨hn₂, hg₃, hst₃⟩ := hg₂.emit hemit₂
    obtain ⟨_, s₆, hpatch₁, h⟩ := bind_eq_ok.mp h
    let second := c₁.stop (c.stop s.code.size + 1) + 1
    obtain ⟨hg₄, hst₄⟩ := patch_ok .ifZero c.code (c₁.code ++ [.branch .always 0]) second hpatch₁
      hg₃ (by simp) hn₁ (by simp [second, Chunk.stop_eq]; omega)
    obtain ⟨_, s₇, hadv₂, h⟩ := bind_eq_ok.mp h
    obtain ⟨hg₅, hadv₂'⟩ := hg₄.advance hadv₂
    obtain ⟨_, s₈, hno, h⟩ := bind_eq_ok.mp h
    obtain ⟨no, c₂, hread₂, hgen₂, hg₆⟩ := hbody.after hg₅ hno
    obtain ⟨hg₇, hst₇⟩ := patch_ok .always
      (c.code ++ .branch .ifZero (UInt64.ofNat second) :: c₁.code) c₂.code (c₂.stop second) h
      hg₆ (by simp) (by simp [hn₂]) (by simp [second, Chunk.stop_eq]; omega)
    have hpos₂ : s.code.size + (c.code ++ Instr.branch .ifZero (UInt64.ofNat second) ::
        (c₁.code ++ [Instr.branch .always 0])).length = second := by
      simp [second, Chunk.stop_eq]; omega
    rw [hpos₂, List.length_append, ← Nat.add_assoc] at hgen₂
    rw [hst₄, hst₃] at hadv₂'
    refine ⟨.ifElse test yes no, .startAt s.code.size ++ c ++
      .ofCode [.branch .ifZero (UInt64.ofNat second)] ++ c₁ ++
      .ofCode [.branch .always (UInt64.ofNat (c₂.stop second))] ++ c₂, ?_, ?_, by simpa using hg₇⟩
    · rw [hfront, hst₇]
      simp [hcurrent, helse, hadv₂', hread₂]
    · simp [Stmt.generate, hgen, hgen₁, hgen₂, second]
  · rename_i helse
    obtain ⟨hg₃, hst₃⟩ := patch_ok .ifZero c.code c₁.code (c₁.stop (c.stop s.code.size + 1)) h
      hg₂ (by simp) hn₁ (by simp [Chunk.stop_eq]; omega)
    refine ⟨.ifThen test yes, .startAt s.code.size ++ c ++
      .ofCode [.branch .ifZero (UInt64.ofNat (c₁.stop (c.stop s.code.size + 1)))] ++ c₁, ?_, ?_,
      by simpa using hg₃⟩
    · rw [hfront, hst₃]
      simp [hcurrent, helse]
    · simp [Stmt.generate, hgen, hgen₁]

theorem whileStmt_ok : FollowsStmt (whileStmt sub body) (Parser.whileStmt read readStmt) := by
  intro s u s' h
  rw [whileStmt] at h
  obtain ⟨_, s₁, hadv, h⟩ := bind_eq_ok.mp h
  obtain ⟨_, _, hhere, h⟩ := bind_eq_ok.mp h
  obtain ⟨rfl, rfl⟩ := here_eq_ok.mp hhere
  obtain ⟨_, s₂, hcond, h⟩ := bind_eq_ok.mp h
  obtain ⟨test, t, c, hread, hgen, hg⟩ := condition_ok hsub hadv hcond
  obtain ⟨n₁, s₃, hemit₁, h⟩ := bind_eq_ok.mp h
  obtain ⟨hn₁, hg₁, hst₁⟩ := hg.emit hemit₁
  obtain ⟨_, s₄, hloop, h⟩ := bind_eq_ok.mp h
  obtain ⟨st, c₁, hread₁, hgen₁, hg₂⟩ := hbody.after hg₁ hloop
  obtain ⟨_, s₅, hemit₂, h⟩ := bind_eq_ok.mp h
  obtain ⟨-, hg₃, hst₃⟩ := hg₂.emit hemit₂
  have hstart : s₁.code.size = s.code.size := (advance_ok hadv).1.code_size
  rw [hstart] at hg₃
  let done := c₁.stop (c.stop s.code.size + 1) + 1
  obtain ⟨hg₄, hst₄⟩ := patch_ok .ifZero c.code
    (c₁.code ++ [.branch .always (UInt64.ofNat s.code.size)]) done h hg₃ (by simp) hn₁
    (by simp [done, Chunk.stop_eq]; omega)
  have hpos : s.code.size + (c.code ++ [Instr.branch .ifZero 0]).length =
      c.stop s.code.size + 1 := by
    simp [Chunk.stop_eq]; omega
  rw [hpos] at hgen₁
  refine ⟨.whileLoop test st, .startAt s.code.size ++ c ++
    .ofCode [.branch .ifZero (UInt64.ofNat done)] ++ c₁ ++
    .ofCode [.branch .always (UInt64.ofNat s.code.size)], ?_, ?_, by simpa using hg₄⟩
  · rw [Parser.bind_apply, Option.bind_eq_some_iff] at hread
    obtain ⟨⟨_, st'⟩, hadv', hcond'⟩ := hread
    rw [hst₄, hst₃]
    simp only [Parser.whileStmt, Parser.bind_apply, Parser.pure_apply, hadv', Option.bind_some,
      hcond', ← hst₁, hread₁]
  · simp [Stmt.generate, hgen, hgen₁, done]

omit hbody in
theorem returnStmt_ok : FollowsStmt (returnStmt sub) (Parser.returnStmt read) := by
  intro s u s' h
  rw [returnStmt] at h
  obtain ⟨_, s₁, hadv, h⟩ := bind_eq_ok.mp h
  obtain ⟨hg₁, hadv'⟩ := advance_ok hadv
  obtain ⟨_, _, hcur, h⟩ := bind_eq_ok.mp h
  obtain ⟨rfl, rfl⟩ := current_eq_ok.mp hcur
  have hcurrent : s₁.stream.current = s₁.current := rfl
  split at h
  · rename_i hsemi
    obtain ⟨t, s₂, he, h⟩ := bind_eq_ok.mp h
    obtain ⟨e, c, hread, hgen, hg₂⟩ := (hsub .assign).after hg₁ he
    obtain ⟨_, s₃, hemit, h⟩ := bind_eq_ok.mp h
    obtain ⟨-, hg₃, hst₃⟩ := hg₂.emit hemit
    obtain ⟨hg₄, hsemi'⟩ := semicolon_ok h
    rw [hst₃] at hsemi'
    have hgen' : e.generate s.context s.code.size s.data.size = some (t, c) := hgen
    exact ⟨.ret (some e), .startAt s.code.size ++ c ++ .ofCode [.leave],
      by simp [Parser.returnStmt, hadv', hcurrent, hsemi, hread, hsemi'],
      by simp [Stmt.generate, hgen'], by simpa using hg₃.trans_nil hg₄⟩
  · rename_i hsemi
    replace hsemi : s₁.current = .semicolon := Decidable.of_not_not hsemi
    obtain ⟨_, s₃, hemit, h⟩ := bind_eq_ok.mp h
    obtain ⟨-, hg₃, hst₃⟩ := hg₁.emit hemit
    obtain ⟨hg₄, hsemi'⟩ := semicolon_ok h
    rw [hst₃] at hsemi'
    exact ⟨.ret none, .startAt s.code.size ++ .ofCode [.leave],
      by simp [Parser.returnStmt, hadv', hcurrent, hsemi, hsemi'], by simp [Stmt.generate],
      by simpa using hg₃.trans_nil hg₄⟩

omit hsub in
theorem statements_ok {u : Unit} (h : statements body s = .ok u s') :
    ∃ sts c, Parser.statements readStmt s.stream = some (sts, s'.stream) ∧
      Stmt.generateAll s.context s.code.size s.data.size sts = some c ∧
      Grows s s' c.code c.data := by
  have hloop : ∃ sts, Parser.statements readStmt s.stream = some (sts, s'.stream) ∧
      ∃ c, Stmt.generateAll s.context s.code.size s.data.size sts = some c ∧
        Grows s s' c.code c.data := by
    unfold Parser.statements Parser.collect
    refine whileToken_ok (R := fun _ sts s₁ => ∃ c,
      Stmt.generateAll s.context s.code.size s.data.size sts = some c ∧
      Grows s s₁ c.code c.data) (b := []) ?_ ⟨.ofCode [], rfl, .refl s⟩ h
    rintro _ sts s₁ _ s₂ ⟨c, hgen, hg⟩ - hb
    obtain ⟨_, _, hcur, hb⟩ := bind_eq_ok.mp hb
    obtain ⟨rfl, rfl⟩ := current_eq_ok.mp hcur
    have hcurrent : s₁.stream.current = s₁.current := rfl
    split at hb
    · obtain ⟨_, _, hfail, -⟩ := bind_eq_ok.mp hb
      exact absurd hfail fail_ne_ok
    · rename_i heof
      obtain ⟨st, c', hread, hgen', hg'⟩ := hbody.after hg hb
      exact ⟨sts ++ [st], by simp [hcurrent, heof, hread], c ++ c',
        Stmt.generateAll_concat hgen hgen', hg'⟩
  obtain ⟨sts, hread, c, hgen, hg⟩ := hloop
  exact ⟨sts, c, hread, hgen, hg⟩

theorem statement_ok : FollowsStmt (statement sub body) (Parser.statement read readStmt) := by
  intro s u s' h
  rw [statement] at h
  obtain ⟨_, _, hcur, h⟩ := bind_eq_ok.mp h
  obtain ⟨rfl, rfl⟩ := current_eq_ok.mp hcur
  have hcurrent : s.stream.current = s.current := rfl
  simp only [Parser.statement, Parser.bind_apply, Parser.current_apply, Option.bind_some, hcurrent]
  generalize s.current = token at h ⊢
  split at h
  · exact ifStmt_ok hsub hbody s u s' h
  · exact whileStmt_ok hsub hbody s u s' h
  · exact returnStmt_ok hsub s u s' h
  · obtain ⟨_, s₁, hadv, h⟩ := bind_eq_ok.mp h
    obtain ⟨hg₁, hadv'⟩ := advance_ok hadv
    obtain ⟨_, s₂, hsts, h⟩ := bind_eq_ok.mp h
    obtain ⟨sts, c, hread, hgen, hg₂⟩ := statements_ok hbody hsts
    rw [hg₁.context_eq, hg₁.code_size, hg₁.data_size] at hgen
    obtain ⟨hg₃, hadv₃⟩ := (hg₁.trans hg₂).advance h
    have hgen' : Stmt.generateAll s.context s.code.size s.data.size sts = some c := hgen
    exact ⟨.block sts, .startAt s.code.size ++ c, by simp [hadv', hread, hadv₃],
      by simp [Stmt.generate, hgen'], by simpa using hg₃⟩
  · obtain ⟨hg₁, hadv'⟩ := advance_ok h
    exact ⟨.empty, .startAt s.code.size, by simp [hadv'], rfl, hg₁⟩
  · obtain ⟨t, s₁, he, h⟩ := bind_eq_ok.mp h
    obtain ⟨e, hread, c, hgen, hg₁⟩ := hsub .assign s t s₁ he
    obtain ⟨hg₂, hsemi⟩ := semicolon_ok h
    refine ⟨.expr e, .startAt s.code.size ++ c, ?_, by simp [Stmt.generate, hgen],
      by simpa using hg₁.trans_nil hg₂⟩
    simp_all

end Nested

/-- A statement that compiles has a tree, whose code is what was appended. -/
theorem stmt_ok (levels : Nat) : FollowsStmt (stmt levels) (Parser.stmt levels) := by
  induction levels with
  | zero =>
    intro s u s' h
    exact absurd h fail_ne_ok
  | succ levels ih => exact statement_ok (expr_ok levels) ih

end MiniC.Compile
