import MiniC.Proofs.Compiling.Actions
import MiniC.Proofs.Syntax.Generate

/-!
# Compiling an expression is parsing it and generating its code

Whenever an expression compiles, the parser reads the same tokens into a tree, and what was appended
to the code and the data is the chunk generated for that tree (`expr_ok`). There is one lemma for
each compiling function. All of them are relative to an origin `s₀`, the state in which the
outermost expression begins, since an operator may still rewrite the last instruction that its left
operand left behind.
-/

namespace MiniC.Compile

open Syntax (Context Chunk Expr Parser)

variable {s₀ s s' : State} {code : List Instr} {data : List UInt8}

/-- What code is generated with in a state. -/
def State.context (s : State) : Context := ⟨s.symbols.binding, s.frame⟩

/-! ## Actions behind an origin -/

namespace Grows

theorem context_eq (h : Grows s₀ s code data) : s.context = s₀.context := by
  rw [State.context, State.context, h.symbols_eq, h.frame_eq]

theorem advance {u : Unit} (hg : Grows s₀ s code data) (h : Compile.advance s = .ok u s') :
    Grows s₀ s' code data ∧ Parser.advance s.stream = some ((), s'.stream) := by
  obtain ⟨hg', hread⟩ := advance_ok h
  exact ⟨hg.trans_nil hg', hread⟩

theorem expect {u : Unit} {t : Token} {r : Reason} (hg : Grows s₀ s code data)
    (h : Compile.expect t r s = .ok u s') :
    Grows s₀ s' code data ∧ Parser.expect t s.stream = some ((), s'.stream) := by
  obtain ⟨hg', hread⟩ := expect_ok h
  exact ⟨hg.trans_nil hg', hread⟩

theorem skipOver {u : Unit} {t : Token} (hg : Grows s₀ s code data)
    (h : Compile.skipOver t s = .ok u s') :
    Grows s₀ s' code data ∧ Parser.skipOver t s.stream = some ((), s'.stream) := by
  obtain ⟨hg', hread⟩ := skipOver_ok h
  exact ⟨hg.trans_nil hg', hread⟩

theorem emit {i : Instr} {n : Nat} (hg : Grows s₀ s code data) (h : Compile.emit i s = .ok n s') :
    n = s₀.code.size + code.length ∧ Grows s₀ s' (code ++ [i]) data ∧ s'.stream = s.stream := by
  obtain ⟨hn, hg', hst⟩ := emit_ok h
  refine ⟨by rw [hn, hg.code_size], ?_, hst⟩
  simpa using hg.trans hg'

theorem emitAll {code' : List Instr} {u : Unit} (hg : Grows s₀ s code data)
    (h : Compile.emitAll code' s = .ok u s') :
    Grows s₀ s' (code ++ code') data ∧ s'.stream = s.stream := by
  obtain ⟨hg', hst⟩ := emitAll_ok h
  refine ⟨?_, hst⟩
  simpa using hg.trans hg'

end Grows

/-! ## Types -/

theorem baseType?_ok {o : Option CType} (h : baseType? s = .ok o s') :
    Grows s s' [] [] ∧ Parser.baseType? s.stream = some (o, s'.stream) := by
  rw [baseType?] at h
  obtain ⟨_, _, hcur, h⟩ := bind_eq_ok.mp h
  obtain ⟨rfl, rfl⟩ := current_eq_ok.mp hcur
  have hst : s.stream.current = s.current := rfl
  simp only [Parser.baseType?, Parser.bind_apply, Parser.current_apply, Option.bind_some, hst]
  generalize s.current = token at h ⊢
  split at h
  · obtain ⟨_, s₁, hadv, h⟩ := bind_eq_ok.mp h
    obtain ⟨rfl, rfl⟩ := pure_eq_ok.mp h
    obtain ⟨hg, hread⟩ := advance_ok hadv
    exact ⟨hg, by simp [hread]⟩
  · obtain ⟨_, s₁, hadv, h⟩ := bind_eq_ok.mp h
    obtain ⟨rfl, rfl⟩ := pure_eq_ok.mp h
    obtain ⟨hg, hread⟩ := advance_ok hadv
    exact ⟨hg, by simp [hread]⟩
  · obtain ⟨rfl, rfl⟩ := pure_eq_ok.mp h
    refine ⟨.refl s, ?_⟩
    simp_all

theorem baseType_ok {t : CType} (h : baseType s = .ok t s') :
    Grows s s' [] [] ∧ Parser.baseType s.stream = some (t, s'.stream) := by
  rw [baseType] at h
  obtain ⟨o, s₁, hbase, h⟩ := bind_eq_ok.mp h
  obtain ⟨rfl, rfl⟩ := pure_eq_ok.mp h
  obtain ⟨hg, hread⟩ := baseType?_ok hbase
  exact ⟨hg, by simp [Parser.baseType, hread]⟩

theorem pointerLevels_ok {t t' : CType} (h : pointerLevels t s = .ok t' s') :
    Grows s s' [] [] ∧ Parser.pointerLevels t s.stream = some (t', s'.stream) := by
  have hloop : ∃ b, Parser.pointerLevels t s.stream = some (b, s'.stream) ∧
      t' = b ∧ Grows s s' [] [] := by
    refine whileToken_ok (R := fun a b s₁ => a = b ∧ Grows s s₁ [] []) ?_ ⟨rfl, .refl s⟩ h
    rintro a b s₁ a' s₂ ⟨rfl, hg⟩ - hb
    obtain ⟨_, s₃, hadv, hb⟩ := bind_eq_ok.mp hb
    obtain ⟨rfl, rfl⟩ := pure_eq_ok.mp hb
    obtain ⟨hg', hadv'⟩ := hg.advance hadv
    exact ⟨a.pointerTo, by simp [hadv'], rfl, hg'⟩
  obtain ⟨_, hread, rfl, hg⟩ := hloop
  exact ⟨hg, hread⟩

/-! ## Expressions and their trees -/

/-- Between `s₀` and `s` an expression of type `t` with the tree `e` was compiled. -/
def Made (s₀ : State) (t : CType) (e : Expr) (s : State) : Prop :=
  ∃ c, e.generate s₀.context s₀.code.size s₀.data.size = some (t, c) ∧ Grows s₀ s c.code c.data

/-- Whenever the action succeeds, the parser reads what it compiled. -/
def Follows (x : CompileM CType) (read : Parser Expr) : Prop :=
  ∀ s t s', x s = .ok t s' → ∃ e, read s.stream = some (e, s'.stream) ∧ Made s t e s'

/-- An expression behind what was appended since the origin. -/
theorem Follows.after {x : CompileM CType} {read : Parser Expr} {t : CType} (hx : Follows x read)
    (hg : Grows s₀ s code data) (h : x s = .ok t s') :
    ∃ e c, read s.stream = some (e, s'.stream) ∧
      e.generate s₀.context (s₀.code.size + code.length) (s₀.data.size + data.length) =
        some (t, c) ∧ Grows s₀ s' (code ++ c.code) (data ++ c.data) := by
  obtain ⟨e, hread, c, hgen, hg'⟩ := hx _ _ _ h
  rw [hg.context_eq, hg.code_size, hg.data_size] at hgen
  exact ⟨e, c, hread, hgen, hg.trans hg'⟩

theorem Made.of_grows {t : CType} {e : Expr} (h : Made s₀ t e s) (hg : Grows s s' [] []) :
    Made s₀ t e s' := by
  obtain ⟨c, hgen, hg'⟩ := h
  exact ⟨c, hgen, hg'.trans_nil hg⟩

theorem loadToPush_made {width : Width} {c : Chunk} {t : CType} {e : Expr}
    (hgen : e.generate s₀.context s₀.code.size s₀.data.size = some (t, c))
    (hg : Grows s₀ s c.code c.data) (h : loadToPush s = .ok (some width) s') :
    ∃ c', c.rewriteLoad? = some (width, c') ∧ Grows s₀ s' c'.code c'.data ∧
      s'.stream = s.stream := by
  obtain ⟨hlast, hg', hst⟩ := loadToPush_ok h hg (Expr.generate_opens hgen).ne_nil
  exact ⟨_, Chunk.rewriteLoad?_of_getLast? hlast, hg', hst⟩

theorem dropLoad_made {c : Chunk} {t : CType} {e : Expr}
    (hgen : e.generate s₀.context s₀.code.size s₀.data.size = some (t, c))
    (hg : Grows s₀ s c.code c.data) (h : dropLoad s = .ok true s') :
    ∃ c', c.removeLoad? = some c' ∧ Grows s₀ s' c'.code c'.data ∧
      s'.stream = s.stream := by
  obtain ⟨⟨w, hlast⟩, hg', hst⟩ := dropLoad_ok h hg (Expr.generate_opens hgen).ne_nil
  exact ⟨_, Chunk.removeLoad?_of_getLast? hlast, hg', hst⟩

/-! ## Operators behind an operand -/

section Operators

variable {sub : Prec → CompileM CType} {read : Prec → Parser Expr}
  (hsub : ∀ prec, Follows (sub prec) (read prec))
  {left t : CType} {l : Expr} (hl : Made s₀ left l s)

include hsub hl

theorem assignment_ok (h : assignment sub left s = .ok t s') :
    ∃ r, read .assign s.stream = some (r, s'.stream) ∧ Made s₀ t (.assign l r) s' := by
  obtain ⟨c, hgen, hg⟩ := hl
  rw [assignment] at h
  obtain ⟨o, s₁, hload, h⟩ := bind_eq_ok.mp h
  cases o with
  | none => exact absurd h fail_ne_ok
  | some width =>
    obtain ⟨c₁, hrew, hg₁, hst₁⟩ := loadToPush_made hgen hg hload
    obtain ⟨_, s₂, hr, h⟩ := bind_eq_ok.mp h
    obtain ⟨r, c₂, hread, hgen₂, hg₂⟩ := (hsub .assign).after hg₁ hr
    obtain ⟨_, s₃, hemit, h⟩ := bind_eq_ok.mp h
    obtain ⟨-, hg₃, hst₃⟩ := hg₂.emit hemit
    obtain ⟨rfl, rfl⟩ := pure_eq_ok.mp h
    refine ⟨r, by rw [← hst₁, hread, hst₃], c₁ ++ c₂ ++ .ofCode [.store left.width], ?_, ?_⟩
    · simp [Expr.generate, hgen, hrew, hgen₂, Chunk.stop_eq]
    · simpa using hg₃

theorem conditional_ok (h : conditional sub s = .ok t s') :
    ∃ yes no st st', read .assign s.stream = some (yes, st) ∧
      Parser.expect .colon st = some ((), st') ∧ read .cond st' = some (no, s'.stream) ∧
      Made s₀ t (.cond l yes no) s' := by
  obtain ⟨c, hgen, hg⟩ := hl
  rw [conditional] at h
  obtain ⟨n₁, s₁, hemit₁, h⟩ := bind_eq_ok.mp h
  obtain ⟨hn₁, hg₁, hst₁⟩ := hg.emit hemit₁
  obtain ⟨_, s₂, hyes, h⟩ := bind_eq_ok.mp h
  obtain ⟨yes, c₁, hread₁, hgen₁, hg₂⟩ := (hsub .assign).after hg₁ hyes
  obtain ⟨_, s₃, hcolon, h⟩ := bind_eq_ok.mp h
  obtain ⟨hg₃, hcolon'⟩ := hg₂.expect hcolon
  obtain ⟨n₂, s₄, hemit₂, h⟩ := bind_eq_ok.mp h
  obtain ⟨hn₂, hg₄, hst₄⟩ := hg₃.emit hemit₂
  obtain ⟨_, s₅, hpatch₁, h⟩ := bind_eq_ok.mp h
  let second := c₁.stop (c.stop s₀.code.size + 1) + 1
  obtain ⟨hg₅, hst₅⟩ := patch_ok .ifZero c.code (c₁.code ++ [.branch .always 0]) second
    hpatch₁ hg₄ (by simp) hn₁ (by simp [second, Chunk.stop_eq]; omega)
  obtain ⟨type, s₆, hno, h⟩ := bind_eq_ok.mp h
  obtain ⟨no, c₂, hread₂, hgen₂, hg₆⟩ := (hsub .cond).after hg₅ hno
  obtain ⟨_, s₇, hpatch₂, h⟩ := bind_eq_ok.mp h
  obtain ⟨rfl, rfl⟩ := pure_eq_ok.mp h
  obtain ⟨hg₇, hst₇⟩ := patch_ok .always
    (c.code ++ .branch .ifZero (UInt64.ofNat second) :: c₁.code) c₂.code (c₂.stop second) hpatch₂
    hg₆ (by simp) (by simp [hn₂]) (by simp [second, Chunk.stop_eq]; omega)
  refine ⟨yes, no, s₂.stream, s₃.stream, by rw [← hst₁, hread₁], hcolon', ?_, ?_⟩
  · rw [← hst₄, ← hst₅, hread₂, hst₇]
  refine ⟨c ++ .ofCode [.branch .ifZero (UInt64.ofNat second)] ++ c₁ ++
    .ofCode [.branch .always (UInt64.ofNat (c₂.stop second))] ++ c₂ ++
    .joinAt (c₂.stop second), ?_, ?_⟩
  · have hpos₁ : s₀.code.size + (c.code ++ [Instr.branch .ifZero 0]).length =
        c.stop s₀.code.size + 1 := by
      simp [Chunk.stop_eq]; omega
    have hpos₂ : s₀.code.size + (c.code ++ Instr.branch .ifZero (UInt64.ofNat second) ::
        (c₁.code ++ [Instr.branch .always 0])).length = second := by
      simp [second, Chunk.stop_eq]; omega
    rw [hpos₁] at hgen₁
    rw [hpos₂, List.length_append, ← Nat.add_assoc] at hgen₂
    simp [Expr.generate, hgen, hgen₁, hgen₂, second]
  · simpa using hg₇

theorem shortCircuit_ok {condition : Branch} {prec : Prec}
    (h : shortCircuit sub condition prec s = .ok t s') :
    ∃ r, read prec.tighter s.stream = some (r, s'.stream) ∧
      Made s₀ t (.shortCircuit condition l r) s' := by
  obtain ⟨c, hgen, hg⟩ := hl
  rw [shortCircuit] at h
  obtain ⟨n, s₁, hemit, h⟩ := bind_eq_ok.mp h
  obtain ⟨hn, hg₁, hst₁⟩ := hg.emit hemit
  obtain ⟨_, s₂, hr, h⟩ := bind_eq_ok.mp h
  obtain ⟨r, c₁, hread, hgen₁, hg₂⟩ := (hsub prec.tighter).after hg₁ hr
  obtain ⟨_, s₃, hpatch, h⟩ := bind_eq_ok.mp h
  obtain ⟨rfl, rfl⟩ := pure_eq_ok.mp h
  let join := c₁.stop (c.stop s₀.code.size + 1)
  obtain ⟨hg₃, hst₃⟩ := patch_ok condition c.code c₁.code join hpatch hg₂ (by simp) hn
    (by simp [join, Chunk.stop_eq]; omega)
  refine ⟨r, by rw [← hst₁, hread, hst₃],
    c ++ .ofCode [.branch condition (UInt64.ofNat join)] ++ c₁ ++ .joinAt join, ?_, ?_⟩
  · have hpos : s₀.code.size + (c.code ++ [Instr.branch condition 0]).length =
        c.stop s₀.code.size + 1 := by
      simp [Chunk.stop_eq]; omega
    rw [hpos] at hgen₁
    simp [Expr.generate, hgen, hgen₁, join]
  · simpa using hg₃

/-- The operand behind a push, and the instructions behind it. -/
theorem pushed_ok {prec : Prec} {n : Nat} {s₁ s₂ : State} {right : CType}
    (hpush : emit .push s = .ok n s₁) (hr : sub prec s₁ = .ok right s₂) :
    ∃ r c c', read prec s.stream = some (r, s₂.stream) ∧
      l.generate s₀.context s₀.code.size s₀.data.size = some (left, c) ∧
      r.generate s₀.context (c.stop s₀.code.size + 1) (s₀.data.size + c.data.length) =
        some (right, c') ∧
      Grows s₀ s₂ (c ++ .ofCode [.push] ++ c').code (c ++ .ofCode [.push] ++ c').data := by
  obtain ⟨c, hgen, hg⟩ := hl
  obtain ⟨-, hg₁, hst₁⟩ := hg.emit hpush
  obtain ⟨r, c', hread, hgen', hg₂⟩ := (hsub prec).after hg₁ hr
  have hpos : s₀.code.size + (c.code ++ [Instr.push]).length = c.stop s₀.code.size + 1 := by
    simp [Chunk.stop_eq]; omega
  rw [hpos] at hgen'
  exact ⟨r, c, c', by rw [← hst₁, hread], hgen, hgen', by simpa using hg₂⟩

theorem addition_ok (h : addition sub left s = .ok t s') :
    ∃ r, read Prec.sum.tighter s.stream = some (r, s'.stream) ∧
      Made s₀ t (.binary .add l r) s' := by
  rw [addition] at h
  obtain ⟨n, s₁, hpush, h⟩ := bind_eq_ok.mp h
  obtain ⟨right, s₂, hr, h⟩ := bind_eq_ok.mp h
  obtain ⟨r, c, c', hread, hgen, hgen', hg⟩ := pushed_ok hsub hl hpush hr
  obtain ⟨_, s₃, hemit, h⟩ := bind_eq_ok.mp h
  obtain ⟨rfl, rfl⟩ := pure_eq_ok.mp h
  obtain ⟨hg', hst⟩ := hg.emitAll hemit
  refine ⟨r, by rw [hread, hst],
    c ++ .ofCode [.push] ++ c' ++ .ofCode (addOffset left .add), ?_, ?_⟩
  · simp [Expr.generate, hgen, hgen', Syntax.binaryCode]
  · simpa using hg'

theorem subtraction_ok (h : subtraction sub left s = .ok t s') :
    ∃ r, read Prec.sum.tighter s.stream = some (r, s'.stream) ∧
      Made s₀ t (.binary .sub l r) s' := by
  rw [subtraction] at h
  obtain ⟨n, s₁, hpush, h⟩ := bind_eq_ok.mp h
  obtain ⟨right, s₂, hr, h⟩ := bind_eq_ok.mp h
  obtain ⟨r, c, c', hread, hgen, hgen', hg⟩ := pushed_ok hsub hl hpush hr
  split at h
  · rename_i hscale
    obtain ⟨_, s₃, hemit, h⟩ := bind_eq_ok.mp h
    obtain ⟨rfl, rfl⟩ := pure_eq_ok.mp h
    obtain ⟨hg', hst⟩ := hg.emitAll hemit
    refine ⟨r, by rw [hread, hst],
      c ++ .ofCode [.push] ++ c' ++ .ofCode (.binary .sub :: scale .div), ?_, ?_⟩
    · simp only [Expr.generate, hgen, hgen', Syntax.binaryCode, if_pos hscale, Option.bind_eq_bind,
        Option.bind_some]
    · simpa using hg'
  · rename_i hscale
    obtain ⟨_, s₃, hemit, h⟩ := bind_eq_ok.mp h
    obtain ⟨rfl, rfl⟩ := pure_eq_ok.mp h
    obtain ⟨hg', hst⟩ := hg.emitAll hemit
    refine ⟨r, by rw [hread, hst],
      c ++ .ofCode [.push] ++ c' ++ .ofCode (addOffset left .sub), ?_, ?_⟩
    · simp only [Expr.generate, hgen, hgen', Syntax.binaryCode, if_neg hscale, Option.bind_eq_bind,
        Option.bind_some]
    · simpa using hg'

theorem arithmetic_ok {op : BinOp} (hadd : op ≠ .add) (hsubop : op ≠ .sub)
    (h : arithmetic sub op s = .ok t s') :
    ∃ r, read op.prec.tighter s.stream = some (r, s'.stream) ∧ Made s₀ t (.binary op l r) s' := by
  rw [arithmetic] at h
  obtain ⟨n, s₁, hpush, h⟩ := bind_eq_ok.mp h
  obtain ⟨right, s₂, hr, h⟩ := bind_eq_ok.mp h
  obtain ⟨r, c, c', hread, hgen, hgen', hg⟩ := pushed_ok hsub hl hpush hr
  obtain ⟨_, s₃, hemit, h⟩ := bind_eq_ok.mp h
  obtain ⟨rfl, rfl⟩ := pure_eq_ok.mp h
  obtain ⟨-, hg', hst⟩ := hg.emit hemit
  have hcode : Syntax.binaryCode op left right = (.int, [.binary op]) := by
    cases op <;> simp_all [Syntax.binaryCode]
  refine ⟨r, by rw [hread, hst], c ++ .ofCode [.push] ++ c' ++ .ofCode [.binary op], ?_, ?_⟩
  · simp [Expr.generate, hgen, hgen', hcode]
  · simpa using hg'

theorem indexing_ok (h : indexing sub left s = .ok t s') :
    ∃ i st, read .assign s.stream = some (i, st) ∧
      Parser.expect .rightBracket st = some ((), s'.stream) ∧ Made s₀ t (.index l i) s' := by
  rw [indexing] at h
  obtain ⟨n, s₁, hpush, h⟩ := bind_eq_ok.mp h
  obtain ⟨right, s₂, hr, h⟩ := bind_eq_ok.mp h
  obtain ⟨i, c, c', hread, hgen, hgen', hg⟩ := pushed_ok hsub hl hpush hr
  obtain ⟨_, s₃, hclose, h⟩ := bind_eq_ok.mp h
  obtain ⟨hg₃, hclose'⟩ := hg.expect hclose
  cases helem : left.deref? with
  | none =>
    simp only [helem] at h
    exact absurd h fail_ne_ok
  | some element =>
    simp only [helem] at h
    obtain ⟨_, s₄, hemit, h⟩ := bind_eq_ok.mp h
    obtain ⟨rfl, rfl⟩ := pure_eq_ok.mp h
    obtain ⟨hg', hst⟩ := hg₃.emitAll hemit
    refine ⟨i, s₂.stream, hread, by rw [hclose', hst], c ++ .ofCode [.push] ++ c' ++
      .ofCode (addOffset left .add ++ [.load element.width]), ?_, ?_⟩
    · simp [Expr.generate, hgen, hgen', helem]
    · simpa using hg'

omit hsub in
theorem postStep_ok {apply undo : BinOp} (h : postStep left apply undo s = .ok t s') :
    s'.stream = s.stream ∧ Made s₀ t (.postStep apply undo l) s' := by
  obtain ⟨c, hgen, hg⟩ := hl
  rw [postStep] at h
  obtain ⟨o, s₁, hload, h⟩ := bind_eq_ok.mp h
  cases o with
  | none => exact absurd h fail_ne_ok
  | some width =>
    obtain ⟨c₁, hrew, hg₁, hst₁⟩ := loadToPush_made hgen hg hload
    obtain ⟨_, s₂, hemit, h⟩ := bind_eq_ok.mp h
    obtain ⟨rfl, rfl⟩ := pure_eq_ok.mp h
    obtain ⟨hg₂, hst₂⟩ := hg₁.emitAll hemit
    refine ⟨by rw [hst₂, hst₁], c₁ ++
      .ofCode (stepBy left width apply ++ [.push, .imm left.step, .binary undo]), ?_, ?_⟩
    · simp [Expr.generate, hgen, hrew]
    · simpa using hg₂

theorem operator_ok (h : operator sub left s = .ok t s') :
    ∃ e, Parser.operator read l s.stream = some (e, s'.stream) ∧ Made s₀ t e s' := by
  rw [operator] at h
  obtain ⟨_, _, hcur, h⟩ := bind_eq_ok.mp h
  obtain ⟨rfl, rfl⟩ := current_eq_ok.mp hcur
  obtain ⟨_, s₁, hadv, h⟩ := bind_eq_ok.mp h
  obtain ⟨hg, hadv'⟩ := advance_ok hadv
  have hl₁ := hl.of_grows hg
  have hst : s.stream.current = s.current := rfl
  simp only [Parser.operator, Parser.bind_apply, Parser.current_apply, Option.bind_some, hadv', hst]
  generalize s.current = token at h ⊢
  split at h
  · obtain ⟨r, hread, hm⟩ := assignment_ok hsub hl₁ h
    exact ⟨_, by simp [hread], hm⟩
  · obtain ⟨yes, no, st, st', hyes, hcolon, hno, hm⟩ := conditional_ok hsub hl₁ h
    exact ⟨_, by simp [hyes, hcolon, hno], hm⟩
  · obtain ⟨r, hread, hm⟩ := shortCircuit_ok hsub hl₁ h
    exact ⟨_, by simp [hread], hm⟩
  · obtain ⟨r, hread, hm⟩ := shortCircuit_ok hsub hl₁ h
    exact ⟨_, by simp [hread], hm⟩
  · obtain ⟨r, hread, hm⟩ := addition_ok hsub hl₁ h
    exact ⟨_, by simp [BinOp.prec, hread], hm⟩
  · obtain ⟨r, hread, hm⟩ := subtraction_ok hsub hl₁ h
    exact ⟨_, by simp [BinOp.prec, hread], hm⟩
  · rename_i op hadd hsubop
    obtain ⟨r, hread, hm⟩ := arithmetic_ok hsub hl₁ hadd hsubop h
    exact ⟨_, by simp [hread], hm⟩
  · obtain ⟨hst', hm⟩ := postStep_ok hl₁ h
    exact ⟨_, by simp [hst'], hm⟩
  · obtain ⟨hst', hm⟩ := postStep_ok hl₁ h
    exact ⟨_, by simp [hst'], hm⟩
  · obtain ⟨i, st, hread, hclose, hm⟩ := indexing_ok hsub hl₁ h
    exact ⟨_, by simp [hread, hclose], hm⟩
  · exact absurd h fail_ne_ok

end Operators

/-! ## Operands -/

theorem literals_ok {u u' : Unit}
    (h : whileToken Parser.isText (fun _ => do
      match ← current with
      | .string bytes => storeData bytes
      | _ => pure ()
      advance) u s = .ok u' s') :
    ∃ bytes, Parser.text s.stream = some (.text bytes, s'.stream) ∧ Grows s s' [] bytes := by
  have hloop : ∃ bytes, Parser.whileToken Parser.isText Parser.literal [] s.stream =
      some (bytes, s'.stream) ∧ Grows s s' [] bytes := by
    refine whileToken_ok (R := fun _ bytes s₁ => Grows s s₁ [] bytes) ?_ (.refl s) h
    intro _ read s₁ _ s₂ hg hmore hb
    obtain ⟨_, _, hcur, hb⟩ := bind_eq_ok.mp hb
    obtain ⟨rfl, rfl⟩ := current_eq_ok.mp hcur
    have hst : s₁.stream.current = s₁.current := rfl
    simp only [Parser.literal, Parser.bind_apply, Parser.current_apply, Option.bind_some, hst]
    generalize s₁.current = token at hb hmore ⊢
    cases token with
    | string bytes =>
      obtain ⟨_, s₃, hstore, hb⟩ := bind_eq_ok.mp hb
      obtain ⟨hg₁, hst₁⟩ := storeData_ok hstore
      obtain ⟨hg₂, hadv⟩ := (hg.trans hg₁).advance hb
      exact ⟨read ++ bytes, by simp [← hst₁, hadv], hg₂⟩
    | _ => simp [Parser.isText] at hmore
  obtain ⟨bytes, hread, hg⟩ := hloop
  exact ⟨bytes, by simp [Parser.text, hread], hg⟩

theorem alignData_ok {u : Unit} (h : alignData s = .ok u s') :
    Grows s s' [] (Syntax.padding s.data.size) ∧ s'.stream = s.stream := by
  rw [alignData] at h
  obtain ⟨_, _, hget, h⟩ := bind_eq_ok.mp h
  obtain ⟨rfl, rfl⟩ := get_eq_ok.mp hget
  exact storeData_ok h

theorem stringLiterals_ok {t : CType} (h : stringLiterals s = .ok t s') :
    ∃ e, Parser.text s.stream = some (e, s'.stream) ∧ Made s t e s' := by
  rw [stringLiterals] at h
  obtain ⟨address, _, haddr, h⟩ := bind_eq_ok.mp h
  obtain ⟨_, _, hget, haddr⟩ := bind_eq_ok.mp haddr
  obtain ⟨rfl, rfl⟩ := get_eq_ok.mp hget
  obtain ⟨rfl, rfl⟩ := pure_eq_ok.mp haddr
  obtain ⟨_, s₁, hloop, h⟩ := bind_eq_ok.mp h
  obtain ⟨bytes, hread, hg₁⟩ := literals_ok hloop
  obtain ⟨_, s₂, halign, h⟩ := bind_eq_ok.mp h
  obtain ⟨hg₂, hst₂⟩ := alignData_ok halign
  obtain ⟨_, s₃, hemit, h⟩ := bind_eq_ok.mp h
  obtain ⟨rfl, rfl⟩ := pure_eq_ok.mp h
  obtain ⟨-, hg₃, hst₃⟩ := (hg₁.trans hg₂).emit hemit
  rw [hg₁.data_size] at hg₃
  exact ⟨_, by rw [hread, hst₃, hst₂], _, rfl, hg₃⟩

theorem sizeOf_ok {t : CType} (h : Compile.sizeOf s = .ok t s') :
    ∃ e, Parser.sizeOf s.stream = some (e, s'.stream) ∧ Made s t e s' := by
  rw [Compile.sizeOf] at h
  obtain ⟨_, s₁, hadv, h⟩ := bind_eq_ok.mp h
  obtain ⟨hg₁, hadv'⟩ := advance_ok hadv
  obtain ⟨_, s₂, hopen, h⟩ := bind_eq_ok.mp h
  obtain ⟨hg₂, hopen'⟩ := hg₁.expect hopen
  obtain ⟨base, s₃, hbase, h⟩ := bind_eq_ok.mp h
  obtain ⟨hg₃, hbase'⟩ := baseType_ok hbase
  obtain ⟨type, s₄, hptr, h⟩ := bind_eq_ok.mp h
  obtain ⟨hg₄, hptr'⟩ := pointerLevels_ok hptr
  obtain ⟨_, s₅, hclose, h⟩ := bind_eq_ok.mp h
  obtain ⟨hg₅, hclose'⟩ := ((hg₂.trans_nil hg₃).trans_nil hg₄).expect hclose
  obtain ⟨_, s₆, hemit, h⟩ := bind_eq_ok.mp h
  obtain ⟨rfl, rfl⟩ := pure_eq_ok.mp h
  obtain ⟨-, hg₆, hst₆⟩ := hg₅.emit hemit
  exact ⟨.sizeOf type, by simp [Parser.sizeOf, hadv', hopen', hbase', hptr', hclose', hst₆],
    _, rfl, hg₆⟩

theorem variableUse_ok {id : SymbolId} {t : CType} (h : variableUse id s = .ok t s') :
    s'.stream = s.stream ∧ Made s t (.name id) s' := by
  rw [variableUse] at h
  obtain ⟨_, _, hget, h⟩ := bind_eq_ok.mp h
  obtain ⟨rfl, rfl⟩ := get_eq_ok.mp hget
  have hmade : ∀ {code : List Instr},
      Syntax.nameCode? (s.symbols.binding id) s.frame = some (t, code) → Grows s s' code [] →
      Made s t (.name id) s' := by
    intro code hcode hg
    refine ⟨.ofCode code, ?_, hg⟩
    have hctx : Syntax.nameCode? (s.context.binding id) s.context.frame = some (t, code) := hcode
    simp [Expr.generate, hctx]
  cases hk : (s.symbols.binding id).kind
  case constant =>
    simp only [hk] at h
    obtain ⟨_, s₁, hemit, h⟩ := bind_eq_ok.mp h
    obtain ⟨rfl, rfl⟩ := pure_eq_ok.mp h
    obtain ⟨-, hg, hst⟩ := emit_ok hemit
    exact ⟨hst, hmade (by simp [Syntax.nameCode?, hk]) hg⟩
  case localVar | globalVar | function =>
    simp only [hk] at h
    obtain ⟨_, s₁, hemit, h⟩ := bind_eq_ok.mp h
    obtain ⟨rfl, rfl⟩ := pure_eq_ok.mp h
    obtain ⟨hg, hst⟩ := emitAll_ok hemit
    exact ⟨hst, hmade (by simp [Syntax.nameCode?, hk]) hg⟩
  all_goals
    simp only [hk] at h
    exact absurd h fail_ne_ok

section Nested

variable {sub : Prec → CompileM CType} {read : Prec → Parser Expr}
  (hsub : ∀ prec, Follows (sub prec) (read prec)) {t : CType}

include hsub

theorem arguments_ok {n : Nat} (h : arguments sub s = .ok n s') :
    ∃ args c, Parser.collect (· ≠ .rightParen) (Parser.argument read) s.stream =
        some (args, s'.stream) ∧ n = args.length ∧
      Expr.generateArgs s.context s.code.size s.data.size args = some c ∧
      Grows s s' c.code c.data := by
  have hloop : ∃ args, Parser.collect (· ≠ .rightParen) (Parser.argument read) s.stream =
      some (args, s'.stream) ∧ n = args.length ∧ ∃ c,
        Expr.generateArgs s.context s.code.size s.data.size args = some c ∧
        Grows s s' c.code c.data := by
    refine whileToken_ok (R := fun n args s₁ => n = args.length ∧ ∃ c,
      Expr.generateArgs s.context s.code.size s.data.size args = some c ∧
      Grows s s₁ c.code c.data) (b := []) ?_ ⟨rfl, .ofCode [], rfl, .refl s⟩ h
    rintro _ args s₁ _ s₂ ⟨rfl, c, hgen, hg⟩ - hb
    obtain ⟨_, s₃, he, hb⟩ := bind_eq_ok.mp hb
    obtain ⟨e, c', hread, hgen', hg₁⟩ := (hsub .assign).after hg he
    obtain ⟨_, s₄, hpush, hb⟩ := bind_eq_ok.mp hb
    obtain ⟨-, hg₂, hst₂⟩ := hg₁.emit hpush
    obtain ⟨_, s₅, hskip, hb⟩ := bind_eq_ok.mp hb
    obtain ⟨hg₃, hskip'⟩ := hg₂.skipOver hskip
    obtain ⟨rfl, rfl⟩ := pure_eq_ok.mp hb
    refine ⟨args ++ [e], ?_, by simp, c ++ (c' ++ .ofCode [.push]), ?_, by simpa using hg₃⟩
    · rw [hst₂] at hskip'
      simp [Parser.argument, hread, hskip']
    · exact Expr.generateArgs_concat hgen hgen'
  obtain ⟨args, hread, hn, c, hgen, hg⟩ := hloop
  exact ⟨args, c, hread, hn, hgen, hg⟩

theorem call_ok {id : SymbolId} (h : call sub id s = .ok t s') :
    ∃ e, Parser.call read id s.stream = some (e, s'.stream) ∧ Made s t e s' := by
  rw [call] at h
  obtain ⟨_, s₁, hadv, h⟩ := bind_eq_ok.mp h
  obtain ⟨hg₁, hadv'⟩ := advance_ok hadv
  obtain ⟨n, s₂, hargs, h⟩ := bind_eq_ok.mp h
  obtain ⟨args, c, hread, rfl, hgen, hg₂⟩ := arguments_ok hsub hargs
  rw [hg₁.context_eq, hg₁.code_size, hg₁.data_size] at hgen
  obtain ⟨_, s₃, hadv₂, h⟩ := bind_eq_ok.mp h
  obtain ⟨hg₃, hadv₂'⟩ := (hg₁.trans hg₂).advance hadv₂
  obtain ⟨_, _, hget, h⟩ := bind_eq_ok.mp h
  obtain ⟨rfl, rfl⟩ := get_eq_ok.mp hget
  have hbinding : s₃.symbols.binding id = s.context.binding id := by
    rw [hg₃.symbols_eq]; rfl
  have hframe : s₃.frame = s.context.frame := hg₃.frame_eq
  rw [hbinding, hframe] at h
  cases hi : callInstr? (s.context.binding id) s.context.frame with
  | none =>
    simp only [hi] at h
    exact absurd h fail_ne_ok
  | some i =>
    simp only [hi] at h
    obtain ⟨_, s₄, hemit, h⟩ := bind_eq_ok.mp h
    obtain ⟨-, hg₄, hst₄⟩ := hg₃.emit hemit
    have hparse : Parser.call read id s.stream = some (.call id args, s₃.stream) := by
      simp only [Parser.call, Parser.bind_apply, Parser.pure_apply, Option.bind_some, hadv', hread,
        hadv₂']
    have hmade : ∀ {s₅ : State}, Grows s s₅ (c.code ++ i :: Syntax.dropArguments args.length)
        c.data → Made s (s.context.binding id).type (.call id args) s₅ := by
      intro s₅ hg
      refine ⟨c ++ .ofCode (i :: Syntax.dropArguments args.length), ?_, by simpa using hg⟩
      simp at hgen
      simp [Expr.generate, hgen, hi]
    simp only [List.nil_append] at hg₄
    split at h
    · rename_i hne
      obtain ⟨_, s₅, hadj, h⟩ := bind_eq_ok.mp h
      obtain ⟨-, hg₅, hst₅⟩ := hg₄.emit hadj
      obtain ⟨rfl, rfl⟩ := pure_eq_ok.mp h
      refine ⟨_, by rw [hparse, hst₅, hst₄], hmade ?_⟩
      simpa [Syntax.dropArguments, hne] using hg₅
    · rename_i hne
      obtain ⟨rfl, rfl⟩ := pure_eq_ok.mp h
      refine ⟨_, by rw [hparse, hst₄], hmade ?_⟩
      simpa [Syntax.dropArguments, hne] using hg₄

theorem parenthesised_ok (h : parenthesised sub s = .ok t s') :
    ∃ e, Parser.parenthesised read s.stream = some (e, s'.stream) ∧ Made s t e s' := by
  rw [parenthesised] at h
  obtain ⟨_, s₁, hadv, h⟩ := bind_eq_ok.mp h
  obtain ⟨hg₁, hadv'⟩ := advance_ok hadv
  obtain ⟨o, s₂, hbase, h⟩ := bind_eq_ok.mp h
  obtain ⟨hg₂, hbase'⟩ := baseType?_ok hbase
  cases o with
  | some base =>
    obtain ⟨type, s₃, hptr, h⟩ := bind_eq_ok.mp h
    obtain ⟨hg₃, hptr'⟩ := pointerLevels_ok hptr
    obtain ⟨_, s₄, hclose, h⟩ := bind_eq_ok.mp h
    obtain ⟨hg₄, hclose'⟩ := ((hg₁.trans_nil hg₂).trans_nil hg₃).expect hclose
    obtain ⟨_, s₅, he, h⟩ := bind_eq_ok.mp h
    obtain ⟨rfl, rfl⟩ := pure_eq_ok.mp h
    obtain ⟨e, c, hread, hgen, hg₅⟩ := (hsub .primary).after hg₄ he
    have hgen' : e.generate s.context s.code.size s.data.size = some (_, c) := hgen
    exact ⟨.cast type e, by simp [Parser.parenthesised, hadv', hbase', hptr', hclose', hread],
      c, by simp [Expr.generate, hgen'], hg₅⟩
  | none =>
    obtain ⟨type, s₃, he, h⟩ := bind_eq_ok.mp h
    obtain ⟨e, c, hread, hgen, hg₃⟩ := (hsub .assign).after (hg₁.trans_nil hg₂) he
    obtain ⟨_, s₄, hclose, h⟩ := bind_eq_ok.mp h
    obtain ⟨hg₄, hclose'⟩ := hg₃.expect hclose
    obtain ⟨rfl, rfl⟩ := pure_eq_ok.mp h
    exact ⟨.paren e, by simp [Parser.parenthesised, hadv', hbase', hread, hclose'], c, hgen, hg₄⟩

/-- An operand behind the operator in front of it. -/
theorem inFront_ok {s₁ s₂ : State} {u : Unit} (hadv : advance s = .ok u s₁)
    (he : sub .primary s₁ = .ok t s₂) :
    ∃ e, (∀ build, Parser.inFront read build s.stream = some (build e, s₂.stream)) ∧
      Made s t e s₂ := by
  obtain ⟨hg₁, hadv'⟩ := advance_ok hadv
  obtain ⟨e, c, hread, hgen, hg₂⟩ := (hsub .primary).after hg₁ he
  exact ⟨e, fun build => by simp [Parser.inFront, hadv', hread], c, hgen, hg₂⟩

theorem dereference_ok (h : dereference sub s = .ok t s') :
    ∃ e, Parser.inFront read .deref s.stream = some (e, s'.stream) ∧ Made s t e s' := by
  rw [dereference] at h
  obtain ⟨_, s₁, hadv, h⟩ := bind_eq_ok.mp h
  obtain ⟨type, s₂, he, h⟩ := bind_eq_ok.mp h
  obtain ⟨e, hread, hm⟩ := inFront_ok hsub hadv he
  cases htarget : type.deref? with
  | none =>
    simp only [htarget] at h
    exact absurd h fail_ne_ok
  | some target =>
    simp only [htarget] at h
    obtain ⟨_, s₃, hemit, h⟩ := bind_eq_ok.mp h
    obtain ⟨rfl, rfl⟩ := pure_eq_ok.mp h
    obtain ⟨c, hgen, hg⟩ := hm
    obtain ⟨-, hg', hst⟩ := hg.emit hemit
    exact ⟨_, by rw [hread, hst], c ++ .ofCode [.load target.width],
      by simp [Expr.generate, hgen, htarget], by simpa using hg'⟩

theorem addressOf_ok (h : addressOf sub s = .ok t s') :
    ∃ e, Parser.inFront read .addressOf s.stream = some (e, s'.stream) ∧ Made s t e s' := by
  rw [addressOf] at h
  obtain ⟨_, s₁, hadv, h⟩ := bind_eq_ok.mp h
  obtain ⟨type, s₂, he, h⟩ := bind_eq_ok.mp h
  obtain ⟨e, hread, c, hgen, hg⟩ := inFront_ok hsub hadv he
  obtain ⟨b, s₃, hdrop, h⟩ := bind_eq_ok.mp h
  cases b with
  | false => exact absurd h fail_ne_ok
  | true =>
    obtain ⟨rfl, rfl⟩ := pure_eq_ok.mp h
    obtain ⟨c', hrem, hg', hst⟩ := dropLoad_made hgen hg hdrop
    exact ⟨_, by rw [hread, hst], c', by simp [Expr.generate, hgen, hrem], hg'⟩

theorem withConstant_ok {op : BinOp} {constant : Word}
    (h : withConstant sub op constant s = .ok t s') :
    ∃ e, Parser.inFront read (.withConstant op constant) s.stream = some (e, s'.stream) ∧
      Made s t e s' := by
  rw [withConstant] at h
  obtain ⟨_, s₁, hadv, h⟩ := bind_eq_ok.mp h
  obtain ⟨type, s₂, he, h⟩ := bind_eq_ok.mp h
  obtain ⟨e, hread, c, hgen, hg⟩ := inFront_ok hsub hadv he
  obtain ⟨_, s₃, hemit, h⟩ := bind_eq_ok.mp h
  obtain ⟨rfl, rfl⟩ := pure_eq_ok.mp h
  obtain ⟨hg', hst⟩ := hg.emitAll hemit
  exact ⟨_, by rw [hread, hst], c ++ .ofCode [.push, .imm constant, .binary op],
    by simp [Expr.generate, hgen], by simpa using hg'⟩

theorem preStep_ok {op : BinOp} (h : preStep sub op s = .ok t s') :
    ∃ e, Parser.inFront read (.preStep op) s.stream = some (e, s'.stream) ∧ Made s t e s' := by
  rw [preStep] at h
  obtain ⟨_, s₁, hadv, h⟩ := bind_eq_ok.mp h
  obtain ⟨type, s₂, he, h⟩ := bind_eq_ok.mp h
  obtain ⟨e, hread, c, hgen, hg⟩ := inFront_ok hsub hadv he
  obtain ⟨o, s₃, hload, h⟩ := bind_eq_ok.mp h
  cases o with
  | none => exact absurd h fail_ne_ok
  | some width =>
    obtain ⟨c₁, hrew, hg₁, hst₁⟩ := loadToPush_made hgen hg hload
    obtain ⟨_, s₄, hemit, h⟩ := bind_eq_ok.mp h
    obtain ⟨rfl, rfl⟩ := pure_eq_ok.mp h
    obtain ⟨hg₂, hst₂⟩ := hg₁.emitAll hemit
    exact ⟨_, by rw [hread, hst₂, hst₁], c₁ ++ .ofCode (stepBy type width op),
      by simp [Expr.generate, hgen, hrew], by simpa using hg₂⟩

theorem negation_ok (h : negation sub s = .ok t s') :
    ∃ e, Parser.negation read s.stream = some (e, s'.stream) ∧ Made s t e s' := by
  rw [negation] at h
  obtain ⟨_, s₁, hadv, h⟩ := bind_eq_ok.mp h
  obtain ⟨hg₁, hadv'⟩ := advance_ok hadv
  obtain ⟨_, _, hcur, h⟩ := bind_eq_ok.mp h
  obtain ⟨rfl, rfl⟩ := current_eq_ok.mp hcur
  have hst : s₁.stream.current = s₁.current := rfl
  simp only [Parser.negation, Parser.bind_apply, Parser.current_apply, Option.bind_some, hadv', hst]
  generalize s₁.current = token at h ⊢
  split at h
  · rename_i n
    obtain ⟨_, s₂, hemit, h⟩ := bind_eq_ok.mp h
    obtain ⟨-, hg₂, hst₂⟩ := hg₁.emit hemit
    obtain ⟨_, s₃, hadv₂, h⟩ := bind_eq_ok.mp h
    obtain ⟨rfl, rfl⟩ := pure_eq_ok.mp h
    obtain ⟨hg₃, hadv₂'⟩ := hg₂.advance hadv₂
    exact ⟨.negative n, by simp [← hst₂, hadv₂'], _, rfl, hg₃⟩
  · rename_i hnum
    obtain ⟨_, s₂, hemit, h⟩ := bind_eq_ok.mp h
    obtain ⟨hg₂, hst₂⟩ := hg₁.emitAll hemit
    obtain ⟨_, s₃, he, h⟩ := bind_eq_ok.mp h
    obtain ⟨e, c, hread, hgen, hg₃⟩ := (hsub .primary).after hg₂ he
    obtain ⟨_, s₄, hmul, h⟩ := bind_eq_ok.mp h
    obtain ⟨rfl, rfl⟩ := pure_eq_ok.mp h
    obtain ⟨-, hg₄, hst₄⟩ := hg₃.emit hmul
    have hgen' : e.generate s.context (s.code.size + 2) s.data.size = some (_, c) := hgen
    refine ⟨.negate e, ?_, .ofCode [.imm (-1), .push] ++ c ++ .ofCode [.binary .mul],
      by simp [Expr.generate, hgen'], by simpa using hg₄⟩
    simp [← hst₂, hread, hst₄]

theorem unary_ok : Follows (unary sub) (Parser.unary read) := by
  intro s t s' h
  rw [unary] at h
  obtain ⟨_, _, hcur, h⟩ := bind_eq_ok.mp h
  obtain ⟨rfl, rfl⟩ := current_eq_ok.mp hcur
  have hst : s.stream.current = s.current := rfl
  rw [Parser.unary, Parser.bind_apply, Parser.current_apply, Option.bind_some, hst]
  generalize s.current = token at h ⊢
  cases token with
  | number n =>
    obtain ⟨_, s₁, hadv, h⟩ := bind_eq_ok.mp h
    obtain ⟨hg₁, hadv'⟩ := advance_ok hadv
    obtain ⟨_, s₂, hemit, h⟩ := bind_eq_ok.mp h
    obtain ⟨-, hg₂, hst₂⟩ := hg₁.emit hemit
    obtain ⟨rfl, rfl⟩ := pure_eq_ok.mp h
    exact ⟨.number n, by simp [hadv', hst₂], _, rfl, hg₂⟩
  | string bytes => exact stringLiterals_ok h
  | keyword k =>
    cases k with
    | sizeofKw => exact sizeOf_ok h
    | _ => exact absurd h fail_ne_ok
  | ident id =>
    obtain ⟨_, s₁, hadv, h⟩ := bind_eq_ok.mp h
    obtain ⟨hg₁, hadv'⟩ := advance_ok hadv
    obtain ⟨_, _, hcur, h⟩ := bind_eq_ok.mp h
    obtain ⟨rfl, rfl⟩ := current_eq_ok.mp hcur
    have hst₁ : s₁.stream.current = s₁.current := rfl
    split at h
    · rename_i hparen
      obtain ⟨e, hread, c, hgen, hg₂⟩ := call_ok hsub h
      rw [hg₁.context_eq, hg₁.code_size, hg₁.data_size] at hgen
      exact ⟨e, by simp [hadv', hst₁, hparen, hread], c, hgen, hg₁.trans hg₂⟩
    · rename_i hparen
      obtain ⟨hst₂, c, hgen, hg₂⟩ := variableUse_ok h
      rw [hg₁.context_eq, hg₁.code_size, hg₁.data_size] at hgen
      exact ⟨.name id, by simp [hadv', hst₁, hparen, hst₂], c, hgen, hg₁.trans hg₂⟩
  | leftParen => exact parenthesised_ok hsub h
  | bang => exact withConstant_ok hsub h
  | tilde => exact withConstant_ok hsub h
  | increment => exact preStep_ok hsub h
  | decrement => exact preStep_ok hsub h
  | binary op =>
    cases op with
    | mul => exact dereference_ok hsub h
    | and => exact addressOf_ok hsub h
    | add =>
      obtain ⟨_, s₁, hadv, h⟩ := bind_eq_ok.mp h
      obtain ⟨type, s₂, he, h⟩ := bind_eq_ok.mp h
      obtain ⟨rfl, rfl⟩ := pure_eq_ok.mp h
      obtain ⟨e, hread, c, hgen, hg⟩ := inFront_ok hsub hadv he
      exact ⟨_, hread .plus, c, by simp [Expr.generate, hgen], hg⟩
    | sub => exact negation_ok hsub h
    | _ => exact absurd h fail_ne_ok
  | _ => exact absurd h fail_ne_ok

end Nested

/-- An expression that compiles has a tree, whose code is what was appended. -/
theorem expr_ok (levels : Nat) (prec : Prec) :
    Follows (expr levels prec) (Parser.expr levels prec) := by
  induction levels generalizing prec with
  | zero =>
    intro s t s' h
    exact absurd h fail_ne_ok
  | succ levels ih =>
    intro s t s' h
    rw [expr] at h
    obtain ⟨type, s₁, hfirst, h⟩ := bind_eq_ok.mp h
    obtain ⟨e, hread, hm⟩ := unary_ok ih s type s₁ hfirst
    have hloop : ∃ e', Parser.whileToken (fun token => prec ≤ token.prec)
        (Parser.operator (Parser.expr levels)) e s₁.stream = some (e', s'.stream) ∧
        Made s t e' s' :=
      whileToken_ok (R := fun t e s₁ => Made s t e s₁) (fun hl _ hb => operator_ok ih hl hb) hm h
    obtain ⟨e', hread', hm'⟩ := hloop
    exact ⟨e', by simp [Parser.expr, hread, hread'], hm'⟩

end MiniC.Compile
