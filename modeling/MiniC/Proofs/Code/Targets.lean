import MiniC.Proofs.Code.Heights
import MiniC.Proofs.Syntax.Lvalues

/-!
# Branch targets in trees with plain lvalues

Where no operand of `&` ends at a join, every branch of a construct leads to an index of the
construct or right behind it. Where also no operand of `=`, `++` or `--` does, the height is the
same at both ends of the branch (`Stmt.generate_bound`).

Both hold of an operand only until its last load is rewritten or removed. So for an expression the
induction also carries that a branch leads to the end of the code, less some loads, only where the
tree says so (`Known`).
-/

namespace MiniC.Syntax

/-- Branches lead to an index of the chunk or right behind it, and if `level` holds, every height
function has the same value at both ends. -/
def Chunk.Bound (level : Prop) (pos : Nat) (c : Chunk) : Prop :=
  ∀ k condition t, c.code[k]? = some (.branch condition t) →
    ∃ j, t = UInt64.ofNat j ∧ pos ≤ j ∧ j ≤ c.stop pos ∧
      (level → ∀ H, Linear H pos c.code → H j = H (pos + k))

/-- The same, and a branch to the end of the code, less some loads, shows in the tree. -/
def Chunk.Known (level : Prop) (e : Expr) (pos : Nat) (c : Chunk) : Prop :=
  ∀ k condition t, c.code[k]? = some (.branch condition t) →
    ∃ j, t = UInt64.ofNat j ∧ pos ≤ j ∧ j ≤ c.stop pos ∧
      (level → ∀ H, Linear H pos c.code → H j = H (pos + k)) ∧
      ∀ front loads, c.code = front ++ loads → (∀ i ∈ loads, ∃ w, i = .load w) →
        j = pos + front.length → e.meets loads.length = true

namespace Chunk

variable {level level' level'' : Prop} {e e' : Expr} {pos : Nat} {c c' : Chunk}

theorem Known.bound (h : c.Known level e pos) : c.Bound level pos := by
  intro k condition t hk
  obtain ⟨j, hj, hlo, hhi, hlevel, -⟩ := h k condition t hk
  exact ⟨j, hj, hlo, hhi, hlevel⟩

theorem Known.imp (h : c.Known level e pos) (hlevel : level' → level)
    (he : ∀ n, e.meets n = true → e'.meets n = true) : c.Known level' e' pos := by
  intro k condition t hk
  obtain ⟨j, hj, hlo, hhi, hl, hends⟩ := h k condition t hk
  exact ⟨j, hj, hlo, hhi, fun hlevel' => hl (hlevel hlevel'), fun front loads hcode hloads hend =>
    he _ (hends front loads hcode hloads hend)⟩

theorem Bound.append {pos' : Nat} (h : c.Bound level pos) (h' : c'.Bound level' pos')
    (hstop : c.stop pos = pos') (hl : level'' → level ∧ level') : (c ++ c').Bound level'' pos := by
  subst hstop
  intro k condition t hk
  rw [stop_append]
  rcases getElem?_append_cases hk with hk' | ⟨k', rfl, hk'⟩
  · obtain ⟨j, hj, hlo, hhi, heq⟩ := h k condition t hk'
    refine ⟨j, hj, hlo, ?_, fun hl'' H hH => heq (hl hl'').1 H hH.left⟩
    rw [stop_eq]
    omega
  · obtain ⟨j, hj, hlo, hhi, heq⟩ := h' k' condition t hk'
    refine ⟨j, hj, ?_, hhi, fun hl'' H hH => ?_⟩
    · rw [stop_eq] at hlo
      omega
    · rw [← Nat.add_assoc]
      exact heq (hl hl'').2 H hH.right

theorem Bound.straight (h : c.code.all Instr.isStraight = true) : c.Bound level pos := by
  intro k condition t hk
  have := List.all_eq_true.mp h _ (List.mem_of_getElem? hk)
  simp [Instr.isStraight] at this

theorem Known.straight (h : c.code.all Instr.isStraight = true) : c.Known level e pos := by
  intro k condition t hk
  have := List.all_eq_true.mp h _ (List.mem_of_getElem? hk)
  simp [Instr.isStraight] at this

/-- Straight instructions behind a chunk. -/
theorem Bound.concat {code : List Instr} (h : c.Bound level pos)
    (hcode : code.all Instr.isStraight = true) (hl : level' → level) :
    (c ++ .ofCode code).Bound level' pos :=
  h.append (.straight hcode : Bound True _ _) rfl fun h' => ⟨hl h', trivial⟩

/-- Straight instructions behind a chunk, one of which is no load: no branch leads to their end, nor
to what is left of them without loads. -/
theorem Bound.known {code : List Instr} {i : Instr} (h : c.Bound level pos)
    (hcode : code.all Instr.isStraight = true) (hi : i ∈ code) (hload : ∀ w, i ≠ .load w)
    (hl : level' → level) : (c ++ .ofCode code).Known level' e pos := by
  intro k condition t hk
  have hk' : c.code[k]? = some (.branch condition t) := by
    rcases getElem?_append_cases hk with hk' | ⟨k', rfl, hk'⟩
    · exact hk'
    · have := List.all_eq_true.mp hcode _ (List.mem_of_getElem? hk')
      simp [Instr.isStraight] at this
  obtain ⟨j, hj, hlo, hhi, heq⟩ := h k condition t hk'
  refine ⟨j, hj, hlo, ?_, fun hl' H hH => heq (hl hl') H hH.left, ?_⟩
  · rw [stop_append, stop_eq]
    omega
  intro front loads hsplit hloads hend
  rw [stop_eq] at hhi
  -- The loads would have to reach from the target over all of the code.
  have hsub : ∃ mid, loads = mid ++ code := by
    rw [code_append, code_ofCode] at hsplit
    rcases List.append_eq_append_iff.mp hsplit with ⟨a, ha, hb⟩ | ⟨a, ha, hb⟩
    · have : a = [] := by
        have := congrArg List.length ha
        simp only [List.length_append] at this
        exact List.length_eq_zero_iff.mp (by omega)
      subst this
      exact ⟨[], by simpa using hb.symm⟩
    · exact ⟨a, hb⟩
  obtain ⟨mid, rfl⟩ := hsub
  obtain ⟨w, rfl⟩ := hloads i (by simp [hi])
  exact absurd rfl (hload w)

/-- A load behind a chunk is the first that goes. -/
theorem Known.load {w : Width} (h : c.Known level e pos) (hl : level' → level) :
    (c ++ .ofCode [.load w]).Known level' (.deref e) pos := by
  intro k condition t hk
  have hk' : c.code[k]? = some (.branch condition t) := by
    rcases getElem?_append_cases hk with hk' | ⟨k', rfl, hk'⟩
    · exact hk'
    · have := List.mem_of_getElem? hk'
      simp at this
  obtain ⟨j, hj, hlo, hhi, heq, hends⟩ := h k condition t hk'
  refine ⟨j, hj, hlo, by rw [stop_concat]; omega, fun hl' H hH => heq (hl hl') H hH.left, ?_⟩
  intro front loads hcode hloads hend
  rcases List.eq_nil_or_concat loads with rfl | ⟨loads', last, rfl⟩
  · have hlen := congrArg List.length hcode
    simp only [code_append, code_ofCode, List.length_append, List.length_singleton,
      List.length_nil] at hlen
    rw [stop_eq] at hhi
    omega
  · simp only [code_append, code_ofCode, List.concat_eq_append, ← List.append_assoc] at hcode
    have hcode' := (List.append_inj' hcode rfl).1
    have hm := hends front loads' hcode' (fun i hi => hloads i (by simp [hi])) hend
    simpa [Expr.meets] using hm

/-- Where no branch leads to the end, the last load may be removed. -/
theorem Known.remove {front : List Instr} {w : Width} (h : c.Known level e pos)
    (hcode : c.code = front ++ [.load w]) (hmeets : e.meets 0 = false) :
    Known level (.addressOf e) pos { c with code := front } := by
  intro k condition t hk
  obtain ⟨hlt, -⟩ := List.getElem?_eq_some_iff.mp hk
  have hk' : c.code[k]? = some (.branch condition t) := by
    rw [hcode, List.getElem?_append_left hlt, hk]
  obtain ⟨j, hj, hlo, hhi, heq, hends⟩ := h k condition t hk'
  have hne : j ≠ pos + c.code.length := by
    intro hend
    have hm := hends c.code [] (by simp) (by simp) hend
    simp [hmeets] at hm
  simp only [stop_eq, hcode, List.length_append, List.length_singleton] at hhi hne hlt ⊢
  refine ⟨j, hj, hlo, by omega, fun hl H hH => ?_, fun front' loads hfront hloads hend => ?_⟩
  · -- The height behind the load is that before it.
    rw [hcode] at heq
    have := heq hl _ (hH.concat_load w)
    rwa [if_neg (by omega), if_neg (by omega)] at this
  · subst hfront
    have hm := hends front' (loads ++ [.load w]) (by rw [hcode, List.append_assoc]) ?_ hend
    · simpa [Expr.meets] using hm
    intro i hi
    rcases List.mem_append.mp hi with hi | hi
    · exact hloads i hi
    · exact ⟨w, by simpa using hi⟩

/-- Where no branch leads to the end, the last load may be made a push. -/
theorem Known.rewrite {w : Width} (h : c.Known level e pos)
    (hrew : c.rewriteLoad? = some (w, c')) (hl : level' → level ∧ e.meets 0 = false) :
    c'.Bound level' pos := by
  obtain ⟨front, hcode, rfl⟩ := rewriteLoad?_eq_some hrew
  intro k condition t hk
  have hk' : front[k]? = some (.branch condition t) := by
    rcases getElem?_append_cases hk with hk' | ⟨k', rfl, hk'⟩
    · exact hk'
    · have := List.mem_of_getElem? hk'
      simp at this
  obtain ⟨hlt, -⟩ := List.getElem?_eq_some_iff.mp hk'
  obtain ⟨j, hj, hlo, hhi, heq, hends⟩ :=
    h k condition t (by rw [hcode, List.getElem?_append_left hlt, hk'])
  simp only [stop_eq, hcode, List.length_append, List.length_singleton] at hhi ⊢
  refine ⟨j, hj, hlo, hhi, fun hlevel' H hH => ?_⟩
  obtain ⟨hlevel, hmeets⟩ := hl hlevel'
  have hne : j ≠ pos + (front.length + 1) := by
    intro hend
    have hm := hends c.code [] (by simp) (by simp) (by simpa [hcode] using hend)
    simp [hmeets] at hm
  rw [hcode] at heq
  have := heq hlevel _ (hH.left.concat_load w)
  rwa [if_neg (by omega), if_neg (by omega)] at this

/-- A branch between two chunks, to an index of the whole at which heights are those before it. -/
theorem Bound.branch {condition : Branch} {target : Nat} (h : c.Bound level pos)
    (h' : c'.Bound level' (c.stop pos + 1)) (hlo : pos ≤ target)
    (hhi : target ≤ c'.stop (c.stop pos + 1)) (hl : level'' → level ∧ level')
    (heq : level'' → ∀ H, Linear H pos c.code → H (c.stop pos + 1) = H (c.stop pos) →
      Linear H (c.stop pos + 1) c'.code → H target = H (c.stop pos)) :
    (c ++ .ofCode [.branch condition (UInt64.ofNat target)] ++ c').Bound level'' pos := by
  intro k condition' t hk
  have hstop : (c ++ .ofCode [.branch condition (UInt64.ofNat target)]).stop pos =
      c.stop pos + 1 := stop_concat ..
  rw [stop_append, hstop]
  rcases getElem?_append_cases hk with hk' | ⟨k', rfl, hk'⟩
  · rcases getElem?_append_cases hk' with hk₁ | ⟨k', rfl, hk₁⟩
    · obtain ⟨j, hj, hlo, hhi, hH⟩ := h k condition' t hk₁
      refine ⟨j, hj, hlo, ?_, fun hl'' H hlin => hH (hl hl'').1 H hlin.left.left⟩
      rw [stop_eq]
      omega
    · obtain ⟨rfl, hbranch⟩ := eq_of_getElem?_singleton hk₁
      cases hbranch
      refine ⟨target, rfl, hlo, hhi, fun hl'' H hlin => ?_⟩
      have hbr := (Linear.cons_iff.mp hlin.left.right).1
      simp only [Instr.effect, Int.add_zero] at hbr
      have hright := hlin.right
      rw [code_append, code_ofCode, List.length_append, List.length_singleton,
        ← Nat.add_assoc] at hright
      exact heq hl'' H hlin.left.left hbr hright
  · obtain ⟨j, hj, hlo', hhi', hH⟩ := h' k' condition' t hk'
    refine ⟨j, hj, ?_, hhi', fun hl'' H hlin => ?_⟩
    · rw [stop_eq] at hlo'
      omega
    · have hright := hlin.right
      rw [code_append, code_ofCode, List.length_append, List.length_singleton,
        ← Nat.add_assoc] at hright
      have := hH (hl hl'').2 H hright
      simpa [stop_eq, Nat.add_assoc] using this

/-- A chunk that leaves every height function where it was. -/
def Level (level : Prop) (pos : Nat) (c : Chunk) : Prop :=
  level → ∀ H, Linear H pos c.code → H (c.stop pos) = H pos

/-- Two chunks, one of which is gone over. -/
theorem Bound.arms {level₀ level₁ level₂ : Prop} {c₀ c₁ c₂ : Chunk} {second : Nat}
    (h₀ : c₀.Bound level₀ pos) (h₁ : c₁.Bound level₁ (c₀.stop pos + 1))
    (h₂ : c₂.Bound level₂ second) (hsecond : second = c₁.stop (c₀.stop pos + 1) + 1)
    (hlevel₁ : c₁.Level level₁ (c₀.stop pos + 1))
    (hlevel₂ : c₂.Level level₂ second) (hl : level → level₀ ∧ level₁ ∧ level₂) :
    (c₀ ++ .ofCode [.branch .ifZero (UInt64.ofNat second)] ++ c₁ ++
      .ofCode [.branch .always (UInt64.ofNat (c₂.stop second))] ++ c₂).Bound level pos := by
  have hinner : (c₁ ++ .ofCode [.branch .always (UInt64.ofNat (c₂.stop second))] ++ c₂).Bound
      (level₁ ∧ level₂) (c₀.stop pos + 1) := by
    subst hsecond
    refine h₁.branch h₂ ?_ (Nat.le_refl _) (fun h => h) ?_
    · simp only [stop_eq]
      omega
    · rintro ⟨-, hl₂⟩ H - hbr hlin
      rw [← hbr]
      exact hlevel₂ hl₂ H hlin
  have hwhole : (c₀ ++ .ofCode [.branch .ifZero (UInt64.ofNat second)] ++
      (c₁ ++ .ofCode [.branch .always (UInt64.ofNat (c₂.stop second))] ++ c₂)).Bound level pos := by
    refine h₀.branch hinner ?_ ?_ hl ?_
    · simp only [hsecond, stop_eq]
      omega
    · simp only [hsecond, stop_eq, code_append, code_ofCode, List.length_append,
        List.length_singleton]
      omega
    · intro hlevel H _ hbr hlin
      rw [← hbr, ← hlevel₁ (hl hlevel).2.1 H hlin.left.left, hsecond]
      have hjump := (Linear.cons_iff.mp hlin.left.right).1
      simp only [Instr.effect, Int.add_zero] at hjump
      exact hjump
  simpa only [← append_assoc] using hwhole

/-- A chunk that is gone through again and again. -/
theorem Bound.loop {c₀ c₁ : Chunk} {level₀ level₁ : Prop} (h₀ : c₀.Bound level₀ pos)
    (h₁ : c₁.Bound level₁ (c₀.stop pos + 1)) (hlevel₀ : c₀.Level level₀ pos)
    (hlevel₁ : c₁.Level level₁ (c₀.stop pos + 1)) (hl : level → level₀ ∧ level₁) :
    (c₀ ++ .ofCode [.branch .ifZero (UInt64.ofNat (c₁.stop (c₀.stop pos + 1) + 1))] ++ c₁ ++
      .ofCode [.branch .always (UInt64.ofNat pos)]).Bound level pos := by
  have hstop₀ : (c₀ ++ .ofCode [.branch .ifZero
      (UInt64.ofNat (c₁.stop (c₀.stop pos + 1) + 1))]).stop pos = c₀.stop pos + 1 := stop_concat ..
  intro k condition t hk
  rw [stop_concat, stop_append, hstop₀]
  -- The heights at the seams, wherever the branch stands.
  have hseams : level → ∀ H, Linear H pos (c₀ ++ .ofCode [.branch .ifZero
      (UInt64.ofNat (c₁.stop (c₀.stop pos + 1) + 1))] ++ c₁ ++
      .ofCode [.branch .always (UInt64.ofNat pos)]).code →
      Linear H (c₀.stop pos + 1) c₁.code ∧ H (c₀.stop pos) = H pos ∧
        H (c₁.stop (c₀.stop pos + 1)) = H pos ∧ H (c₁.stop (c₀.stop pos + 1) + 1) = H pos := by
    intro hlevel H hlin
    have hlin₁ : Linear H (c₀.stop pos + 1) c₁.code := by
      have := hlin.left.right
      rwa [code_append, code_ofCode, List.length_append, List.length_singleton,
        ← Nat.add_assoc] at this
    have hbr₀ := (Linear.cons_iff.mp hlin.left.left.right).1
    have hbr₁ := (Linear.cons_iff.mp hlin.right).1
    simp only [code_append, code_ofCode, List.length_append, List.length_singleton, Instr.effect,
      Int.add_zero] at hbr₀ hbr₁
    have heq₀ := hlevel₀ (hl hlevel).1 H hlin.left.left.left
    have heq₁ := hlevel₁ (hl hlevel).2 H hlin₁
    simp only [stop_eq, ← Nat.add_assoc] at hbr₀ hbr₁ heq₀ heq₁ ⊢
    exact ⟨by simpa only [stop_eq] using hlin₁, heq₀, by omega, by omega⟩
  rcases getElem?_append_cases hk with hk₁ | ⟨k', rfl, hk₁⟩
  · rcases getElem?_append_cases hk₁ with hk₂ | ⟨k', rfl, hk₂⟩
    · rcases getElem?_append_cases hk₂ with hk₃ | ⟨k', rfl, hk₃⟩
      · obtain ⟨j, hj, hlo, hhi, heq⟩ := h₀ k condition t hk₃
        refine ⟨j, hj, hlo, ?_, fun hlevel H hlin => heq (hl hlevel).1 H hlin.left.left.left⟩
        simp only [stop_eq] at hhi ⊢
        omega
      · obtain ⟨rfl, hbranch⟩ := eq_of_getElem?_singleton hk₃
        cases hbranch
        refine ⟨_, rfl, by simp only [stop_eq]; omega, Nat.le_refl _, fun hlevel H hlin => ?_⟩
        obtain ⟨-, h₁, -, h₂⟩ := hseams hlevel H hlin
        exact h₂.trans h₁.symm
    · obtain ⟨j, hj, hlo, hhi, heq⟩ := h₁ k' condition t hk₂
      refine ⟨j, hj, ?_, by omega, fun hlevel H hlin => ?_⟩
      · rw [stop_eq] at hlo
        omega
      · have := heq (hl hlevel).2 H (hseams hlevel H hlin).1
        simpa [stop_eq, Nat.add_assoc] using this
  · obtain ⟨rfl, hbranch⟩ := eq_of_getElem?_singleton hk₁
    cases hbranch
    refine ⟨pos, rfl, Nat.le_refl _, by simp only [stop_eq]; omega, fun hlevel H hlin => ?_⟩
    obtain ⟨-, -, h₁, -⟩ := hseams hlevel H hlin
    simpa [stop_eq, Nat.add_assoc, Nat.add_comm 1] using h₁.symm

theorem Bound.known_of_meets (h : c.Bound level pos) (he : ∀ n, e.meets n = true) :
    c.Known level e pos := by
  intro k condition t hk
  obtain ⟨j, hj, hlo, hhi, heq⟩ := h k condition t hk
  exact ⟨j, hj, hlo, hhi, heq, fun _ loads _ _ _ => he loads.length⟩

theorem Bound.joinAt (h : c.Bound level pos) (join : Nat) : (c ++ .joinAt join).Bound level pos :=
  h.append (.straight rfl : Bound True _ _) rfl fun hl => ⟨hl, trivial⟩

end Chunk

/-! ## Expressions -/

/-- The lvalues of an expression are plain and its code has no more pushes than a word can count. -/
abbrev Expr.Even (e : Expr) (c : Chunk) : Prop :=
  e.every plainTarget = true ∧ pushes c.code < 2 ^ 63

namespace Expr

variable {cx : Context}

theorem binary_mem_binaryCode (op : BinOp) (l r : CType) :
    .binary op ∈ (binaryCode op l r).2 := by
  cases op
  case add => simp [binaryCode, Compile.addOffset]
  case sub =>
    rw [binaryCode]
    split <;> simp [Compile.addOffset]
  all_goals simp [binaryCode]

theorem generate_stop {e : Expr} {pos size : Nat} {t : CType} {c : Chunk} {H : Nat → Int}
    (h : e.generate cx pos size = some (t, c)) (hp : pushes c.code < 2 ^ 63)
    (hH : Linear H pos c.code) : H (c.stop pos) = H pos := by
  have := hH.stop_eq (generate_rises h hp (Int.le_refl 0))
  rw [Chunk.stop_eq, this]
  omega

theorem generate_level {e : Expr} {pos size : Nat} {t : CType} {c : Chunk}
    (h : e.generate cx pos size = some (t, c)) : c.Level (e.Even c) pos :=
  fun heven _ hH => generate_stop h heven.2 hH

/-- An operand is even where the whole is, if its code has no more pushes. -/
theorem Even.operand {whole e : Expr} {c c' : Chunk} (h : whole.Even c) (he : e ∈ whole.operands)
    (hle : pushes c'.code ≤ pushes c.code) : e.Even c' :=
  ⟨every_operand h.1 he, Nat.lt_of_le_of_lt hle h.2⟩

theorem Even.self {e : Expr} {c : Chunk} (h : e.Even c) : e.plainTarget = true :=
  every_self h.1

theorem generateArgs_bound {args : List Expr} {pos size : Nat} {c : Chunk}
    (he : ∀ e ∈ args, ∀ {pos size t c}, e.generate cx pos size = some (t, c) →
      e.every plainAddress = true → c.Known (e.Even c) e pos)
    (hp : ∀ e ∈ args, e.every plainAddress = true) (h : generateArgs cx pos size args = some c) :
    c.Bound ((∀ e ∈ args, e.every plainTarget = true) ∧ pushes c.code < 2 ^ 63) pos := by
  refine generateArgs_induction (motive := fun args pos _ c => c.Bound
    ((∀ e ∈ args, e.every plainTarget = true) ∧ pushes c.code < 2 ^ 63) pos)
    (fun _ _ => .straight rfl) ?_ h
  intro e hmem rest pos size t c c' h hrest
  refine ((he e hmem h (hp e hmem)).bound.concat rfl fun h => h).append hrest
    (Chunk.stop_concat ..) ?_
  rintro ⟨hl, hb⟩
  rw [List.forall_mem_cons] at hl
  simp only [Chunk.code_append, pushes_append] at hb
  exact ⟨⟨hl.1, by omega⟩, hl.2, by omega⟩

/-- Every branch of an expression is known. The induction is on how its code came about. -/
theorem generate_known {e : Expr} {pos size : Nat} {t : CType} {c : Chunk}
    (hp : e.every plainAddress = true) (h : e.generate cx pos size = some (t, c)) :
    c.Known (e.Even c) e pos := by
  replace h := generated h
  induction h with
  | number _ | negative _ | sizeOf _ | text _ => exact .straight rfl
  | name hcode => exact .straight (isStraight_nameCode? hcode)
  | call args hargs _ hi ih =>
    have hargs' := generateArgs_bound ih (fun e he => every_operand hp he) hargs
    refine hargs'.known ?_ (by simp) (callInstr?_ne_load hi) fun heven => ⟨fun e he => ?_, ?_⟩
    · simp [isStraight_callInstr? hi, isStraight_dropArguments, -List.all_eq_true]
    · exact every_operand heven.1 he
    · have hb := heven.2
      simp only [Chunk.code_append, pushes_append] at hb
      omega
  | cast _ _ ih | paren _ ih | plus _ ih =>
    simp only [every, Bool.and_eq_true] at hp
    refine (ih hp.2).imp (fun heven => ?_) fun _ => id
    exact heven.operand (by simp [operands]) (Nat.le_refl _)
  | deref _ _ ih =>
    simp only [every, Bool.and_eq_true] at hp
    refine (ih hp.2).load fun heven => ?_
    exact heven.operand (by simp [operands]) (by simp)
  | addressOf _ hrem ih =>
    simp only [every, plainAddress, Bool.and_eq_true, Bool.not_eq_true'] at hp
    have hle := Chunk.pushes_removeLoad? hrem
    obtain ⟨front, w, hcode, rfl⟩ := Chunk.removeLoad?_eq_some hrem
    refine ((ih hp.2).remove hcode hp.1).imp (fun heven => ?_) fun _ => id
    exact heven.operand (by simp [operands]) hle.ge
  | withConstant _ _ _ ih =>
    simp only [every, Bool.and_eq_true] at hp
    refine (ih hp.2).bound.known (i := .push) rfl (by simp) (by simp) fun heven => ?_
    exact heven.operand (by simp [operands]) (by simp)
  | negate _ ih =>
    simp only [every, Bool.and_eq_true] at hp
    have hfront {pos : Nat} : Chunk.Bound True pos (.ofCode [.imm (-1), .push]) := .straight rfl
    refine (hfront.append (ih hp.2).bound rfl fun heven => ⟨trivial, heven⟩).known
      (i := .binary .mul) rfl (by simp) (by simp) fun heven => ?_
    refine heven.operand (by simp [operands]) ?_
    simp only [Chunk.code_append, pushes_append]
    omega
  | preStep _ _ hrew ih | postStep _ _ _ hrew ih =>
    simp only [every, Bool.and_eq_true] at hp
    have hle := Chunk.pushes_rewriteLoad? hrew
    refine ((ih hp.2).rewrite hrew fun h => h).known (i := .push) rfl (by simp [Compile.stepBy])
      (by simp) fun heven => ⟨?_, by simpa [plainTarget] using heven.self⟩
    refine heven.operand (by simp [operands]) ?_
    simp only [Chunk.code_append, pushes_append]
    omega
  | assign _ hrew _ ih ih₁ =>
    simp only [every, Bool.and_eq_true] at hp
    have hle := Chunk.pushes_rewriteLoad? hrew
    refine (((ih hp.2.1).rewrite hrew fun h => h).append (ih₁ hp.2.2).bound rfl fun h => h).known
      rfl (List.mem_singleton_self _) (by simp)
      fun heven => ⟨⟨?_, by simpa [plainTarget] using heven.self⟩, ?_⟩
    all_goals
      refine heven.operand (by simp [operands]) ?_
      simp only [Chunk.code_append, pushes_append]
      omega
  | cond _ h₁ hsecond h₂ ih ih₁ ih₂ =>
    simp only [every, Bool.and_eq_true] at hp
    have hwhole := (ih hp.2.1).bound.arms (ih₁ hp.2.2.1).bound (ih₂ hp.2.2.2).bound hsecond
      (generate_level h₁.generate_eq) (generate_level h₂.generate_eq) fun h => h
    refine ((hwhole.joinAt _).known_of_meets (e := .cond _ _ _) fun _ => rfl).imp
      (fun heven => ⟨?_, ?_, ?_⟩) fun _ => id
    all_goals
      refine heven.operand (by simp [operands]) ?_
      simp only [Chunk.code_append, pushes_append]
      omega
  | shortCircuit condition _ h₁ ih ih₁ =>
    simp only [every, Bool.and_eq_true] at hp
    refine ((Chunk.Bound.joinAt ((ih hp.2.1).bound.branch (ih₁ hp.2.2).bound ?_ (Nat.le_refl _)
      (fun h => h) ?_) _).known_of_meets (e := .shortCircuit condition _ _) fun _ => rfl).imp
      (fun heven => ⟨?_, ?_⟩) fun _ => id
    · simp only [Chunk.stop_eq]
      omega
    · rintro ⟨-, hr⟩ H - hbr hlin
      rw [← hbr]
      exact generate_stop h₁.generate_eq hr.2 hlin
    all_goals
      refine heven.operand (by simp [operands]) ?_
      simp only [Chunk.code_append, pushes_append]
      omega
  | binary op t t₁ _ _ ih ih₁ =>
    simp only [every, Bool.and_eq_true] at hp
    refine (((ih hp.2.1).bound.concat rfl fun h => h).append (ih₁ hp.2.2).bound
      (Chunk.stop_concat ..) fun h => h).known (isStraight_binaryCode op t t₁)
      (binary_mem_binaryCode op t t₁) (by simp) fun heven => ⟨?_, ?_⟩
    all_goals
      refine heven.operand (by simp [operands]) ?_
      simp only [Chunk.code_append, pushes_append]
      omega
  | index t _ _ _ ih ih₁ =>
    simp only [every, Bool.and_eq_true] at hp
    refine (((ih hp.2.1).bound.concat rfl fun h => h).append (ih₁ hp.2.2).bound
      (Chunk.stop_concat ..) fun h => h).known (i := .binary .add)
      (by simp [isStraight_addOffset, Instr.isStraight, -List.all_eq_true])
      (by simp [Compile.addOffset]) (by simp) fun heven => ⟨?_, ?_⟩
    all_goals
      refine heven.operand (by simp [operands]) ?_
      simp only [Chunk.code_append, pushes_append]
      omega

end Expr

/-! ## Statements -/

/-- The lvalues of a statement are plain and its code has no more pushes than a word can count. -/
abbrev Stmt.Even (s : Stmt) (c : Chunk) : Prop :=
  s.every Expr.plainTarget = true ∧ pushes c.code < 2 ^ 63

namespace Stmt

variable {cx : Context}

theorem generate_stop {s : Stmt} {pos size : Nat} {c : Chunk} {H : Nat → Int}
    (h : s.generate cx pos size = some c) (hp : pushes c.code < 2 ^ 63)
    (hH : Linear H pos c.code) : H (c.stop pos) = H pos := by
  have := hH.stop_eq (generate_rises (Int.le_refl 0) h hp)
  rw [Chunk.stop_eq, this]
  omega

theorem generate_level {s : Stmt} {pos size : Nat} {c : Chunk}
    (h : s.generate cx pos size = some c) : c.Level (s.Even c) pos :=
  fun heven _ hH => generate_stop h heven.2 hH

/-- The expression that a statement begins with. -/
theorem Bound.startAt {level : Prop} {pos : Nat} {c : Chunk} (h : c.Bound level pos) :
    (Chunk.startAt pos ++ c).Bound level pos :=
  (.straight rfl : Chunk.Bound True _ _).append h rfl fun hl => ⟨trivial, hl⟩

mutual

theorem generate_bound {pos size : Nat} {c : Chunk} :
    ∀ {s : Stmt}, s.every Expr.plainAddress = true → s.generate cx pos size = some c →
      c.Bound (s.Even c) pos
  | .expr e, hp, h => by
    obtain ⟨t, c', h', rfl⟩ := generate_expr h
    exact Bound.startAt (Expr.generate_known hp h').bound
  | .ifThen test yes, hp, h => by
    simp only [every, Bool.and_eq_true] at hp
    obtain ⟨t, c₀, c₁, h₀, h₁, rfl⟩ := generate_ifThen h
    refine (Bound.startAt (Expr.generate_known hp.1 h₀).bound).branch (generate_bound hp.2 h₁)
      ?_ (Nat.le_refl _) ?_ ?_
    · simp only [Chunk.stop_eq]
      omega
    · rintro ⟨hl, hb⟩
      simp only [every, Bool.and_eq_true] at hl
      simp only [Chunk.code_append, pushes_append] at hb
      exact ⟨⟨hl.1, by omega⟩, hl.2, by omega⟩
    · rintro ⟨hl, hb⟩ H _ hbr hlin
      simp only [Chunk.code_append, pushes_append] at hb
      rw [← hbr]
      exact generate_stop h₁ (by omega) hlin
  | .ifElse test yes no, hp, h => by
    simp only [every, Bool.and_eq_true] at hp
    obtain ⟨t, c₀, c₁, second, c₂, h₀, h₁, hsecond, h₂, rfl⟩ := generate_ifElse h
    refine (Bound.startAt (Expr.generate_known hp.1 h₀).bound).arms (generate_bound hp.2.1 h₁)
      (generate_bound hp.2.2 h₂) hsecond (generate_level h₁) (generate_level h₂) ?_
    rintro ⟨hl, hb⟩
    simp only [every, Bool.and_eq_true] at hl
    simp only [Chunk.code_append, pushes_append] at hb
    exact ⟨⟨hl.1, by omega⟩, ⟨hl.2.1, by omega⟩, hl.2.2, by omega⟩
  | .whileLoop test body, hp, h => by
    simp only [every, Bool.and_eq_true] at hp
    obtain ⟨t, c₀, c₁, h₀, h₁, rfl⟩ := generate_whileLoop h
    refine (Bound.startAt (Expr.generate_known hp.1 h₀).bound).loop (generate_bound hp.2 h₁)
      (Expr.generate_level h₀) (generate_level h₁) ?_
    rintro ⟨hl, hb⟩
    simp only [every, Bool.and_eq_true] at hl
    simp only [Chunk.code_append, pushes_append] at hb
    exact ⟨⟨hl.1, by omega⟩, hl.2, by omega⟩
  | .ret none, _, h => by
    simp only [generate, Option.some.injEq] at h
    subst h
    exact .straight rfl
  | .ret (some e), hp, h => by
    obtain ⟨t, c', h', rfl⟩ := generate_ret_some h
    refine (Bound.startAt (Expr.generate_known hp h').bound).concat rfl ?_
    rintro ⟨hl, hb⟩
    simp only [Chunk.code_append, pushes_append] at hb
    exact ⟨hl, by omega⟩
  | .block body, hp, h => by
    obtain ⟨c', h', rfl⟩ := generate_block h
    exact Bound.startAt (generateAll_bound hp h')
  | .empty, _, h => by
    simp only [generate, Option.some.injEq] at h
    subst h
    exact .straight rfl

theorem generateAll_bound {pos size : Nat} {c : Chunk} :
    ∀ {body : List Stmt}, everyIn Expr.plainAddress body = true →
      generateAll cx pos size body = some c →
      c.Bound (everyIn Expr.plainTarget body = true ∧ pushes c.code < 2 ^ 63) pos
  | [], _, h => by
    simp only [generateAll, Option.some.injEq] at h
    subst h
    exact .straight rfl
  | s :: rest, hp, h => by
    simp only [everyIn, Bool.and_eq_true] at hp
    obtain ⟨c₁, c₂, h₁, h₂, rfl⟩ := generateAll_cons h
    refine (generate_bound hp.1 h₁).append (generateAll_bound hp.2 h₂) rfl ?_
    rintro ⟨hl, hb⟩
    simp only [everyIn, Bool.and_eq_true] at hl
    simp only [Chunk.code_append, pushes_append] at hb
    exact ⟨⟨hl.1, by omega⟩, hl.2, by omega⟩

end

end Stmt

end MiniC.Syntax
