import MiniC.Proofs.Compiling.Declarations
import MiniC.Proofs.Code.Targets

/-!
# Function bodies in the code

A branch is followed through the construction of the code. Inside an expression it leads to a join
or to an instruction that no `&` can remove, because what stands from there on begins with something
else than a load (`Assembled.proper`). Inside a statement it may also lead right behind the
statement (`Stmt.generate_confined`).

Nothing that is generated for statements contains an `ENT`, so the bodies of functions can be read
off the code: a body reaches up to the next `ENT` or to the end of the code (`Laid.bodyStop_eq`).
-/

namespace MiniC

/-- The index behind the function body that begins at `start`: that of the next `ENT`, or the end of
the code. -/
def bodyStop (code : List Instr) (start : Nat) : Nat :=
  start + 1 + ((code.drop (start + 1)).takeWhile (!·.isEnter)).length

namespace Syntax

/-! ## How the code of an expression is put together -/

/-- A chunk at `pos` that is made of straight instructions and of branches that meet at joins, with
loads removed from the ends of its parts. -/
inductive Assembled : Nat → Chunk → Prop
  | straight {pos : Nat} {c : Chunk} (hcode : c.code.all Instr.isStraight = true)
      (hjoins : c.joins = []) (hstarts : c.starts = []) : Assembled pos c
  | append {pos : Nat} {c c' : Chunk} (h : Assembled pos c) (h' : Assembled (c.stop pos) c') :
      Assembled pos (c ++ c')
  | remove {pos : Nat} {c : Chunk} {front : List Instr} {w : Width} (h : Assembled pos c)
      (hcode : c.code = front ++ [.load w]) : Assembled pos { c with code := front }
  | shortCircuit {pos join : Nat} {condition : Branch} {c c' : Chunk} (h : Assembled pos c)
      (h' : Assembled (c.stop pos + 1) c') (hjoin : join = c'.stop (c.stop pos + 1)) :
      Assembled pos
        (c ++ .ofCode [.branch condition (UInt64.ofNat join)] ++ c' ++ .joinAt join)
  | cond {pos second : Nat} {c c₁ c₂ : Chunk} (h : Assembled pos c)
      (h₁ : Assembled (c.stop pos + 1) c₁) (h₂ : Assembled second c₂)
      (hsecond : second = c₁.stop (c.stop pos + 1) + 1) (hopens : Opens c₂.code) :
      Assembled pos (c ++ .ofCode [.branch .ifZero (UInt64.ofNat second)] ++ c₁ ++
        .ofCode [.branch .always (UInt64.ofNat (c₂.stop second))] ++ c₂ ++
        .joinAt (c₂.stop second))

namespace Assembled

variable {pos : Nat} {c : Chunk} {code : List Instr}

theorem ofCode (h : code.all Instr.isStraight = true) : Assembled pos (.ofCode code) :=
  .straight h rfl rfl

/-- Straight instructions behind a chunk. -/
theorem concat (h : Assembled pos c) (hcode : code.all Instr.isStraight = true) :
    Assembled pos (c ++ .ofCode code) :=
  h.append (.ofCode hcode)

theorem rewrite {c' : Chunk} {w : Width} (h : Assembled pos c)
    (hrew : c.rewriteLoad? = some (w, c')) : Assembled pos c' := by
  obtain ⟨front, hcode, rfl⟩ := Chunk.rewriteLoad?_eq_some hrew
  have h' := (h.remove hcode).concat (show [Instr.push].all Instr.isStraight = true from rfl)
  have heq : ({ c with code := front } : Chunk) ++ .ofCode [.push] =
      { c with code := front ++ [.push] } := by
    ext1 <;> simp
  rwa [heq] at h'

end Assembled

theorem Expr.generateArgs_assembled {cx : Context} {args : List Expr} {pos size : Nat} {c : Chunk}
    (he : ∀ e ∈ args, ∀ {pos size t c}, e.generate cx pos size = some (t, c) → Assembled pos c)
    (h : generateArgs cx pos size args = some c) : Assembled pos c := by
  refine generateArgs_induction (motive := fun _ pos _ c => Assembled pos c)
    (fun _ _ => .ofCode rfl) ?_ h
  intro e hmem rest pos size t c c' h hrest
  rw [← Chunk.stop_concat c pos .push] at hrest
  exact ((he e hmem h).concat rfl).append hrest

/-- A binary operator: the left operand is pushed, and straight instructions stand behind both. -/
theorem Assembled.binary {pos : Nat} {c c' : Chunk} {code : List Instr} (h : Assembled pos c)
    (h' : Assembled (c.stop pos + 1) c') (hcode : code.all Instr.isStraight = true) :
    Assembled pos (c ++ .ofCode [.push] ++ c' ++ .ofCode code) := by
  rw [← Chunk.stop_concat c pos .push] at h'
  exact ((h.concat rfl).append h').concat hcode

theorem Expr.generate_assembled {cx : Context} {e : Expr} {pos size : Nat} {t : CType} {c : Chunk}
    (h : e.generate cx pos size = some (t, c)) : Assembled pos c := by
  replace h := generated h
  induction h with
  | number _ | negative _ | sizeOf _ | text _ => exact .straight rfl rfl rfl
  | name hcode => exact .ofCode (isStraight_nameCode? hcode)
  | call args hargs _ hi ih =>
    refine (generateArgs_assembled ih hargs).concat ?_
    simp [isStraight_callInstr? hi, isStraight_dropArguments, -List.all_eq_true]
  | cast _ _ ih | paren _ ih | plus _ ih => exact ih
  | deref _ _ ih | withConstant _ _ _ ih => exact ih.concat rfl
  | addressOf _ hrem ih =>
    obtain ⟨front, w, hcode, rfl⟩ := Chunk.removeLoad?_eq_some hrem
    exact ih.remove hcode
  | negate _ ih =>
    have hfront {pos : Nat} : Assembled pos (.ofCode [.imm (-1), .push]) := .ofCode rfl
    exact (hfront.append ih).concat rfl
  | preStep _ _ hrew ih | postStep _ _ _ hrew ih => exact (ih.rewrite hrew).concat rfl
  | assign _ hrew _ ih ih₁ => exact ((ih.rewrite hrew).append ih₁).concat rfl
  | cond _ _ hsecond h₂ ih ih₁ ih₂ =>
    exact .cond ih ih₁ ih₂ hsecond (generate_opens h₂.generate_eq)
  | shortCircuit _ _ _ ih ih₁ => exact .shortCircuit ih ih₁ rfl
  | binary op t t₁ _ _ ih ih₁ => exact ih.binary ih₁ (isStraight_binaryCode op t t₁)
  | index _ _ _ _ ih ih₁ =>
    refine ih.binary ih₁ ?_
    simp [isStraight_addOffset, Instr.isStraight, -List.all_eq_true]

/-- No statement begins inside an expression. -/
theorem Assembled.starts_eq_nil {pos : Nat} {c : Chunk} (h : Assembled pos c) : c.starts = [] := by
  induction h with
  | straight _ _ hstarts => exact hstarts
  | append _ _ ih ih' => simp [ih, ih']
  | remove _ _ ih => exact ih
  | shortCircuit _ _ _ ih ih' => simp [ih, ih']
  | cond _ _ _ _ _ ih ih₁ ih₂ => simp [ih, ih₁, ih₂]

/-! ## Landing -/

/-- A branch inside a chunk at `pos` leads to a join or to an index of the chunk behind which the
code is as `ok` says. -/
def Chunk.Lands (ok : List Instr → Prop) (pos : Nat) (c : Chunk) (t : UInt64) : Prop :=
  t ∈ c.joins ∨ ∃ k, t = UInt64.ofNat (pos + k) ∧ k ≤ c.code.length ∧ ok (c.code.drop k)

/-- The code contains no `ENT`, its branches land, and some branch leads to each join. -/
structure Chunk.Proper (ok : List Instr → Prop) (pos : Nat) (c : Chunk) : Prop where
  no_enter : ∀ i ∈ c.code, i.isEnter = false
  lands : ∀ condition t, .branch condition t ∈ c.code → c.Lands ok pos t
  joins_mem : ∀ j ∈ c.joins, ∃ condition, .branch condition j ∈ c.code

namespace Chunk

variable {ok : List Instr → Prop} {pos : Nat} {c c' : Chunk} {t : UInt64}

theorem Lands.left (hok : ∀ a b, ok a → ok (a ++ b)) (h : c.Lands ok pos t) :
    (c ++ c').Lands ok pos t := by
  rcases h with hj | ⟨k, ht, hk, hcode⟩
  · exact .inl (by simp [hj])
  · refine .inr ⟨k, ht, by simp; omega, ?_⟩
    rw [code_append, List.drop_append_of_le_length hk]
    exact hok _ _ hcode

theorem Lands.right {pos' : Nat} (h : c'.Lands ok pos' t) (hstop : c.stop pos = pos') :
    (c ++ c').Lands ok pos t := by
  subst hstop
  rcases h with hj | ⟨k, ht, hk, hcode⟩
  · exact .inl (by simp [hj])
  · refine .inr ⟨c.code.length + k, ?_, by simp; omega, ?_⟩
    · rw [ht, stop_eq, Nat.add_assoc]
    · rwa [code_append, List.drop_length_add_append]

/-- Removing a load leaves every instruction that stands at the head of other code. -/
theorem Lands.remove {front : List Instr} {w : Width} (h : c.Lands Opens pos t)
    (hcode : c.code = front ++ [.load w]) : Lands Opens pos { c with code := front } t := by
  rcases h with hj | ⟨k, ht, hk, hopens⟩
  · exact .inl hj
  · have hlt : k ≤ front.length := by
      have hne := hopens.ne_nil
      rw [hcode] at hne hk
      simp only [List.length_append, List.length_singleton, ne_eq, List.drop_eq_nil_iff] at hne hk
      omega
    rw [hcode, List.drop_append_of_le_length hlt] at hopens
    exact .inr ⟨k, ht, hlt, hopens.of_load⟩

theorem Proper.append (hok : ∀ a b, ok a → ok (a ++ b)) (h : c.Proper ok pos)
    (h' : c'.Proper ok (c.stop pos)) : (c ++ c').Proper ok pos where
  no_enter i hi := by
    rcases List.mem_append.mp hi with hi | hi
    · exact h.no_enter i hi
    · exact h'.no_enter i hi
  lands condition t ht := by
    rcases List.mem_append.mp ht with ht | ht
    · exact (h.lands condition t ht).left hok
    · exact (h'.lands condition t ht).right rfl
  joins_mem j hj := by
    rcases List.mem_append.mp hj with hj | hj
    · obtain ⟨condition, hmem⟩ := h.joins_mem j hj
      exact ⟨condition, List.mem_append_left _ hmem⟩
    · obtain ⟨condition, hmem⟩ := h'.joins_mem j hj
      exact ⟨condition, List.mem_append_right _ hmem⟩

theorem Proper.straight (hcode : c.code.all Instr.isStraight = true) (hjoins : c.joins = []) :
    c.Proper ok pos where
  no_enter i hi := by
    have := List.all_eq_true.mp hcode i hi
    cases i <;> simp_all [Instr.isStraight, Instr.isEnter]
  lands condition t ht := by
    have := List.all_eq_true.mp hcode _ ht
    simp [Instr.isStraight] at this
  joins_mem j hj := by simp [hjoins] at hj

end Chunk

theorem Assembled.proper {pos : Nat} {c : Chunk} (h : Assembled pos c) : c.Proper Opens pos := by
  have hok : ∀ a b, Opens a → Opens (a ++ b) := fun _ _ h => h.append
  induction h with
  | straight hcode hjoins _ => exact .straight hcode hjoins
  | append _ _ ih ih' => exact ih.append hok ih'
  | @remove pos c front w _ hcode ih =>
    refine ⟨fun i hi => ih.no_enter i (by simp [hcode, hi]), fun condition t ht => ?_, ?_⟩
    · exact (ih.lands condition t (by simp [hcode, ht])).remove hcode
    · intro j hj
      obtain ⟨condition, hmem⟩ := ih.joins_mem j hj
      rw [hcode] at hmem
      exact ⟨condition, by simpa using hmem⟩
  | @shortCircuit pos join condition c c' _ _ hjoin ih ih' =>
    refine ⟨?_, ?_, ?_⟩
    · intro i hi
      simp only [Chunk.code_append, Chunk.code_ofCode, Chunk.code_joinAt, List.append_nil,
        List.mem_append, List.mem_singleton] at hi
      rcases hi with (hi | rfl) | hi
      · exact ih.no_enter i hi
      · rfl
      · exact ih'.no_enter i hi
    · intro condition' t ht
      simp only [Chunk.code_append, Chunk.code_ofCode, Chunk.code_joinAt, List.append_nil,
        List.mem_append, List.mem_singleton, Instr.branch.injEq] at ht
      rcases ht with (ht | ⟨-, rfl⟩) | ht
      · exact (((ih.lands condition' t ht).left hok).left hok).left hok
      · exact .inl (by simp)
      · exact ((ih'.lands condition' t ht).right (Chunk.stop_concat ..)).left hok
    · intro j hj
      simp only [Chunk.joins_append, Chunk.joins_ofCode, Chunk.joins_joinAt, List.append_nil,
        List.mem_append, List.mem_singleton] at hj
      rcases hj with (hj | hj) | rfl
      · obtain ⟨condition', hmem⟩ := ih.joins_mem j hj
        exact ⟨condition', by simp [hmem]⟩
      · obtain ⟨condition', hmem⟩ := ih'.joins_mem j hj
        exact ⟨condition', by simp [hmem]⟩
      · exact ⟨condition, by simp⟩
  | @cond pos second c c₁ c₂ _ _ _ hsecond hopens ih ih₁ ih₂ =>
    have hstop : (c ++ .ofCode [.branch .ifZero (UInt64.ofNat second)] ++ c₁ ++
        .ofCode [.branch .always (UInt64.ofNat (c₂.stop second))]).stop pos = second := by
      rw [Chunk.stop_concat, Chunk.stop_append, Chunk.stop_concat, hsecond]
    refine ⟨?_, ?_, ?_⟩
    · intro i hi
      simp only [Chunk.code_append, Chunk.code_ofCode, Chunk.code_joinAt, List.append_nil,
        List.mem_append, List.mem_singleton] at hi
      rcases hi with (((hi | rfl) | hi) | rfl) | hi
      · exact ih.no_enter i hi
      · rfl
      · exact ih₁.no_enter i hi
      · rfl
      · exact ih₂.no_enter i hi
    · intro condition' t ht
      simp only [Chunk.code_append, Chunk.code_ofCode, Chunk.code_joinAt, List.append_nil,
        List.mem_append, List.mem_singleton, Instr.branch.injEq] at ht
      rcases ht with (((ht | ⟨-, rfl⟩) | ht) | ⟨-, rfl⟩) | ht
      · exact (((((ih.lands condition' t ht).left hok).left hok).left hok).left hok).left hok
      · have hlands : c₂.Lands Opens second (UInt64.ofNat second) :=
          .inr ⟨0, rfl, Nat.zero_le _, hopens⟩
        exact (hlands.right hstop).left hok
      · exact ((((ih₁.lands condition' t ht).right (Chunk.stop_concat ..)).left hok).left hok).left
          hok
      · exact .inl (by simp)
      · exact ((ih₂.lands condition' t ht).right hstop).left hok
    · intro j hj
      simp only [Chunk.joins_append, Chunk.joins_ofCode, Chunk.joins_joinAt, List.append_nil,
        List.mem_append, List.mem_singleton] at hj
      rcases hj with ((hj | hj) | hj) | rfl
      · obtain ⟨condition', hmem⟩ := ih.joins_mem j hj
        exact ⟨condition', by simp [hmem]⟩
      · obtain ⟨condition', hmem⟩ := ih₁.joins_mem j hj
        exact ⟨condition', by simp [hmem]⟩
      · obtain ⟨condition', hmem⟩ := ih₂.joins_mem j hj
        exact ⟨condition', by simp [hmem]⟩
      · exact ⟨.always, by simp⟩

/-- The code contains no `ENT`, its branches lead to joins or to indices between two bounds, and
some branch leads to each join. -/
structure Chunk.Confined (lo hi : Nat) (c : Chunk) : Prop where
  no_enter : ∀ i ∈ c.code, i.isEnter = false
  lands : ∀ condition t, .branch condition t ∈ c.code →
    t ∈ c.joins ∨ ∃ j, t = UInt64.ofNat j ∧ lo ≤ j ∧ j ≤ hi
  joins_mem : ∀ j ∈ c.joins, ∃ condition, .branch condition j ∈ c.code

namespace Chunk.Confined

variable {lo hi lo' hi' target : Nat} {c c' : Chunk} {condition : Branch}

theorem mono (h : c.Confined lo hi) (hlo : lo' ≤ lo) (hhi : hi ≤ hi') : c.Confined lo' hi' where
  no_enter := h.no_enter
  lands condition t ht := by
    rcases h.lands condition t ht with hj | ⟨j, hj, hlo', hhi'⟩
    · exact .inl hj
    · exact .inr ⟨j, hj, by omega, by omega⟩
  joins_mem := h.joins_mem

theorem append (h : c.Confined lo hi) (h' : c'.Confined lo hi) : (c ++ c').Confined lo hi where
  no_enter i hi := by
    rcases List.mem_append.mp hi with hi | hi
    · exact h.no_enter i hi
    · exact h'.no_enter i hi
  lands condition t ht := by
    rcases List.mem_append.mp ht with ht | ht
    · exact (h.lands condition t ht).imp_left fun hj => by simp [hj]
    · exact (h'.lands condition t ht).imp_left fun hj => by simp [hj]
  joins_mem j hj := by
    rcases List.mem_append.mp hj with hj | hj
    · obtain ⟨condition, hmem⟩ := h.joins_mem j hj
      exact ⟨condition, by simp [hmem]⟩
    · obtain ⟨condition, hmem⟩ := h'.joins_mem j hj
      exact ⟨condition, by simp [hmem]⟩

theorem branch (hlo : lo ≤ target) (hhi : target ≤ hi) :
    (Chunk.ofCode [.branch condition (UInt64.ofNat target)]).Confined lo hi where
  no_enter i hi := by
    simp only [code_ofCode, List.mem_singleton] at hi
    subst hi
    rfl
  lands condition' t ht := by
    simp only [code_ofCode, List.mem_singleton, Instr.branch.injEq] at ht
    exact .inr ⟨target, ht.2, hlo, hhi⟩
  joins_mem j hj := by simp at hj

theorem of_straight (hcode : c.code.all Instr.isStraight = true) (hjoins : c.joins = []) :
    c.Confined lo hi where
  no_enter i hi := by
    have := List.all_eq_true.mp hcode i hi
    cases i <;> simp_all [Instr.isStraight, Instr.isEnter]
  lands condition t ht := by
    have := List.all_eq_true.mp hcode _ ht
    simp [Instr.isStraight] at this
  joins_mem j hj := by simp [hjoins] at hj

end Chunk.Confined

theorem Expr.generate_confined {cx : Context} {pos size : Nat} {e : Expr} {t : CType} {c : Chunk}
    (h : e.generate cx pos size = some (t, c)) : c.Confined pos (c.stop pos) where
  no_enter := (generate_assembled h).proper.no_enter
  lands condition t ht := by
    rcases (generate_assembled h).proper.lands condition t ht with hj | ⟨k, hk, hle, -⟩
    · exact .inl hj
    · exact .inr ⟨pos + k, hk, by omega, by rw [Chunk.stop_eq]; omega⟩
  joins_mem := (generate_assembled h).proper.joins_mem

mutual

theorem Stmt.generate_confined {cx : Context} {pos size : Nat} {c : Chunk} :
    ∀ {s : Stmt}, s.generate cx pos size = some c → c.Confined pos (c.stop pos)
  | .expr e, h => by
    obtain ⟨t, c', h', rfl⟩ := Stmt.generate_expr h
    have hc := Expr.generate_confined h'
    simp only [Chunk.stop_append]
    exact (Chunk.Confined.of_straight rfl rfl).append hc
  | .ifThen test yes, h => by
    obtain ⟨t, c₀, c₁, h₀, h₁, rfl⟩ := Stmt.generate_ifThen h
    have hc₀ := Expr.generate_confined h₀
    have hc₁ := Stmt.generate_confined h₁
    simp only [Chunk.stop_eq, Chunk.code_append, Chunk.code_startAt, Chunk.code_ofCode,
      List.length_append, List.length_cons, List.length_nil] at *
    refine (((Chunk.Confined.of_straight rfl rfl).append (hc₀.mono ?_ ?_)).append
      (.branch ?_ ?_)).append (hc₁.mono ?_ ?_)
    all_goals omega
  | .ifElse test yes no, h => by
    obtain ⟨t, c₀, c₁, second, c₂, h₀, h₁, hsecond, h₂, rfl⟩ := Stmt.generate_ifElse h
    have hc₀ := Expr.generate_confined h₀
    have hc₁ := Stmt.generate_confined h₁
    have hc₂ := Stmt.generate_confined h₂
    simp only [Chunk.stop_eq, Chunk.code_append, Chunk.code_startAt, Chunk.code_ofCode,
      List.length_append, List.length_cons, List.length_nil] at *
    refine (((((Chunk.Confined.of_straight rfl rfl).append (hc₀.mono ?_ ?_)).append
      (.branch ?_ ?_)).append (hc₁.mono ?_ ?_)).append (.branch ?_ ?_)).append (hc₂.mono ?_ ?_)
    all_goals omega
  | .whileLoop test body, h => by
    obtain ⟨t, c₀, c₁, h₀, h₁, rfl⟩ := Stmt.generate_whileLoop h
    have hc₀ := Expr.generate_confined h₀
    have hc₁ := Stmt.generate_confined h₁
    simp only [Chunk.stop_eq, Chunk.code_append, Chunk.code_startAt, Chunk.code_ofCode,
      List.length_append, List.length_cons, List.length_nil] at *
    refine ((((Chunk.Confined.of_straight rfl rfl).append (hc₀.mono ?_ ?_)).append
      (.branch ?_ ?_)).append (hc₁.mono ?_ ?_)).append (.branch ?_ ?_)
    all_goals omega
  | .ret none, h => by
    simp only [Stmt.generate, Option.some.injEq] at h
    subst h
    exact .of_straight rfl rfl
  | .ret (some e), h => by
    obtain ⟨t, c', h', rfl⟩ := Stmt.generate_ret_some h
    have hc := Expr.generate_confined h'
    simp only [Chunk.stop_eq, Chunk.code_append, Chunk.code_startAt, Chunk.code_ofCode,
      List.length_append, List.length_cons, List.length_nil] at *
    refine ((Chunk.Confined.of_straight rfl rfl).append (hc.mono ?_ ?_)).append
      (.of_straight rfl rfl)
    all_goals omega
  | .block body, h => by
    obtain ⟨c', h', rfl⟩ := Stmt.generate_block h
    have hc := Stmt.generateAll_confined h'
    simp only [Chunk.stop_append]
    exact (Chunk.Confined.of_straight rfl rfl).append hc
  | .empty, h => by
    simp only [Stmt.generate, Option.some.injEq] at h
    subst h
    exact .of_straight rfl rfl

theorem Stmt.generateAll_confined {cx : Context} {pos size : Nat} {c : Chunk} :
    ∀ {body : List Stmt}, Stmt.generateAll cx pos size body = some c → c.Confined pos (c.stop pos)
  | [], h => by
    simp only [Stmt.generateAll, Option.some.injEq] at h
    subst h
    exact .of_straight rfl rfl
  | s :: rest, h => by
    obtain ⟨c₁, c₂, h₁, h₂, rfl⟩ := Stmt.generateAll_cons h
    have hc₁ := Stmt.generate_confined h₁
    have hc₂ := Stmt.generateAll_confined h₂
    simp only [Chunk.stop_eq, Chunk.code_append, List.length_append] at *
    refine (hc₁.mono ?_ ?_).append (hc₂.mono ?_ ?_)
    all_goals omega

end

/-! ## Bodies -/

/-- A function body at `pos`: the code of statements between `ENT` and `LEV`. -/
def IsBody (good : List Stmt → Prop) (pos : Nat) (b : Chunk) : Prop :=
  ∃ cx size body c n, good body ∧ Stmt.generateAll cx (pos + 1) size body = some c ∧
    b = .ofCode [.enter n] ++ c ++ .ofCode [.leave]

/-- Function bodies one behind the other from `pos` on. -/
def Laid (good : List Stmt → Prop) : Nat → List Chunk → Prop
  | _, [] => True
  | pos, b :: rest => IsBody good pos b ∧ Laid good (b.stop pos) rest

theorem Laid.concat {good : List Stmt → Prop} {b : Chunk} : ∀ {bodies : List Chunk} {pos : Nat},
    Laid good pos bodies → IsBody good (pos + (bodies.flatMap Chunk.code).length) b →
      Laid good pos (bodies ++ [b])
  | [], _, _, hb => ⟨by simpa using hb, trivial⟩
  | b₁ :: rest, pos, ⟨h₁, hrest⟩, hb => by
    refine ⟨h₁, Laid.concat hrest ?_⟩
    simpa [Chunk.stop_eq, Nat.add_assoc] using hb

theorem Laid.split {good : List Stmt → Prop} {b : Chunk} {back : List Chunk} :
    ∀ {front : List Chunk} {pos : Nat}, Laid good pos (front ++ b :: back) →
      IsBody good (pos + (front.flatMap Chunk.code).length) b ∧
      Laid good (b.stop (pos + (front.flatMap Chunk.code).length)) back
  | [], _, h => h
  | b₁ :: rest, pos, ⟨_, hrest⟩ => by
    simpa [Chunk.stop_eq, Nat.add_assoc] using Laid.split hrest

theorem generate_laid {good : List Stmt → Prop} {items : List Item} {o o' : Output}
    (hgood : ∀ id type params locals body, .function id type params locals body ∈ items → good body)
    (h : items.foldlM Item.generate o = some o') (hl : Laid good 0 o.bodies) :
    Laid good 0 o'.bodies := by
  induction items generalizing o with
  | nil =>
    simp only [List.foldlM_nil] at h
    cases h
    exact hl
  | cons item items ih =>
    simp only [List.foldlM_cons, Option.bind_eq_bind, Option.bind_eq_some_iff] at h
    obtain ⟨o₁, hitem, h⟩ := h
    refine ih (fun id type params locals body hmem =>
      hgood id type params locals body (by simp [hmem])) h ?_
    cases item with
    | constant id value =>
      simp only [Item.generate, Option.bind_eq_bind, Option.bind_eq_some_iff,
        Option.some.injEq] at hitem
      obtain ⟨_, -, rfl⟩ := hitem
      exact hl
    | globalVar type id =>
      simp only [Item.generate, Option.bind_eq_bind, Option.bind_eq_some_iff,
        Option.some.injEq] at hitem
      obtain ⟨_, -, rfl⟩ := hitem
      exact hl
    | function id type params locals body =>
      simp only [Item.generate, Option.bind_eq_bind, Option.bind_eq_some_iff, Option.some.injEq,
        Prod.exists] at hitem
      obtain ⟨_, _, -, _, _, -, c, hc, rfl⟩ := hitem
      exact hl.concat ⟨_, _, body, c, _, hgood id type params locals body (by simp),
        by simpa [Output.code] using hc, rfl⟩

theorem IsBody.code_eq {good : List Stmt → Prop} {pos : Nat} {b : Chunk} (h : IsBody good pos b) :
    ∃ n inner, b.code = .enter n :: inner ∧ ∀ i ∈ inner, i.isEnter = false := by
  obtain ⟨cx, size, body, c, n, -, hc, rfl⟩ := h
  refine ⟨n, c.code ++ [.leave], by simp, ?_⟩
  intro i hi
  rcases List.mem_append.mp hi with hi | hi
  · exact (Stmt.generateAll_confined hc).no_enter i hi
  · simp only [List.mem_singleton] at hi
    subst hi
    rfl

/-- An `ENT` in the code begins a body. -/
theorem Laid.of_enter {good : List Stmt → Prop} {bodies : List Chunk} {pos start : Nat} {n : Word}
    (h : Laid good pos bodies) (hn : (bodies.flatMap Chunk.code)[start]? = some (.enter n)) :
    ∃ front b back, bodies = front ++ b :: back ∧ start = (front.flatMap Chunk.code).length := by
  induction bodies generalizing pos start with
  | nil => simp at hn
  | cons b rest ih =>
    obtain ⟨hb, hrest⟩ := h
    obtain ⟨m, inner, hcode, hinner⟩ := hb.code_eq
    rw [List.flatMap_cons] at hn
    by_cases hlt : start < b.code.length
    · rw [List.getElem?_append_left hlt, hcode] at hn
      cases start with
      | zero => exact ⟨[], b, rest, rfl, rfl⟩
      | succ k =>
        rw [List.getElem?_cons_succ] at hn
        have := hinner _ (List.mem_of_getElem? hn)
        simp [Instr.isEnter] at this
    · rw [List.getElem?_append_right (by omega)] at hn
      obtain ⟨front, b', back, rfl, hstart⟩ := ih hrest hn
      refine ⟨b :: front, b', back, rfl, ?_⟩
      rw [List.flatMap_cons, List.length_append, ← hstart]
      omega

/-- The code of statements in its place between `ENT` and `LEV`. -/
structure BodyAt (code : List Instr) (start : Nat) (c : Chunk) : Prop where
  split : ∃ before n after, before.length = start ∧
    code = before ++ .enter n :: (c.code ++ .leave :: after)
  bodyStop_eq : bodyStop code start = start + 1 + c.code.length + 1

theorem Laid.bodyAt {good : List Stmt → Prop} {front back : List Chunk} {b : Chunk}
    (h : Laid good 0 (front ++ b :: back)) :
    ∃ cx size body c n, good body ∧
      Stmt.generateAll cx ((front.flatMap Chunk.code).length + 1) size body = some c ∧
      BodyAt ((front ++ b :: back).flatMap Chunk.code) (front.flatMap Chunk.code).length c ∧
      b = .ofCode [.enter n] ++ c ++ .ofCode [.leave] := by
  obtain ⟨⟨cx, size, body, c, n, hgood, hc, rfl⟩, hback⟩ := h.split
  rw [Nat.zero_add] at hc
  refine ⟨cx, size, body, c, n, hgood, hc, ?_, rfl⟩
  have hsplit :
      (front ++ (.ofCode [.enter n] ++ c ++ .ofCode [.leave]) :: back).flatMap Chunk.code =
      front.flatMap Chunk.code ++ .enter n :: (c.code ++ .leave :: back.flatMap Chunk.code) := by
    simp
  refine ⟨⟨_, n, _, rfl, hsplit⟩, ?_⟩
  have htake : (c.code ++ .leave :: back.flatMap Chunk.code).takeWhile (!·.isEnter) =
      c.code ++ [.leave] := by
    rw [List.takeWhile_append_of_pos
      (fun i hi => by simp [(Stmt.generateAll_confined hc).no_enter i hi]),
      List.takeWhile_cons_of_pos (by rfl)]
    cases back with
    | nil => simp
    | cons b' back =>
      obtain ⟨n', inner', hcode', -⟩ := hback.1.code_eq
      rw [List.flatMap_cons, hcode', List.cons_append,
        List.takeWhile_cons_of_neg (by simp [Instr.isEnter])]
  rw [hsplit, bodyStop, List.drop_length_add_append, List.drop_succ_cons, List.drop_zero, htake,
    List.length_append, List.length_singleton]
  omega

namespace BodyAt

variable {code : List Instr} {start k : Nat} {c : Chunk}

theorem getElem?_eq (h : BodyAt code start c) :
    ∃ after, ∀ k, code[start + 1 + k]? = (c.code ++ .leave :: after)[k]? := by
  obtain ⟨before, n, after, rfl, rfl⟩ := h.split
  refine ⟨after, fun k => ?_⟩
  rw [List.getElem?_append_right (by omega), Nat.add_assoc, Nat.add_sub_cancel_left,
    Nat.add_comm 1 k, List.getElem?_cons_succ]

theorem inner (h : BodyAt code start c) (hk : k < c.code.length) :
    code[start + 1 + k]? = c.code[k]? := by
  obtain ⟨after, hget⟩ := h.getElem?_eq
  rw [hget, List.getElem?_append_left hk]

theorem leave (h : BodyAt code start c) : code[start + 1 + c.code.length]? = some .leave := by
  obtain ⟨after, hget⟩ := h.getElem?_eq
  rw [hget, List.getElem?_append_right (Nat.le_refl _), Nat.sub_self, List.getElem?_cons_zero]

theorem wordCount_le (h : BodyAt code start c) :
    Compile.wordCount c.code ≤ Compile.wordCount code := by
  obtain ⟨before, n, after, -, rfl⟩ := h.split
  simp only [Compile.wordCount_append, Compile.wordCount_cons]
  omega

/-- What stands at an index of a body. -/
theorem cases {i : Instr} (h : BodyAt code start c) (hlo : start ≤ k)
    (hhi : k < bodyStop code start) (hi : code[k]? = some i) :
    (k = start ∧ ∃ n, i = .enter n) ∨ i = .leave ∨
      ∃ j, k = start + 1 + j ∧ c.code[j]? = some i := by
  rw [h.bodyStop_eq] at hhi
  by_cases hk : k = start
  · obtain ⟨before, n, after, rfl, rfl⟩ := h.split
    refine .inl ⟨hk, n, ?_⟩
    simpa [hk] using hi.symm
  · by_cases hk' : k = start + 1 + c.code.length
    · rw [hk', h.leave] at hi
      exact .inr (.inl (Option.some.inj hi).symm)
    · obtain ⟨j, rfl⟩ := Nat.exists_eq_add_of_le (show start + 1 ≤ k by omega)
      exact .inr (.inr ⟨j, rfl, by rw [← h.inner (by omega), hi]⟩)

end BodyAt

/-- `b` is the code at `start` of the statements `body` of a function among `items`. -/
structure FunctionBody (items : List Item) (o : Output) (start : Nat) (body : List Stmt)
    (b : Chunk) : Prop where
  function : ∃ id type params locals, .function id type params locals body ∈ items
  placed : ∃ front back, o.bodies = front ++ b :: back ∧
    start = (front.flatMap Chunk.code).length
  generated : IsBody (· = body) start b

end Syntax

open Syntax

/-- An `ENT` of a program begins the body of one of its functions. -/
theorem Program.Built.functionBody {source : List UInt8} {limits : Limits} {p : Program}
    {items : List Item} {o : Output} {start : Nat} {n : Word}
    (hb : p.Built source limits items o) (hn : p.code.toList[start]? = some (.enter n)) :
    ∃ cx size body b c, FunctionBody items o start body b ∧
      Stmt.generateAll cx (start + 1) size body = some c ∧ BodyAt p.code.toList start c ∧
      b.joins = c.joins ∧ b.starts = c.starts ∧ b.code.length = c.code.length + 2 := by
  have hlaid : Laid (fun body => ∃ id type params locals,
      .function id type params locals body ∈ items) 0 o.bodies :=
    generate_laid (fun _ _ _ _ _ hmem => ⟨_, _, _, _, hmem⟩) hb.generated trivial
  rw [hb.code_eq, Output.code] at hn ⊢
  obtain ⟨front, b, back, hbodies, rfl⟩ := hlaid.of_enter hn
  rw [hbodies] at hlaid ⊢
  obtain ⟨cx, size, body, c, m, hgood, hc, hbody, hb⟩ := hlaid.bodyAt
  exact ⟨cx, size, body, b, c,
    ⟨hgood, ⟨front, back, hbodies, rfl⟩, cx, size, body, c, m, rfl, hc, hb⟩,
    hc, hbody, by simp [hb], by simp [hb], by simp [hb]⟩

theorem Program.Built.wordCount_lt {source : List UInt8} {limits : Limits} {p : Program}
    {items : List Item} {o : Output} (hb : p.Built source limits items o) :
    Compile.wordCount p.code.toList < 2 ^ 64 := by
  rw [hb.code_eq]
  exact Nat.lt_of_le_of_lt hb.fits limits.code.toNat_lt

end MiniC
