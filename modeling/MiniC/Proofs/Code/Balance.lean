import MiniC.Proofs.Code.Bodies

/-!
# The height of the stack along a body

The height counts the words that a body has pushed since its `ENT`. It is followed along every path,
through branches and behind them. Where the lvalues of a source are plain, the height at an index
does not depend on the path, is never negative and is 0 where a statement starts
(`balanced_of_plain`). A join of `?:`, `&&` or `||` at the end of an lvalue breaks this, since the
`PSH` that takes the place of the last load is passed on one path only.
-/

namespace MiniC

open Syntax

/-! ## Paths -/

/-- The indices that control can go to from an instruction at `k`. -/
def Instr.next (k : Nat) : Instr → List Nat
  | .branch condition t => if condition = .always then [t.toNat] else [k + 1, t.toNat]
  | .leave => []
  | _ => [k + 1]

/-- A path through the body that begins at `start` reaches an index at a height. -/
inductive Reaches (code : List Instr) (start : Nat) : Nat → Int → Prop where
  | enter : Reaches code start (start + 1) 0
  | step {k k' : Nat} {h : Int} {i : Instr} : Reaches code start k h → code[k]? = some i →
      k' ∈ i.next k → Reaches code start k' (h + i.effect)

/-- Paths stay inside the body, and the height is a function of the index, not negative, and 0 at
the indices `starts`. -/
structure Balanced (code : List Instr) (start : Nat) (starts : List Nat) : Prop where
  inside : ∀ {k h}, Reaches code start k h → start < k ∧ k < bodyStop code start
  unique : ∀ {k h h'}, Reaches code start k h → Reaches code start k h' → h = h'
  nonneg : ∀ {k h}, Reaches code start k h → 0 ≤ h
  zero_of_mem_starts : ∀ {k h}, k ∈ starts → Reaches code start k h → h = 0

theorem Instr.mem_next {k k' : Nat} {i : Instr} (h : k' ∈ i.next k) :
    (k' = k + 1 ∧ i ≠ .leave) ∨ ∃ condition t, i = .branch condition t ∧ k' = t.toNat := by
  cases i with
  | branch condition t =>
    simp only [Instr.next] at h
    split at h
    · exact .inr ⟨condition, t, rfl, List.mem_singleton.mp h⟩
    · rcases List.mem_cons.mp h with rfl | h
      · exact .inl ⟨rfl, by simp⟩
      · exact .inr ⟨condition, t, rfl, List.mem_singleton.mp h⟩
  | leave => simp [Instr.next] at h
  | _ => exact .inl ⟨by simpa [Instr.next] using h, by simp⟩

/-! ## The height function of a body -/

/-- The height in front of an index of code that begins at `pos` at height 0. -/
def heightAt (pos : Nat) (code : List Instr) (k : Nat) : Int :=
  ((code.take (k - pos)).map Instr.effect).sum

theorem heightAt_self (pos : Nat) (code : List Instr) : heightAt pos code pos = 0 := by
  simp [heightAt]

theorem linear_heightAt (pos : Nat) (code : List Instr) : Linear (heightAt pos code) pos code := by
  intro k i hi
  have h₁ : pos + k + 1 - pos = k + 1 := by omega
  rw [heightAt, heightAt, h₁, Nat.add_sub_cancel_left, List.take_add_one, hi]
  simp

namespace Syntax

variable {cx : Context} {H : Nat → Int}

/-- Behind a test and its branch the height is that in front of the test. -/
theorem Expr.generate_test {test : Expr} {pos size : Nat} {t : CType} {c : Chunk} {b : Branch}
    {target : UInt64} {rest : List Instr} (h : test.generate cx pos size = some (t, c))
    (hp : pushes c.code < 2 ^ 63) (hH : Linear H pos (c.code ++ .branch b target :: rest)) :
    H (c.stop pos + 1) = H pos ∧ Linear H (c.stop pos + 1) rest := by
  obtain ⟨hbranch, hrest⟩ := Linear.cons_iff.mp hH.right
  rw [← Chunk.stop_eq] at hbranch hrest
  refine ⟨?_, hrest⟩
  rw [hbranch, Expr.generate_stop h hp hH.left, Instr.effect_branch, Int.add_zero]

mutual

theorem Stmt.generate_starts {pos size : Nat} {c : Chunk} :
    ∀ {s : Stmt}, s.generate cx pos size = some c → pushes c.code < 2 ^ 63 →
      Linear H pos c.code → ∀ k ∈ c.starts, H k = H pos
  | .expr e, h, _, _ => by
    obtain ⟨t, c', h', rfl⟩ := Stmt.generate_expr h
    simp [(Expr.generate_assembled h').starts_eq_nil]
  | .ifThen test yes, h, hb, hH => by
    obtain ⟨t, c₀, c₁, h₀, h₁, rfl⟩ := Stmt.generate_ifThen h
    simp only [Chunk.code_append, pushes_append] at hb
    obtain ⟨htest, hH₁⟩ := Expr.generate_test h₀ (by omega) (by simpa using hH)
    have hyes := Stmt.generate_starts h₁ (by omega) hH₁
    rw [htest] at hyes
    simpa [(Expr.generate_assembled h₀).starts_eq_nil] using hyes
  | .ifElse test yes no, h, hb, hH => by
    obtain ⟨t, c₀, c₁, second, c₂, h₀, h₁, hsecond, h₂, rfl⟩ := Stmt.generate_ifElse h
    simp only [Chunk.code_append, pushes_append] at hb
    obtain ⟨htest, hH₁⟩ := Expr.generate_test h₀ (by omega) (by simpa using hH)
    obtain ⟨hjump, hH₂⟩ := Linear.cons_iff.mp hH₁.right
    rw [← Chunk.stop_eq, ← hsecond] at hjump hH₂
    have hyes := Stmt.generate_starts h₁ (by omega) hH₁.left
    have hno := Stmt.generate_starts h₂ (by omega) hH₂
    rw [hjump, Stmt.generate_stop h₁ (by omega) hH₁.left, Instr.effect_branch, Int.add_zero,
      htest] at hno
    rw [htest] at hyes
    intro k hk
    simp only [Chunk.starts_append, (Expr.generate_assembled h₀).starts_eq_nil] at hk
    simp at hk
    rcases hk with rfl | hk | hk
    · rfl
    · exact hyes k hk
    · exact hno k hk
  | .whileLoop test body, h, hb, hH => by
    obtain ⟨t, c₀, c₁, h₀, h₁, rfl⟩ := Stmt.generate_whileLoop h
    simp only [Chunk.code_append, pushes_append] at hb
    obtain ⟨htest, hH₁⟩ := Expr.generate_test h₀ (by omega) (by simpa using hH)
    have hbody := Stmt.generate_starts h₁ (by omega) hH₁.left
    rw [htest] at hbody
    simpa [(Expr.generate_assembled h₀).starts_eq_nil] using hbody
  | .ret none, h, _, _ => by
    simp only [Stmt.generate, Option.some.injEq] at h
    subst h
    simp
  | .ret (some e), h, _, _ => by
    obtain ⟨t, c', h', rfl⟩ := Stmt.generate_ret_some h
    simp [(Expr.generate_assembled h').starts_eq_nil]
  | .block body, h, hb, hH => by
    obtain ⟨c', h', rfl⟩ := Stmt.generate_block h
    simpa using Stmt.generateAll_starts h' (by simpa using hb) (by simpa using hH)
  | .empty, h, _, _ => by
    simp only [Stmt.generate, Option.some.injEq] at h
    subst h
    simp

/-- At the starts of statements the height is that at their beginning. -/
theorem Stmt.generateAll_starts {pos size : Nat} {c : Chunk} :
    ∀ {body : List Stmt}, Stmt.generateAll cx pos size body = some c → pushes c.code < 2 ^ 63 →
      Linear H pos c.code → ∀ k ∈ c.starts, H k = H pos
  | [], h, _, _ => by
    simp only [Stmt.generateAll, Option.some.injEq] at h
    subst h
    simp
  | s :: rest, h, hb, hH => by
    obtain ⟨c₁, c₂, h₁, h₂, rfl⟩ := Stmt.generateAll_cons h
    simp only [Chunk.code_append, pushes_append] at hb hH
    have hs := Stmt.generate_starts h₁ (by omega) hH.left
    have hH₂ := hH.right
    rw [← Chunk.stop_eq] at hH₂
    have hrest := Stmt.generateAll_starts h₂ (by omega) hH₂
    rw [Stmt.generate_stop h₁ (by omega) hH.left] at hrest
    intro k hk
    rw [Chunk.starts_append, List.mem_append] at hk
    exact hk.elim (hs k) (hrest k)

end

/-! ## Bodies -/

/-- What every path through a body with plain lvalues keeps. -/
theorem BodyAt.height_eq {code : List Instr} {start size : Nat} {c : Chunk} {body : List Stmt}
    (hbody : BodyAt code start c) (hlen : code.length < 2 ^ 64)
    (haddress : Stmt.everyIn Expr.plainAddress body = true)
    (htarget : Stmt.everyIn Expr.plainTarget body = true)
    (hc : Stmt.generateAll cx (start + 1) size body = some c) (hp : pushes c.code < 2 ^ 63)
    {k : Nat} {h : Int} (hr : Reaches code start k h) :
    start + 1 ≤ k ∧ k ≤ c.stop (start + 1) ∧ h = heightAt (start + 1) c.code k := by
  have hH := linear_heightAt (start + 1) c.code
  obtain ⟨hlast, -⟩ := List.getElem?_eq_some_iff.mp hbody.leave
  induction hr with
  | enter => exact ⟨Nat.le_refl _, by rw [Chunk.stop_eq]; omega, (heightAt_self _ _).symm⟩
  | @step k k' h i hr hi hk' ih =>
    obtain ⟨hlo, hhi, rfl⟩ := ih
    rw [Chunk.stop_eq] at hhi ⊢
    obtain ⟨rfl, -⟩ | rfl | ⟨m, rfl, hm⟩ := hbody.cases (Nat.le_of_succ_le hlo)
      (by rw [hbody.bodyStop_eq]; omega) hi
    · omega
    · rcases Instr.mem_next hk' with ⟨-, hne⟩ | ⟨condition, t, ht, -⟩
      · exact absurd rfl hne
      · simp at ht
    obtain ⟨hlt, -⟩ := List.getElem?_eq_some_iff.mp hm
    rcases Instr.mem_next hk' with ⟨rfl, -⟩ | ⟨condition, t, rfl, rfl⟩
    · exact ⟨by omega, by omega, (hH m i hm).symm⟩
    · obtain ⟨j, rfl, hlo', hhi', hlevel⟩ := Stmt.generateAll_bound haddress hc m condition t hm
      rw [Chunk.stop_eq] at hhi'
      rw [UInt64.toNat_ofNat', Nat.mod_eq_of_lt (by omega), hlevel ⟨htarget, hp⟩ _ hH,
        Instr.effect_branch, Int.add_zero]
      exact ⟨hlo', hhi', rfl⟩

theorem BodyAt.balanced {code : List Instr} {start size : Nat} {c : Chunk} {body : List Stmt}
    (hbody : BodyAt code start c) (hfits : Compile.wordCount code < 2 ^ 64)
    (haddress : Stmt.everyIn Expr.plainAddress body = true)
    (htarget : Stmt.everyIn Expr.plainTarget body = true)
    (hc : Stmt.generateAll cx (start + 1) size body = some c) :
    Balanced code start c.starts := by
  have hlen : code.length < 2 ^ 64 := Nat.lt_of_le_of_lt (Compile.length_le_wordCount code) hfits
  have hp : pushes c.code < 2 ^ 63 := by
    have h₁ := two_mul_pushes_le (Stmt.generateAll_slack hc)
    have h₂ := hbody.wordCount_le
    omega
  have hheight {k : Nat} {h : Int} (hr : Reaches code start k h) :=
    hbody.height_eq hlen haddress htarget hc hp hr
  have hH := linear_heightAt (start + 1) c.code
  have hzero := heightAt_self (start + 1) c.code
  refine ⟨fun hr => ?_, fun hr hr' => ?_, fun hr => ?_, fun hk hr => ?_⟩
  · obtain ⟨hlo, hhi, -⟩ := hheight hr
    rw [Chunk.stop_eq] at hhi
    rw [hbody.bodyStop_eq]
    omega
  · rw [(hheight hr).2.2, (hheight hr').2.2]
  · obtain ⟨hlo, hhi, rfl⟩ := hheight hr
    obtain ⟨m, rfl⟩ := Nat.exists_eq_add_of_le hlo
    rw [Chunk.stop_eq] at hhi
    have hrises := Stmt.generateAll_rises (Int.le_refl 0) hc hp
    rw [← hzero] at hrises
    exact hH.nonneg hrises (by omega)
  · rw [(hheight hr).2.2, Stmt.generateAll_starts hc hp hH _ hk, hzero]

end Syntax

/-- The heights of a program. Every `ENT` begins the body of a function, which is balanced when no
operand of `&`, `=`, `++` or `--` in it ends where branches meet. -/
theorem balanced_of_plain {source : List UInt8} {limits : Limits} {p : Program}
    (h : Program.compile source limits = .ok p) :
    ∃ items o, p.Built source limits items o ∧
      ∀ start n, p.code.toList[start]? = some (.enter n) →
        ∃ body b, FunctionBody items o start body b ∧
          (Stmt.everyIn Expr.plainAddress body = true → Stmt.everyIn Expr.plainTarget body = true →
            Balanced p.code.toList start b.starts) := by
  obtain ⟨items, o, hb⟩ := Program.built h
  refine ⟨items, o, hb, fun start n hn => ?_⟩
  obtain ⟨cx, size, body, b, c, hfun, hc, hbody, -, hstarts, -⟩ := hb.functionBody hn
  refine ⟨body, b, hfun, fun haddress htarget => ?_⟩
  rw [hstarts]
  exact hbody.balanced hb.wordCount_lt haddress htarget hc

/-- A recursive function with a loop, and lvalues behind pointers and subscripts. -/
def plainTargetSource : List UInt8 := Utf8.encode
  "int f(int n, int *p) { while (n && *p) { *(n ? p : p) = n; n = n - 1; p[0]++; } return n ? f(n - 1, p) : 0; }
   int main() { int a; return f(3, &a); }"

theorem balanced_plainTarget :
    ∃ p items o body b, Program.compile plainTargetSource (.ofPoolSize Limits.defaultPoolSize) =
        .ok p ∧
      p.Built plainTargetSource (.ofPoolSize Limits.defaultPoolSize) items o ∧
      FunctionBody items o 0 body b ∧ Balanced p.code.toList 0 b.starts := by
  have hok : (Program.compile plainTargetSource (.ofPoolSize Limits.defaultPoolSize)).toOption.bind
      (·.code.toList[0]?) = some (.enter 0) := by
    decide +kernel
  have hplain : (ofSource plainTargetSource (.ofPoolSize Limits.defaultPoolSize)).any
      (·.all fun item => item.every Expr.plainAddress && item.every Expr.plainTarget) = true := by
    decide +kernel
  cases h : Program.compile plainTargetSource (.ofPoolSize Limits.defaultPoolSize) with
  | error e => simp [h, Except.toOption] at hok
  | ok p =>
    simp only [h, Except.toOption, Option.bind_some] at hok
    obtain ⟨items, o, hb, hbodies⟩ := balanced_of_plain h
    obtain ⟨body, b, hfun, hbalanced⟩ := hbodies 0 0 hok
    obtain ⟨id, type, params, locals, hmem⟩ := hfun.function
    simp only [hb.parsed, Option.any_some, List.all_eq_true, Bool.and_eq_true] at hplain
    exact ⟨p, items, o, body, b, rfl, hb, hfun, hbalanced (hplain _ hmem).1 (hplain _ hmem).2⟩

/-- An assignment to a `?:`. -/
def joinTargetSource : List UInt8 := Utf8.encode
  "int main() { int a; int b; (1 ? a : b) = 5; return 0; }"

/-- The `PSH` in front of the value assigned is passed on one of the two paths. On the other the
height is negative behind the store, where the next statement starts. -/
theorem not_balanced_joinTarget :
    ∃ p, Program.compile joinTargetSource (.ofPoolSize Limits.defaultPoolSize) = .ok p ∧
      Reaches p.code.toList 0 8 0 ∧ Reaches p.code.toList 0 8 1 ∧
      Reaches p.code.toList 0 10 (-1) ∧ ∀ starts, ¬ Balanced p.code.toList 0 starts := by
  have hcode : (Program.compile joinTargetSource (.ofPoolSize Limits.defaultPoolSize)).toOption.map
      (·.code.toList) = some [.enter 2, .imm 1, .branch .ifZero 6, .lea (-1), .load .word,
        .branch .always 8, .lea (-2), .push, .imm 5, .store .word, .imm 0, .leave, .leave] := by
    decide +kernel
  cases h : Program.compile joinTargetSource (.ofPoolSize Limits.defaultPoolSize) with
  | error e => simp [h, Except.toOption] at hcode
  | ok p =>
    simp only [h, Except.toOption, Option.map_some, Option.some.injEq] at hcode
    refine ⟨p, rfl, ?_⟩
    rw [hcode]
    generalize hcode' : ([.enter 2, .imm 1, .branch .ifZero 6, .lea (-1), .load .word,
      .branch .always 8, .lea (-2), .push, .imm 5, .store .word, .imm 0, .leave, .leave] :
        List Instr) = code
    have htest : Reaches code 0 2 0 :=
      .step (i := .imm 1) .enter (by rw [← hcode']; rfl) (by decide)
    have hyes : Reaches code 0 3 0 :=
      .step (i := .branch .ifZero 6) htest (by rw [← hcode']; rfl) (by decide)
    have hload : Reaches code 0 4 0 :=
      .step (i := .lea (-1)) hyes (by rw [← hcode']; rfl) (by decide)
    have hjump : Reaches code 0 5 0 :=
      .step (i := .load .word) hload (by rw [← hcode']; rfl) (by decide)
    have hzero : Reaches code 0 8 0 :=
      .step (i := .branch .always 8) hjump (by rw [← hcode']; rfl) (by decide)
    have hno : Reaches code 0 6 0 :=
      .step (i := .branch .ifZero 6) htest (by rw [← hcode']; rfl) (by decide)
    have hpush : Reaches code 0 7 0 :=
      .step (i := .lea (-2)) hno (by rw [← hcode']; rfl) (by decide)
    have hone : Reaches code 0 8 1 := .step (i := .push) hpush (by rw [← hcode']; rfl) (by decide)
    have hstore : Reaches code 0 9 0 :=
      .step (i := .imm 5) hzero (by rw [← hcode']; rfl) (by decide)
    have hnext : Reaches code 0 10 (-1) :=
      .step (i := .store .word) hstore (by rw [← hcode']; rfl) (by decide)
    exact ⟨hzero, hone, hnext, fun starts hb => absurd (hb.unique hzero hone) (by decide)⟩

end MiniC
