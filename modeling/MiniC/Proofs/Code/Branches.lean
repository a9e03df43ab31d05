import MiniC.Proofs.Code.Bodies

/-!
# Where branches lead

A branch of a function body leads to an instruction of the same body, with one exception: the index
at which the branches of a `?:`, `&&` or `||` were to meet may be left behind the end of the body,
since `&` removes the load in front of it. So all branches of a program stay inside their bodies
exactly when all these indices do, and they do whenever no operand of `&` ends where branches meet
(`branchesInside_iff_joinsInside`).
-/

namespace MiniC

open Syntax

/-- All branches of the body that begins at `start` lead to instructions of the body. -/
def BranchesInside (code : List Instr) (start : Nat) : Prop :=
  ∀ k condition t, start ≤ k → k < bodyStop code start →
    code[k]? = some (.branch condition t) → start ≤ t.toNat ∧ t.toNat < bodyStop code start

namespace Syntax.BodyAt

variable {cx : Context} {code : List Instr} {start size : Nat} {body : List Stmt} {c : Chunk}

/-- For a body, branches stay inside exactly when the joins do. -/
theorem branchesInside_iff (h : BodyAt code start c) (hlen : code.length < 2 ^ 64)
    (hc : Stmt.generateAll cx (start + 1) size body = some c) :
    BranchesInside code start ↔
      ∀ j ∈ c.joins, start ≤ j.toNat ∧ j.toNat < bodyStop code start := by
  have hconf := Stmt.generateAll_confined hc
  have hstop := h.bodyStop_eq
  constructor
  · intro hin j hj
    obtain ⟨condition, hmem⟩ := hconf.joins_mem j hj
    obtain ⟨k, hk⟩ := List.getElem?_of_mem hmem
    obtain ⟨hlt, -⟩ := List.getElem?_eq_some_iff.mp hk
    rw [← h.inner hlt] at hk
    exact hin _ condition j (by omega) (by omega) hk
  · intro hin k condition t hlo hhi hk
    obtain ⟨-, n, hn⟩ | hn | ⟨m, rfl, hm⟩ := h.cases hlo hhi hk
    · simp at hn
    · simp at hn
    rcases hconf.lands condition t (List.mem_of_getElem? hm) with hj | ⟨j, rfl, hlo', hhi'⟩
    · exact hin t hj
    · obtain ⟨hlt, -⟩ := List.getElem?_eq_some_iff.mp h.leave
      rw [Chunk.stop_eq] at hhi'
      rw [UInt64.toNat_ofNat', Nat.mod_eq_of_lt (by omega)]
      omega

/-- In a body with plain addresses branches stay inside. -/
theorem branchesInside (h : BodyAt code start c) (hlen : code.length < 2 ^ 64)
    (hp : Stmt.everyIn Expr.plainAddress body = true)
    (hc : Stmt.generateAll cx (start + 1) size body = some c) : BranchesInside code start := by
  intro k condition t hlo hhi hk
  obtain ⟨-, n, hn⟩ | hn | ⟨m, rfl, hm⟩ := h.cases hlo hhi hk
  · simp at hn
  · simp at hn
  obtain ⟨j, rfl, hlo', hhi', -⟩ := Stmt.generateAll_bound hp hc m condition t hm
  obtain ⟨hlt, -⟩ := List.getElem?_eq_some_iff.mp h.leave
  rw [Chunk.stop_eq] at hhi'
  rw [h.bodyStop_eq, UInt64.toNat_ofNat', Nat.mod_eq_of_lt (by omega)]
  omega

end Syntax.BodyAt

/-- Where the branches of a program lead. Every `ENT` begins the body of a function, which ends with
a `LEV`. The branches of the body stay inside exactly when the indices at which the branches of its
expressions were to meet do, and that is so when no operand of `&` ends where branches meet. -/
theorem branchesInside_iff_joinsInside {source : List UInt8} {limits : Limits} {p : Program}
    (h : Program.compile source limits = .ok p) :
    ∃ items o, p.Built source limits items o ∧
      ∀ start n, p.code.toList[start]? = some (.enter n) →
        ∃ body b, FunctionBody items o start body b ∧
          p.code.toList[bodyStop p.code.toList start - 1]? = some .leave ∧
          (BranchesInside p.code.toList start ↔
            ∀ j ∈ b.joins, start ≤ j.toNat ∧ j.toNat < bodyStop p.code.toList start) ∧
          (Stmt.everyIn Expr.plainAddress body = true → BranchesInside p.code.toList start) := by
  obtain ⟨items, o, hb⟩ := Program.built h
  have hlen : p.code.toList.length < 2 ^ 64 :=
    Nat.lt_of_le_of_lt (Compile.length_le_wordCount _) hb.wordCount_lt
  refine ⟨items, o, hb, fun start n hn => ?_⟩
  obtain ⟨cx, size, body, b, c, hfun, hc, hbody, hjoins, -⟩ := hb.functionBody hn
  refine ⟨body, b, hfun, ?_, ?_, fun hp => hbody.branchesInside hlen hp hc⟩
  · rw [hbody.bodyStop_eq, Nat.add_sub_cancel]
    exact hbody.leave
  · rw [hjoins]
    exact hbody.branchesInside_iff hlen hc

/-- Addresses of a variable and of the target of a pointer that a `?:` yields. -/
def plainAddressSource : List UInt8 := Utf8.encode
  "int main() { int a; return *&*(a ? &a : &a); }"

theorem branchesInside_plainAddress :
    ∃ p, Program.compile plainAddressSource (.ofPoolSize Limits.defaultPoolSize) = .ok p ∧
      p.code.toList[0]? = some (.enter 1) ∧ BranchesInside p.code.toList 0 := by
  have hok : (Program.compile plainAddressSource (.ofPoolSize Limits.defaultPoolSize)).toOption.bind
      (·.code.toList[0]?) = some (.enter 1) := by
    decide +kernel
  have hplain : (ofSource plainAddressSource (.ofPoolSize Limits.defaultPoolSize)).any
      (·.all (·.every Expr.plainAddress)) = true := by
    decide +kernel
  cases h : Program.compile plainAddressSource (.ofPoolSize Limits.defaultPoolSize) with
  | error e => simp [h, Except.toOption] at hok
  | ok p =>
    simp only [h, Except.toOption, Option.bind_some] at hok
    obtain ⟨items, o, hb, hbodies⟩ := branchesInside_iff_joinsInside h
    obtain ⟨body, b, hfun, -, -, hinside⟩ := hbodies 0 1 hok
    obtain ⟨id, type, params, locals, hmem⟩ := hfun.function
    simp only [hb.parsed, Option.any_some, List.all_eq_true] at hplain
    exact ⟨p, rfl, hok, hinside (hplain _ hmem)⟩

/-- The address of a `?:`, at the end of a function. -/
def joinAddressSource : List UInt8 := Utf8.encode "int main() { int a; int b; &(1 ? a : b); }"

/-- The branch behind `a` leads behind the last instruction of the program. -/
theorem not_branchesInside_joinAddress :
    ∃ p, Program.compile joinAddressSource (.ofPoolSize Limits.defaultPoolSize) = .ok p ∧
      p.code.toList[5]? = some (.branch .always 8) ∧ p.code.size = 8 ∧
      ¬ BranchesInside p.code.toList 0 := by
  have hcode : (Program.compile joinAddressSource (.ofPoolSize Limits.defaultPoolSize)).toOption.map
      (·.code) = some #[.enter 2, .imm 1, .branch .ifZero 6, .lea (-1), .load .word,
        .branch .always 8, .lea (-2), .leave] := by
    decide +kernel
  cases h : Program.compile joinAddressSource (.ofPoolSize Limits.defaultPoolSize) with
  | error e => simp [h, Except.toOption] at hcode
  | ok p =>
    simp only [h, Except.toOption, Option.map_some, Option.some.injEq] at hcode
    refine ⟨p, rfl, by rw [hcode]; rfl, by rw [hcode]; rfl, ?_⟩
    rw [hcode]
    intro hin
    have hjoin := hin 5 .always 8 (by decide) (by decide) rfl
    exact absurd hjoin.2 (by decide)

end MiniC
