import MiniC.Proofs.Code.Calls
import MiniC.Proofs.Compiling.Lockstep
import MiniC.Proofs.Compiling.Regions
import MiniC.Proofs.Syntax.Seams

/-!
# Compiling sources that are put together

The declarations of a source compile in the same way when another source follows, provided that the
first one ends with a newline. The two compilations run in lockstep up to the seam, which is crossed
between two declarations (`Crosses`), and what follows the seam only adds to the code and the data
(`declaration_extends`).
-/

namespace MiniC

/-- The lexemes of a source, all of them tokens, are alike those of the source with more behind. -/
theorem Lexer.Reads.seam {lx : Lexer} {items items' : List Lexeme} {t t' : SymbolTable}
    {more : List UInt8} (h : Reads lx items t) (hf : lx.symbols.Fresh) (hw : Whole lx.rest)
    (hread : ∀ l ∈ items, ∃ token, l.token = .ok token)
    (h' : Reads { lx with rest := lx.rest ++ more } items' t') :
    Compile.Alike True items items' ∧ items.length ≤ items'.length ∧
      t.symbols.toList <+: t'.symbols.toList := by
  induction h generalizing items' with
  | eof =>
    have hlength : 1 ≤ items'.length := by cases h' <;> simp
    exact ⟨.seam trivial _ _, hlength, (h'.grows hf).1⟩
  | @next lx items t hfound _ ih =>
    have hok : ∀ reason, lx.next.1 ≠ .error reason := by
      obtain ⟨token, htoken⟩ := hread _ List.mem_cons_self
      intro reason herror
      cases htoken.symm.trans herror
    obtain ⟨hfound', hnext, hwhole⟩ := next_append hw hfound hok more
    cases h' with
    | eof h => exact absurd h hfound'
    | next _ hrest =>
      rw [hnext] at hrest ⊢
      obtain ⟨halike, hle, hgrow⟩ :=
        ih (next_fresh hf) hwhole (fun l hl => hread l (List.mem_cons_of_mem _ hl)) hrest
      exact ⟨.cons _ halike, by simpa using hle, hgrow⟩

namespace Compile

open Syntax (Chunk Item Output)

variable {s s' : State} {n d : Nat} {limits : Limits}

/-! ## Crossing the seam -/

/-- Where two runs of the action succeed that begin in lockstep, they have compiled the same, and
they end in lockstep unless the first is at the end of its source. -/
def Crosses (n : Nat) (x : CompileM Unit) : Prop :=
  ∀ {d s s' t t'}, Proper n s → Tracks True n d s s' → x s = .ok () t → x s' = .ok () t' →
    t'.code = t.code ∧ t'.data = t.data ∧ (Tracks True n d t t' ∨ t.rest.items = [])

theorem advance_crosses {t t' : State} (hs : Tracks True n d s s') (h : advance s = .ok () t)
    (h' : advance s' = .ok () t') :
    t'.code = t.code ∧ t'.data = t.data ∧ (Tracks True n d t t' ∨ t.rest.items = []) := by
  obtain ⟨hg, -⟩ := advance_ok h
  obtain ⟨hg', -⟩ := advance_ok h'
  refine ⟨?_, ?_, ?_⟩
  · exact Array.toList_inj.mp (by rw [hg'.code_eq, hg.code_eq, hs.code_eq])
  · exact Array.toList_inj.mp (by rw [hg'.data_eq, hg.data_eq, hs.data_eq])
  · exact ((together_advance hs).of_ok h h').imp_left And.right

/-- At the end of the source no lexeme is left, and before it there is one. -/
theorem Closed.current_eq_eof (hs : Closed s) (h : s.rest.items = []) : s.current = .eof := by
  obtain ⟨heof, -⟩ | ⟨-, front, line, hitems, -⟩ := hs
  · exact heof
  · simp [h] at hitems

theorem Crosses.behind {more : Token → Bool} {body : Unit → CompileM Unit}
    (hbody : ∀ a, Advances ∅ (body a)) (hmore : more .eof = true) :
    Crosses n (whileToken more body () >>= fun _ => advance) := by
  intro d s s' t t' hp hs h h'
  obtain ⟨_, u, hx, h⟩ := bind_eq_ok.mp h
  obtain ⟨_, u', hx', h'⟩ := bind_eq_ok.mp h'
  have hloop : Composed .all ∅ (whileToken more body ()) := .rounds hbody ()
  have hclosed := (hloop.steps_ok hx).closed hp.closed
  obtain ⟨-, ht⟩ | hpast := (hloop.together (fun _ h => h.elim) hp hs).of_ok hx hx'
  · exact advance_crosses ht h h'
  · -- the loop goes on at the end of the source, so it cannot have ended there
    have hstop := Composed.not_more (fun a => (hbody a).composed)
      (fun a _ _ _ hs _ h => (hbody a).left_lt hs h) hp.closed hx
    rw [hclosed.current_eq_eof hpast, hmore] at hstop
    cases hstop

/-- What moves on behind an action cannot begin at the end of the source. -/
theorem Crosses.after {α : Type} {x : CompileM α} {f : α → CompileM Unit}
    (hx : Composed .all ∅ x) (hadv : ∀ a, Advances ∅ (f a)) (hf : ∀ a, Crosses n (f a)) :
    Crosses n (x >>= f) := by
  intro d s s' t t' hp hs h h'
  obtain ⟨a, u, hu, h⟩ := bind_eq_ok.mp h
  obtain ⟨a', u', hu', h'⟩ := bind_eq_ok.mp h'
  have hproper := (hx.steps_ok hu).proper hp
  obtain ⟨rfl, ht⟩ | hpast := (hx.together (fun _ h => h.elim) hp hs).of_ok hu hu'
  · exact hf _ hproper ht h h'
  · have hlt := (hadv a).left_lt hproper.closed h
    simp [State.left, hpast] at hlt

theorem Crosses.declaration : Crosses n declaration := by
  have hnames : ∀ base, Crosses n (do
      whileToken (fun token => token ≠ .semicolon ∧ token ≠ .rightBrace)
        (fun _ => declarator base) ()
      advance) := fun base =>
    Crosses.behind (fun _ => .declarator base) (by simp)
  intro d s s' t t' hp hs h h'
  rw [Compile.declaration] at h h'
  obtain ⟨_, _, hcur, h⟩ := bind_eq_ok.mp h
  obtain ⟨rfl, rfl⟩ := current_eq_ok.mp hcur
  obtain ⟨_, _, hcur', h'⟩ := bind_eq_ok.mp h'
  obtain ⟨rfl, rfl⟩ := current_eq_ok.mp hcur'
  rw [hs.current_eq] at h'
  split at h
  · rename_i henum
    rw [if_pos henum] at h'
    exact Crosses.after .enumeration
      (fun _ => Advances.after (.pure _) Advances.declarators)
      (fun _ => Crosses.after (.pure _) Advances.declarators hnames) hp hs h h'
  · rename_i henum
    rw [if_neg henum] at h'
    exact Crosses.after .baseType Advances.declarators hnames hp hs h h'

/-- The rounds of the first compilation are rounds of the second, up to the seam. -/
theorem seam_loop {fuel : Nat} {t t' : State} (hfuel : s.left < fuel) (hp : Proper n s)
    (hs : Tracks True n d s s')
    (h : loop (· ≠ .eof) (fun _ => declaration) fuel () s = .ok () t)
    (h' : loop (· ≠ .eof) (fun _ => declaration) (fuel + d) () s' = .ok () t') :
    ∃ u fuel', Steps s' u ∧ u.code = t.code ∧ u.data = t.data ∧
      loop (· ≠ .eof) (fun _ => declaration) fuel' () u = .ok () t' := by
  induction fuel generalizing s s' with
  | zero => omega
  | succ fuel ih =>
    by_cases heof : s.current = .eof
    · rw [loop_succ_of_not_more (by simp [heof])] at h
      cases h
      exact ⟨s', _, .refl, hs.code_eq, hs.data_eq, h'⟩
    · rw [loop_succ_of_more (by simp [heof])] at h
      rw [Nat.add_right_comm, loop_succ_of_more (by simp [hs.current_eq, heof])] at h'
      obtain ⟨_, s₁, hd, h⟩ := bind_eq_ok.mp h
      obtain ⟨_, s₁', hd', h'⟩ := bind_eq_ok.mp h'
      have hlt := Advances.declaration.left_lt hp.closed hd
      have hproper := (Advances.declaration.composed.steps_ok hd).proper hp
      have hsteps' := Advances.declaration.composed.steps_ok hd'
      obtain ⟨hcode, hdata, ht | hend⟩ := Crosses.declaration hp hs hd hd'
      · obtain ⟨u, fuel', hsteps, hu⟩ := ih (by omega) hproper ht h h'
        exact ⟨u, fuel', hsteps'.trans hsteps, hu⟩
      · -- this declaration crossed the seam, and the first compilation is done
        obtain ⟨fuel, rfl⟩ : ∃ k, fuel = k + 1 := ⟨fuel - 1, by omega⟩
        rw [loop_succ_of_not_more (by simp [hproper.closed.current_eq_eof hend])] at h
        cases h
        exact ⟨s₁', _, hsteps', hcode, hdata, h'⟩

/-! ## Behind the seam -/

/-- A declaration adds to the code and the data, and changes neither. -/
theorem declaration_extends {u : Unit} (hs : Within limits s) (h : declaration s = .ok u s') :
    s.code.toList <+: s'.code.toList ∧ s.data.toList <+: s'.data.toList := by
  have hholds : Holds limits s.frame ⟨s.symbols, [.ofCode s.code.toList], s.data.toList⟩ s :=
    ⟨rfl, by simp [Output.code], rfl, by simp [Output.code, hs.words_eq], rfl, hs.limits_eq,
      hs.words_le⟩
  obtain ⟨items, -, o', hgen, hholds'⟩ := declaration_ok hholds h
  have hextends := Syntax.extends_of_foldlM hgen
  obtain ⟨more, hmore⟩ := hextends.bodies
  refine ⟨?_, ?_⟩
  · rw [hholds'.code_eq, Output.code, ← hmore]
    simp
  · rw [hholds'.data_eq]
    exact hextends.data

theorem loop_extends {fuel : Nat} {t : State} (hs : Within limits s)
    (h : loop (· ≠ .eof) (fun _ => declaration) fuel () s = .ok () t) :
    s.code.toList <+: t.code.toList ∧ s.data.toList <+: t.data.toList := by
  induction fuel generalizing s with
  | zero =>
    cases h
    exact ⟨List.prefix_refl _, List.prefix_refl _⟩
  | succ fuel ih =>
    by_cases heof : s.current = .eof
    · rw [loop_succ_of_not_more (by simp [heof])] at h
      cases h
      exact ⟨List.prefix_refl _, List.prefix_refl _⟩
    · rw [loop_succ_of_more (by simp [heof])] at h
      obtain ⟨_, s₁, hd, h⟩ := bind_eq_ok.mp h
      have hsteps := Advances.declaration.composed.steps_ok hd
      obtain ⟨hcode, hdata⟩ := declaration_extends hs hd
      obtain ⟨hcode₁, hdata₁⟩ := ih (hsteps.within hs) h
      exact ⟨hcode.trans hcode₁, hdata.trans hdata₁⟩

theorem declarations_extends {t t' : State} (hr : Ready n s) (hs : Tracks True n d s s')
    (hw : Within limits s') (h : declarations s = .ok () t)
    (h' : declarations s' = .ok () t') :
    t.code.toList <+: t'.code.toList ∧ t.data.toList <+: t'.data.toList := by
  obtain ⟨_, s₁, hadv, hloop⟩ := bind_eq_ok.mp h
  obtain ⟨_, s₁', hadv', hloop'⟩ := bind_eq_ok.mp h'
  have hp := hr.proper hadv
  have hsteps' := steps_advance s'
  rw [after_of_ok hadv'] at hsteps'
  rw [whileToken_apply] at hloop hloop'
  obtain ⟨u, fuel, hsteps, hcode, hdata, hrest⟩ : ∃ u fuel, Steps s₁' u ∧ u.code = t.code ∧
      u.data = t.data ∧ loop (· ≠ .eof) (fun _ => declaration) fuel () u = .ok () t' := by
    obtain ⟨hcode, hdata, ht | hend⟩ := advance_crosses hs hadv hadv'
    · rw [ht.left_eq, Nat.add_right_comm] at hloop'
      exact seam_loop (Nat.lt_succ_self _) hp ht hloop hloop'
    · rw [loop_succ_of_not_more (by simp [hp.closed.current_eq_eof hend])] at hloop
      cases hloop
      exact ⟨s₁', _, .refl, hcode, hdata, hloop'⟩
  have hextends := loop_extends (Path.within (hsteps'.trans hsteps) hw) hrest
  rwa [hcode, hdata] at hextends

/-! ## Sources -/

theorem declarations_reason {source : List UInt8} {e : CompileError} {t : State}
    (h : declarations (start source limits none) = .error e t) : e.reason ≠ .mainNotDefined :=
  composed_declarations.reason_ne (reads_start source limits none).reason_ne h

/-- A source that lacks nothing but perhaps an entry point has declarations that compile. -/
theorem declarations_of_compile {source : List UInt8}
    (h : (∃ p, Program.compile source limits = .ok p) ∨
      ∃ line, Program.compile source limits = .error ⟨line, .mainNotDefined⟩) :
    declarations (start source limits none) = .ok ()
      (after program (start source limits none)) := by
  rw [compile_eq] at h
  cases hdecl : declarations (start source limits none) with
  | error e t =>
    rw [hdecl] at h
    obtain ⟨p, hp⟩ | ⟨line, he⟩ := h
    · cases hp
    · cases he
      exact absurd rfl (declarations_reason hdecl)
  | ok u t =>
    have hsteps := steps_declarations (start source limits none)
    rw [after_of_ok hdecl] at hsteps
    rw [program_eq, after_bind_of_ok hdecl, after, finish_apply (hsteps.keep Step.unlisted rfl)]
    split_ifs <;> rfl

theorem program_of_compile {source : List UInt8} {p : Program}
    (h : Program.compile source limits = .ok p) :
    ∃ t, declarations (start source limits none) = .ok () t ∧ p = ⟨t.code, t.data, t.symbols⟩ := by
  rw [compile_eq] at h
  cases hdecl : declarations (start source limits none) with
  | error e t =>
    rw [hdecl] at h
    cases h
  | ok u t =>
    rw [hdecl] at h
    dsimp only at h
    split_ifs at h
    exact ⟨t, rfl, (Except.ok.inj h).symm⟩

theorem whole_of_newline {source : List UInt8} (hlast : source.getLast? = some Byte.newline)
    (hnul : 0 ∉ source) : Lexer.Whole source := by
  refine ⟨hnul, fun front b heq => ?_⟩
  rw [heq, List.getLast?_concat] at hlast
  exact Option.some.inj hlast

theorem tracks_append {front : List UInt8} {t : State} (hw : Lexer.Whole front)
    (h : declarations (start front limits none) = .ok () t) (back : List UInt8) :
    ∃ d, Tracks True (start front limits none).symbols.size d (start front limits none)
      (start (front ++ back) limits none) := by
  have hfresh := SymbolTable.fresh_builtin limits.symbols.toNat
  have hreads := reads_start front limits none
  have hreads' := reads_start (front ++ back) limits none
  obtain ⟨halike, hle, hgrow⟩ := hreads.seam hfresh hw
    ((ready_start front limits none).declarations_ok h).2 hreads'
  obtain ⟨d, hd⟩ := Nat.exists_eq_add_of_le hle
  exact ⟨d, tracks_start halike hd
    (.of_grows (hreads.grows hfresh).2 (hreads'.grows hfresh).2 hgrow)
    (UInt64.le_refl _) (UInt64.le_refl _)⟩

/-- Compiling is compositional: where a source that ends with a newline has declarations that
compile, they add the same code and data to a longer source, before all else that is compiled, and
their names have the same numbers there. What they compile to is in the state that compiling them
alone ends in, which holds the program if there is an entry point among them. -/
theorem compile_append {front back : List UInt8} {limits : Limits} {p : Program}
    (hnewline : front.getLast? = some Byte.newline) (hnul : 0 ∉ front)
    (hfront : (∃ q, Program.compile front limits = .ok q) ∨
      ∃ line, Program.compile front limits = .error ⟨line, .mainNotDefined⟩)
    (h : Program.compile (front ++ back) limits = .ok p) :
    let s := after program (start front limits none)
    (∀ q, Program.compile front limits = .ok q → q = ⟨s.code, s.data, s.symbols⟩) ∧
      s.code.toList <+: p.code.toList ∧ s.data.toList <+: p.data.toList ∧
      ∀ id < s.symbols.size, p.symbols.name id = s.symbols.name id := by
  intro s
  have hdecl := declarations_of_compile hfront
  obtain ⟨t, hdecl', rfl⟩ := program_of_compile h
  obtain ⟨d, htracks⟩ := tracks_append (whole_of_newline hnewline hnul) hdecl back
  obtain ⟨hcode, hdata⟩ := declarations_extends (ready_start front limits none) htracks
    (within_start _ _ _) hdecl hdecl'
  have hsteps := steps_declarations (start front limits none)
  have hsteps' := steps_declarations (start (front ++ back) limits none)
  rw [after_of_ok hdecl] at hsteps
  rw [after_of_ok hdecl'] at hsteps'
  refine ⟨fun q hq => ?_, hcode, hdata, fun id hid => ?_⟩
  · obtain ⟨u, hu, rfl⟩ := program_of_compile hq
    cases hdecl.symm.trans hu
    rfl
  · rw [hsteps.sameNames.size_eq] at hid
    show t.symbols.name id = s.symbols.name id
    rw [hsteps'.sameNames.name_eq, htracks.symbols.name_eq hid, hsteps.sameNames.name_eq]

/-- A constant, a global variable and a function, without an entry point. -/
def librarySource : List UInt8 := Utf8.encode
  "enum { step = 3 }; int count;
   int next(int n) { return n + step; } // the library ends here\n"

def mainSource : List UInt8 := Utf8.encode
  "int total; int main() { return total = next(count); }"

theorem compile_library_append :
    Program.compile librarySource (.ofPoolSize Limits.defaultPoolSize) =
        .error ⟨3, .mainNotDefined⟩ ∧
      ∃ p, Program.compile (librarySource ++ mainSource) (.ofPoolSize Limits.defaultPoolSize) =
          .ok p ∧
        [.enter 0, .lea 2, .load .word, .push, .imm 3, .binary .add, .leave, .leave]
          <+: p.code.toList ∧
        List.replicate 8 0 <+: p.data.toList ∧ p.symbols.name 23 = "count" := by
  have hlibrary : Program.compile librarySource (.ofPoolSize Limits.defaultPoolSize) =
      .error ⟨3, .mainNotDefined⟩ := by decide +kernel
  have hok : (Program.compile (librarySource ++ mainSource)
      (.ofPoolSize Limits.defaultPoolSize)).toOption.isSome = true := by decide +kernel
  have hstate : (fun s : State => (s.code.toList, s.data.toList, s.symbols.size, s.symbols.name 23))
      (after program (start librarySource (.ofPoolSize Limits.defaultPoolSize) none)) =
        ([.enter 0, .lea 2, .load .word, .push, .imm 3, .binary .add, .leave, .leave],
          List.replicate 8 0, 26, "count") := by decide +kernel
  cases h : Program.compile (librarySource ++ mainSource) (.ofPoolSize Limits.defaultPoolSize) with
  | error e => simp [h, Except.toOption] at hok
  | ok p =>
    obtain ⟨-, hcode, hdata, hname⟩ := compile_append (by decide +kernel) (by decide +kernel)
      (.inr ⟨3, hlibrary⟩) h
    simp only [Prod.mk.injEq] at hstate
    obtain ⟨hcode', hdata', hsize, hname'⟩ := hstate
    rw [hcode'] at hcode
    rw [hdata'] at hdata
    exact ⟨hlibrary, p, rfl, hcode, hdata, (hname 23 (by rw [hsize]; decide)).trans hname'⟩

end Compile

end MiniC
