import MiniC.Proofs.Compiling.Credit

/-!
# Branches that wait for their target

A branch that leads forward is emitted with the target 0 and gets its target later, when that is
known. Until then it waits. Here every plan is shown to give each branch that it emits its target,
by the number that the emission returned, and to leave alone what waits besides.

`Owes` says it of a plan that is under way, with the branches that wait at the time. Each of them is
kept with the plan that its emission was a part of, so that what is left to be done when its target
is known can be compared with it (`Skips`). A call or a loop is taken at its word there: it keeps
what holds `Inside` a function and owes nothing in the end. That the bodies keep this word is what
the rules of `Repays` are for. They go along with those of `Performs` (`Realizes`), but for the
constructs with branches.

Only loads are ever rewritten or removed at the end of the code, so a branch that waits stays. And
since a function begins with an instruction that is no load, the code never shrinks to nothing
again. Hence the jump back to the start of a loop does not look like a branch that waits.
-/

namespace MiniC.Compile

variable {α β γ : Type} {s s' s'' : State}

/-- At the index stands a branch without a target. -/
def Waits (code : Array Instr) (index : Nat) (condition : Branch) : Prop :=
  code[index]? = some (.branch condition 0)

theorem Waits.lt_size {code : Array Instr} {index : Nat} {condition : Branch}
    (h : Waits code index condition) : index < code.size :=
  (Array.getElem?_eq_some_iff.mp h).1

/-! ## Code that is not empty -/

/-- The code, and what bounds it. -/
def State.layout (s : State) : Array Instr × Nat × Limits := (s.code, s.words, s.limits)

/-- The code does not begin with a load, and its indices fit a word. -/
structure Headed (s : State) : Prop where
  not_load : ∀ width, s.code[0]? ≠ some (.load width)
  size_le : s.code.size ≤ s.words
  words_le : s.words ≤ s.limits.code.toNat

/-- What holds inside a function. -/
structure Inside (s : State) : Prop extends Headed s where
  size_pos : 0 < s.code.size

theorem code_of_layout (h : s'.layout = s.layout) : s'.code = s.code := congrArg Prod.fst h

theorem Grows.layout_eq {data : List UInt8} (h : Grows s s' [] data) : s'.layout = s.layout := by
  have hcode : s'.code = s.code := Array.toList_inj.mp (by rw [h.code_eq, List.append_nil])
  simp [State.layout, hcode, h.words_eq, h.limits_eq]

/-- What is said of a state depends on its layout alone. -/
class AboutCode (inv : State → Prop) : Prop where
  of_layout : ∀ {s s' : State}, s'.layout = s.layout → inv s → inv s'

instance : AboutCode Headed where
  of_layout h hs := by
    simp only [State.layout, Prod.mk.injEq] at h
    obtain ⟨hcode, hwords, hlimits⟩ := h
    refine ⟨hcode ▸ hs.not_load, ?_, ?_⟩
    · rw [hcode, hwords]
      exact hs.size_le
    · rw [hwords, hlimits]
      exact hs.words_le

instance : AboutCode Inside where
  of_layout h hs := ⟨AboutCode.of_layout h hs.toHeaded, code_of_layout h ▸ hs.size_pos⟩

namespace Inside

theorem size_lt (hs : Inside s) : s.code.size < UInt64.size :=
  (hs.size_le.trans hs.words_le).trans_lt s.limits.code.toNat_lt

/-- The index of the next instruction is no open target. -/
theorem ofNat_size_ne_zero (hs : Inside s) : UInt64.ofNat s.code.size ≠ 0 := by
  intro h
  have hsize := congrArg UInt64.toNat h
  rw [UInt64.toNat_ofNat_of_lt' hs.size_lt] at hsize
  exact hs.size_pos.ne' hsize

/-- A load that the code ends with is not its first instruction. -/
theorem one_lt_size {width : Width} (hs : Inside s) (h : s.code.back? = some (.load width)) :
    1 < s.code.size := by
  by_contra hsize
  have hone : s.code.size = 1 := by
    have := hs.size_pos
    omega
  rw [Array.back?, hone] at h
  exact hs.not_load width h

end Inside

/-! ## Single actions -/

/-- The same branches wait in both states, and the second is inside a function if the first is. -/
structure Undisturbed (s s' : State) : Prop where
  waits_iff : ∀ index condition, Waits s'.code index condition ↔ Waits s.code index condition
  inside : Inside s → Inside s'

theorem Undisturbed.of_layout (h : s'.layout = s.layout) : Undisturbed s s' :=
  ⟨fun _ _ => by rw [code_of_layout h], AboutCode.of_layout h⟩

theorem Undisturbed.trans (h : Undisturbed s s') (h' : Undisturbed s' s'') : Undisturbed s s'' :=
  ⟨fun index condition => (h'.waits_iff index condition).trans (h.waits_iff index condition),
    fun hs => h'.inside (h.inside hs)⟩

/-- The action neither begins nor ends the waiting of a branch, wherever it is taken. -/
def Tame (x : CompileM α) : Prop := ∀ s a s', x s = .ok a s' → Undisturbed s s'

theorem emit_code {i : Instr} {n : Nat} (h : emit i s = .ok n s') :
    n = s.code.size ∧ s'.code = s.code.push i := by
  obtain ⟨hn, hg, -⟩ := emit_ok h
  exact ⟨hn, Array.toList_inj.mp (by rw [hg.code_eq, Array.toList_push])⟩

/-- Whatever is emitted, the code is not empty then. -/
theorem Headed.push {i : Instr} (hs : Headed s)
    (hfit : s.words + i.words ≤ s.limits.code.toNat)
    (hi : s.code.size = 0 → ∀ width, i ≠ .load width) :
    Inside { s with code := s.code.push i, words := s.words + i.words } := by
  refine ⟨⟨fun width => ?_, ?_, hfit⟩, by simp⟩
  · rw [Array.getElem?_push]
    split_ifs with hzero
    · simpa using hi hzero.symm width
    · exact hs.not_load width
  · have hlength := length_le_wordCount [i]
    have hle := hs.size_le
    simp only [List.length_singleton, wordCount_cons, wordCount_nil] at hlength
    simp only [Array.size_push]
    omega

theorem Headed.emit {i : Instr} {n : Nat} (hs : Headed s) (h : emit i s = .ok n s')
    (hi : s.code.size = 0 → ∀ width, i ≠ .load width) : Inside s' := by
  rw [emit_apply] at h
  split_ifs at h with hfit
  cases h
  exact hs.push hfit hi

namespace Inside

/-- A state whose first instruction is the same. -/
theorem of_first (hs : Inside s) (hfirst : s'.code[0]? = s.code[0]?)
    (hsize : s'.code.size ≤ s'.words) (hwords : s'.words ≤ s'.limits.code.toNat) : Inside s' := by
  refine ⟨⟨fun width => hfirst ▸ hs.not_load width, hsize, hwords⟩, ?_⟩
  rw [Array.getElem?_eq_getElem hs.size_pos] at hfirst
  exact (Array.getElem?_eq_some_iff.mp hfirst).1

theorem emit {i : Instr} {n : Nat} (hs : Inside s) (h : emit i s = .ok n s') : Inside s' :=
  hs.toHeaded.emit h fun hsize => absurd hsize hs.size_pos.ne'

theorem patch (hs : Inside s) {index : Nat} {u : Unit} (h : patch index s = .ok u s') :
    Inside s' := by
  cases h
  refine ⟨⟨fun width hload => ?_, ?_, hs.words_le⟩, ?_⟩
  · rw [Array.getElem?_modify] at hload
    split_ifs at hload
    · obtain ⟨i, hi, hretarget⟩ := Option.map_eq_some_iff.mp hload
      cases i with
      | load w => exact hs.not_load w hi
      | _ => simp [retarget] at hretarget
    · exact hs.not_load width hload
  · simpa using hs.size_le
  · simpa using hs.size_pos

end Inside

section Steps

variable {ids : Set SymbolId} {x : CompileM α} {a : α}

theorem undisturbed_push {i : Instr} (hi : Complete i)
    (hfit : s.words + i.words ≤ s.limits.code.toNat) :
    Undisturbed s { s with code := s.code.push i, words := s.words + i.words } := by
  refine ⟨fun index condition => ?_, fun hs =>
    hs.toHeaded.push hfit fun hsize => absurd hsize hs.size_pos.ne'⟩
  rw [Waits, Waits, Array.getElem?_push]
  split_ifs with hindex
  · simp [hindex, hi condition]
  · rfl

theorem undisturbed_loadToPush {width : Width} (hback : s.code.back? = some (.load width)) :
    Undisturbed s { s with code := s.code.pop.push .push } := by
  obtain ⟨code, hcode⟩ := Array.back?_eq_some_iff.mp hback
  refine ⟨fun index condition => ?_, fun hs => hs.of_first ?_ ?_ hs.words_le⟩
  · simp only [Waits, hcode, Array.pop_push, Array.getElem?_push]
    split_ifs <;> simp
  · have hsize := hs.one_lt_size hback
    simp only [hcode, Array.size_push] at hsize
    simp only [hcode, Array.pop_push, Array.getElem?_push]
    rw [if_neg (by omega), if_neg (by omega)]
  · simpa [hcode] using hs.size_le

theorem undisturbed_dropLoad {width : Width} (hback : s.code.back? = some (.load width)) :
    Undisturbed s { s with code := s.code.pop, words := s.words - 1 } := by
  obtain ⟨code, hcode⟩ := Array.back?_eq_some_iff.mp hback
  refine ⟨fun index condition => ?_, fun hs =>
    hs.of_first ?_ ?_ ((Nat.sub_le _ _).trans hs.words_le)⟩
  · simp only [Waits, hcode, Array.pop_push, Array.getElem?_push]
    split_ifs with hindex
    · simp [hindex]
    · rfl
  · have hsize := hs.one_lt_size hback
    simp only [hcode, Array.size_push] at hsize
    simp only [hcode, Array.pop_push, Array.getElem?_push]
    rw [if_neg (by omega)]
  · have hsize := hs.size_le
    simp only [hcode, Array.size_push] at hsize
    simp only [hcode, Array.pop_push]
    omega

/-- An action that may not work on branches leaves those that wait alone. -/
theorem Composed.tame (h : Composed ⟨true, true, false⟩ ids x) : Tame x := fun s _ _ hx =>
  (h.path_ok hx).keep (P := Undisturbed s) (fun hstep hs => hs.trans <| by
    cases hstep with
    | emit hfit _ hi => exact undisturbed_push (hi.resolve_left Bool.false_ne_true) hfit
    | patch _ _ hp => cases hp
    | loadToPush hback => exact undisturbed_loadToPush hback
    | dropLoad hback => exact undisturbed_dropLoad hback
    | _ => exact .of_layout rfl) (.of_layout rfl)

theorem tame_advance : Tame advance := (Composed.advance : Composed _ ∅ advance).tame

theorem tame_current : Tame current := (Composed.basic .current : Composed _ ∅ current).tame

theorem tame_here : Tame here := (Composed.here : Composed _ ∅ here).tame

theorem tame_colon : Tame (expect .colon .colonExpected) :=
  (Composed.expect _ _ (by simp) : Composed _ ∅ (expect .colon .colonExpected)).tame

theorem tame_emit {i : Instr} (hi : Complete i) : Tame (emit i) :=
  (Composed.emit (.inr hi) : Composed _ ∅ (emit i)).tame

/-- An action that may not work on the code leaves it as it is. -/
theorem Composed.layout_eq (h : Composed ⟨true, false, false⟩ ids x) (hx : x s = .ok a s') :
    s'.layout = s.layout :=
  (h.path_ok hx).keep (P := fun t => t.layout = s.layout) (fun hstep hs => by
    cases hstep with
    | emit _ hp | patch _ _ hp | loadToPush _ hp | dropLoad _ hp => cases hp
    | _ => exact hs) rfl

theorem layout_advance {u : Unit} (h : advance s = .ok u s') : s'.layout = s.layout :=
  (advance_ok h).1.layout_eq

theorem layout_current {token : Token} (h : current s = .ok token s') : s'.layout = s.layout := by
  obtain ⟨-, rfl⟩ := current_eq_ok.mp h
  rfl

end Steps

theorem finish_layout {p : Program} (h : finish s = .ok p s') : s'.layout = s.layout := by
  obtain ⟨_, _, hget, h⟩ := bind_eq_ok.mp h
  obtain ⟨rfl, rfl⟩ := get_eq_ok.mp hget
  obtain ⟨_, s₁, hlist, h⟩ := bind_eq_ok.mp h
  have hlayout : s₁.layout = s.layout := (listBefore_ok hlist).1.layout_eq
  split at h
  · obtain ⟨-, rfl⟩ := pure_eq_ok.mp h
    exact hlayout
  · exact absurd h fail_ne_ok

/-! ## Constructs with branches -/

namespace Plan

/-- `else` and what follows it, with the branch that skips what comes before. -/
def elsePart (skipYes : Nat) : Plan Unit := do
  let skipNo ← emit (.branch .always 0)
  patch skipYes
  advance
  stmt
  patch skipNo

/-- `if` from behind its condition on. -/
def thenPart : Plan Unit := do
  let skipYes ← emit (.branch .ifZero 0)
  stmt
  if (← current) = .keyword .elseKw then elsePart skipYes else patch skipYes

/-- `while` from behind its condition on. -/
def loopPart (start : Nat) : Plan Unit := do
  let done ← emit (.branch .ifZero 0)
  stmt
  let _ ← emit (.branch .always (UInt64.ofNat start))
  patch done

/-- `?:` from behind the colon on, with the branch that skips what comes before. -/
def colonPart (skipYes : Nat) : Plan CType := do
  let skipNo ← emit (.branch .always 0)
  patch skipYes
  let type ← expr .cond
  patch skipNo
  return type

theorem ifStmt_eq : ifStmt = (do
    advance
    condition
    thenPart) := rfl

theorem whileStmt_eq : whileStmt = (do
    advance
    let start ← here
    condition
    loopPart start) := rfl

theorem conditional_eq : conditional = (do
    let skipYes ← emit (.branch .ifZero 0)
    let _ ← expr .assign
    expect .colon .colonExpected
    colonPart skipYes) := rfl

/-- The two ends of a branch. The first plan begins with its emission, as one of the constructs
`if`, `else`, `while`, `?:`, `&&` and `||` does. The second is what is left to be done of the same
construct when the branch at `index` gets its target. Behind the construct both go on alike. -/
inductive Skips {α : Type} (index : Nat) : Branch → Plan α → Plan α → Prop
  | ifThen (rest : Unit → Plan α) :
      Skips index .ifZero (thenPart >>= rest) ((do
        patch index : Plan Unit) >>= rest)
  | ifThenElse (skipNo : Nat) (rest : Unit → Plan α) :
      Skips index .ifZero (thenPart >>= rest) ((do
        patch index
        advance
        stmt
        patch skipNo : Plan Unit) >>= rest)
  | elseOf (skipYes : Nat) (rest : Unit → Plan α) :
      Skips index .always (elsePart skipYes >>= rest) ((do
        patch index : Plan Unit) >>= rest)
  | whileOf (start : Nat) (rest : Unit → Plan α) :
      Skips index .ifZero (loopPart start >>= rest) ((do
        patch index : Plan Unit) >>= rest)
  | questionMark (skipNo : Nat) (rest : CType → Plan α) :
      Skips index .ifZero (conditional >>= rest) ((do
        patch index
        let type ← expr .cond
        patch skipNo
        return type : Plan CType) >>= rest)
  | colon (skipYes : Nat) (type : CType) (rest : CType → Plan α) :
      Skips index .always (colonPart skipYes >>= rest) ((do
        patch index
        return type : Plan CType) >>= rest)
  | andAlso (rest : CType → Plan α) :
      Skips index .ifZero (shortCircuit .ifZero .andAlso >>= rest) ((do
        patch index
        return .int : Plan CType) >>= rest)
  | orElse (rest : CType → Plan α) :
      Skips index .ifNonzero (shortCircuit .ifNonzero .orElse >>= rest) ((do
        patch index
        return .int : Plan CType) >>= rest)

end Plan

/-- A branch that waits, with the plan that began with its emission. -/
structure Pending (α : Type) where
  index : Nat
  condition : Branch
  opening : Plan α

/-- What a loop keeps from one round to the next. -/
inductive Loop.Keeps : {β : Type} → Loop β → (State → Prop) → Prop
  | stars {inv : State → Prop} [AboutCode inv] : Keeps .stars inv
  | strings {inv : State → Prop} [AboutCode inv] : Keeps .strings inv
  | arguments : Keeps .arguments Inside
  | operators (prec : Prec) : Keeps (.operators prec) Inside
  | statements : Keeps .statements Inside
  | enumerators {inv : State → Prop} [AboutCode inv] : Keeps .enumerators inv
  | parameters {inv : State → Prop} [AboutCode inv] : Keeps .parameters inv
  | locals {inv : State → Prop} [AboutCode inv] (base : CType) : Keeps (.locals base) inv
  | localLines {inv : State → Prop} [AboutCode inv] : Keeps .localLines inv
  | declarators (base : CType) : Keeps (.declarators base) Headed
  | declarations : Keeps .declarations Headed

/-- The plan, carried out from the state on, gives a target to every branch that waits, and to every
one that it emits itself. -/
inductive Owes {α : Type} : Plan α → State → List (Pending α) → Prop
  | done (a : α) (s : State) : Owes (.done a) s []
  | keep {β : Type} {x : CompileM β} {rest : β → Plan α} {s : State} {pending : List (Pending α)}
      (hx : Tame x) (h : ∀ b s', x s = .ok b s' → Owes (rest b) s' pending) :
      Owes (.act x rest) s pending
  | emit {condition : Branch} {rest : Nat → Plan α} {s : State} {pending : List (Pending α)}
      (h : ∀ index s', emit (.branch condition 0) s = .ok index s' → Owes (rest index) s'
        (⟨index, condition, .act (emit (.branch condition 0)) rest⟩ :: pending)) :
      Owes (.act (emit (.branch condition 0)) rest) s pending
  | patch {index : Nat} {condition : Branch} {opening : Plan α} {rest : Unit → Plan α} {s : State}
      (before : List (Pending α)) {after : List (Pending α)} (hs : Inside s)
      (hskips : Plan.Skips index condition opening (.act (patch index) rest))
      (h : ∀ u s', patch index s = .ok u s' → Owes (rest u) s' (before ++ after)) :
      Owes (.act (patch index) rest) s (before ++ ⟨index, condition, opening⟩ :: after)
  | call {β : Type} {p : Procedure β} {rest : β → Plan α} {s : State} {pending : List (Pending α)}
      (hs : Inside s) (h : ∀ b s', Inside s' → Owes (rest b) s' pending) :
      Owes (.call p rest) s pending
  | leave {rest : Plan α} {s : State} {pending : List (Pending α)} (h : Owes rest s pending) :
      Owes (.leave rest) s pending
  | loop {β : Type} {inv : State → Prop} {l : Loop β} {b : β} {rest : β → Plan α} {s : State}
      {pending : List (Pending α)} (hl : l.Keeps inv) (hs : inv s)
      (h : ∀ b s', inv s' → Owes (rest b) s' pending) : Owes (.loop l b rest) s pending

/-- From a state of which `pre` holds the plan comes to one of which `post` holds. By then it has
given a target to all branches that it has emitted, and to no others. -/
def Repays (pre : State → Prop) (plan : Plan β) (post : State → Prop) : Prop :=
  ∀ (α : Type) (rest : β → Plan α) (s : State) (pending : List (Pending α)), pre s →
    (∀ b s', post s' → Owes (rest b) s' pending) → Owes (plan >>= rest) s pending

/-! ### Rules -/

namespace Repays

variable {inv pre mid post : State → Prop} {plan : Plan β} {x : CompileM β}

theorem done (b : β) : Repays pre (pure b) pre := fun _ _ s _ hs h => h b s hs

theorem seq {f : β → Plan γ} (hplan : Repays pre plan mid)
    (hf : ∀ b, Repays mid (f b) post) : Repays pre (plan >>= f) post :=
  fun α rest s pending hs h => by
    rw [Plan.bind_assoc]
    exact hplan α _ s pending hs fun b s' hmid => hf b α rest s' pending hmid h

theorem fail (reason : Reason) : Repays pre (liftM (Compile.fail reason : CompileM β)) post :=
  fun _ _ _ _ _ _ => .keep (fun _ _ _ h => absurd h fail_ne_ok) fun _ _ h => absurd h fail_ne_ok

theorem fail_seq (reason : Reason) {f : β → Plan γ} :
    Repays pre (liftM (Compile.fail reason : CompileM β) >>= f) post := by
  have hfail : Repays pre (liftM (Compile.fail reason : CompileM β)) fun _ => False :=
    .fail reason
  exact hfail.seq fun _ _ _ _ _ hs _ => hs.elim

/-- An action that does not work on branches. -/
theorem act (hx : Tame x) : Repays Inside (liftM x) Inside :=
  fun _ _ _ _ hs h => .keep hx fun b s' hb => h b s' ((hx _ _ _ hb).inside hs)

/-- An action that does not work on the code. -/
theorem quiet [AboutCode inv] (hx : ∀ {s b s'}, x s = .ok b s' → s'.layout = s.layout) :
    Repays inv (liftM x) inv := fun _ _ _ _ hs h =>
  .keep (fun _ _ _ hb => .of_layout (hx hb)) fun b s' hb => h b s' (AboutCode.of_layout (hx hb) hs)

theorem headed (h : Repays pre plan Inside) : Repays pre plan Headed :=
  fun α rest s pending hs hrest => h α rest s pending hs fun b s' hs' => hrest b s' hs'.toHeaded

/-- The first instruction of a function. -/
theorem enter (slots : Word) : Repays Headed (liftM (Compile.emit (.enter slots))) Inside :=
  fun _ _ _ _ hs h => .keep (tame_emit (by simp [Complete])) fun b s' hb =>
    h b s' (hs.emit hb (by simp))

/-- Calls and loops may be relied on to do what their bodies are to be shown to do. -/
theorem expr (prec : Prec) : Repays Inside (Plan.expr prec) Inside :=
  fun _ _ _ _ hs h => .call hs h

theorem stmt : Repays Inside Plan.stmt Inside := fun _ _ _ _ hs h => .call hs h

theorem repeated {l : Loop β} (hl : l.Keeps inv) (b : β) :
    Repays inv (Plan.repeated l b) inv := fun _ _ _ _ hs h => .loop hl hs h

/-! ### Constructs with branches -/

theorem shortCircuit {condition : Branch} {prec : Prec}
    (h : ∀ {α : Type} (index : Nat) (rest : CType → Plan α), Plan.Skips index condition
      (Plan.shortCircuit condition prec >>= rest) ((do
        patch index
        return .int : Plan CType) >>= rest)) :
    Repays Inside (Plan.shortCircuit condition prec) Inside := by
  intro α rest s pending hs hrest
  refine .emit fun index s₁ h₁ => .call (hs.emit h₁) fun _ s₂ hs₂ => ?_
  refine .patch [] hs₂ (h index rest) fun _ s₃ h₃ => ?_
  exact hrest _ s₃ (hs₂.patch h₃)

section Parts

variable {α : Type} {s : State} {pending : List (Pending α)}

/-- The second branch of `?:` is emitted while the first one waits. -/
theorem owes_colonPart {rest : CType → Plan α} {skipYes : Nat} (hs : Inside s)
    (hrest : ∀ type s', Inside s' → Owes (rest type) s' pending) :
    Owes (Plan.colonPart skipYes >>= rest) s
      (⟨skipYes, .ifZero, Plan.conditional >>= rest⟩ :: pending) := by
  refine .emit fun skipNo s₁ h₁ => ?_
  have hs₁ := hs.emit h₁
  refine .patch [_] hs₁ (.questionMark skipNo rest) fun _ s₂ h₂ => ?_
  refine .call (hs₁.patch h₂) fun type s₃ hs₃ => ?_
  refine .patch [] hs₃ (.colon skipYes type rest) fun _ s₄ h₄ => ?_
  exact hrest type s₄ (hs₃.patch h₄)

theorem owes_elsePart {rest : Unit → Plan α} {skipYes : Nat} (hs : Inside s)
    (hrest : ∀ u s', Inside s' → Owes (rest u) s' pending) :
    Owes (Plan.elsePart skipYes >>= rest) s
      (⟨skipYes, .ifZero, Plan.thenPart >>= rest⟩ :: pending) := by
  refine .emit fun skipNo s₁ h₁ => ?_
  have hs₁ := hs.emit h₁
  refine .patch [_] hs₁ (.ifThenElse skipNo rest) fun _ s₂ h₂ => ?_
  refine .keep tame_advance fun _ s₃ h₃ => ?_
  have hs₃ := (tame_advance _ _ _ h₃).inside (hs₁.patch h₂)
  refine .call hs₃ fun _ s₄ hs₄ => ?_
  refine .patch [] hs₄ (.elseOf skipYes rest) fun _ s₅ h₅ => ?_
  exact hrest _ s₅ (hs₄.patch h₅)

end Parts

theorem conditional : Repays Inside Plan.conditional Inside := by
  intro α rest s pending hs hrest
  rw [Plan.conditional_eq]
  refine .emit fun skipYes s₁ h₁ => .call (hs.emit h₁) fun _ s₂ hs₂ => ?_
  refine .keep tame_colon fun _ s₃ h₃ => ?_
  exact owes_colonPart ((tame_colon _ _ _ h₃).inside hs₂) hrest

theorem thenPart : Repays Inside Plan.thenPart Inside := by
  intro α rest s pending hs hrest
  refine .emit fun skipYes s₁ h₁ => .call (hs.emit h₁) fun _ s₂ hs₂ => ?_
  refine .keep tame_current fun token s₃ h₃ => ?_
  have hs₃ := (tame_current _ _ _ h₃).inside hs₂
  -- One branch waits here in both cases; with an `else` its target is not known yet.
  show Owes ((if token = .keyword .elseKw then Plan.elsePart skipYes
    else liftM (patch skipYes) : Plan Unit) >>= rest) s₃ _
  split_ifs
  · exact owes_elsePart hs₃ hrest
  · refine .patch [] hs₃ (.ifThen rest) fun _ s₄ h₄ => ?_
    exact hrest _ s₄ (hs₃.patch h₄)

theorem loopPart {start : Nat} (hstart : UInt64.ofNat start ≠ 0) :
    Repays Inside (Plan.loopPart start) Inside := by
  intro α rest s pending hs hrest
  refine .emit fun done s₁ h₁ => .call (hs.emit h₁) fun _ s₂ hs₂ => ?_
  have hback : Complete (.branch .always (UInt64.ofNat start)) := by simp [Complete, hstart]
  refine .keep (tame_emit hback) fun _ s₃ h₃ => ?_
  have hs₃ := hs₂.emit h₃
  refine .patch [] hs₃ (.whileOf start rest) fun _ s₄ h₄ => ?_
  exact hrest _ s₄ (hs₃.patch h₄)

/-- The start of a loop stands behind the first instruction of its function. -/
theorem whileStmt (hcondition : Repays Inside Plan.condition Inside) :
    Repays Inside Plan.whileStmt Inside := by
  rw [Plan.whileStmt_eq]
  refine .seq (.act tame_advance) fun _ α rest s pending hs hrest => ?_
  refine .keep tame_here fun start s₁ h₁ => ?_
  obtain ⟨rfl, rfl⟩ := here_eq_ok.mp h₁
  exact hcondition.seq (fun _ => .loopPart hs.ofNat_size_ne_zero) α rest s pending hs hrest

theorem ifStmt (hcondition : Repays Inside Plan.condition Inside) :
    Repays Inside Plan.ifStmt Inside := by
  rw [Plan.ifStmt_eq]
  exact .seq (.act tame_advance) fun _ => hcondition.seq fun _ => .thenPart

end Repays

/-! ## Both judgements -/

/-- The plan does what the action does, at its cost, and gives a target to all branches that it
emits. From a state of which `inv` holds it comes to one of which `inv'` holds. -/
structure Realizes (ids : Set SymbolId) (levels : Nat) (inv : State → Prop) (pre : Token → Prop)
    (plan : Plan α) (x : CompileM α) (post : Token → Prop) (inv' : State → Prop) (c : Int) (e : Nat)
    : Prop extends Performs ids levels pre plan x post c e where
  repays : Repays inv plan inv'

namespace Realizes

variable {ids : Set SymbolId} {levels : Nat} {inv inv' mid : State → Prop} {pre post : Token → Prop}
  {plan : Plan α} {x : CompileM α} {c d : Int} {e k : Nat}

theorem mono (hle : c ≤ d ∧ e ≤ k) (h : Realizes ids levels inv pre plan x post inv' c e) :
    Realizes ids levels inv pre plan x post inv' d k := ⟨h.toPerforms.mono hle, h.repays⟩

theorem headed (h : Realizes ids levels inv pre plan x post Inside c e) :
    Realizes ids levels inv pre plan x post Headed c e := ⟨h.toPerforms, h.repays.headed⟩

theorem done (a : α) : Realizes ids levels inv pre (pure a) (pure a) anyToken inv 0 0 :=
  ⟨.done a, .done a⟩

theorem fail (reason : Reason) (h : reason ≠ .mainNotDefined) :
    Realizes ids levels inv pre (liftM (Compile.fail reason : CompileM α)) (Compile.fail reason)
      post inv' c (e + 1) := ⟨.fail reason h, .fail reason⟩

theorem fail_seq (reason : Reason) (h : reason ≠ .mainNotDefined) {f : α → Plan β}
    {g : α → CompileM β} : Realizes ids levels inv pre
      (liftM (Compile.fail reason : CompileM α) >>= f) (Compile.fail reason >>= g) post inv' c
      (e + 1) := ⟨.fail_seq reason h, .fail_seq reason⟩

theorem act (hx : Brief true false ids x) :
    Realizes ids levels Inside pre (liftM x) x anyToken Inside 1 1 :=
  ⟨.act hx.permitted, .act hx.composed.tame⟩

theorem emit {i : Instr} (hi : Complete i) :
    Realizes ids levels Inside pre (liftM (Compile.emit i)) (Compile.emit i) anyToken Inside 1 1 :=
  .act (.emit (.inr hi))

theorem emitAll {code : List Instr} (h : ∀ i ∈ code, Complete i) :
    Realizes ids levels Inside pre (liftM (Compile.emitAll code)) (Compile.emitAll code) anyToken
      Inside 1 1 := .act (.still (.emitAll fun i hi => .inr (h i hi)))

/-- The first instruction of a function. -/
theorem enter (slots : Word) : Realizes ids levels Headed pre (liftM (Compile.emit (.enter slots)))
    (Compile.emit (.enter slots)) anyToken Inside 1 1 := ⟨.act (.emit (.inl rfl)), .enter slots⟩

section Quiet

variable [AboutCode inv]

theorem quiet (hx : Brief false false ids x) :
    Realizes ids levels inv pre (liftM x) x anyToken inv 1 1 :=
  ⟨.act hx.permitted, .quiet hx.composed.layout_eq⟩

theorem stay (hx : Composed ⟨false, false, false⟩ ids x) :
    Realizes ids levels inv pre (liftM x) x pre inv 1 1 :=
  ⟨.stay (hx.mono ⟨id, fun _ => rfl, fun _ => rfl⟩ subset_rfl),
    .quiet (Brief.still hx).composed.layout_eq⟩

theorem move (hx : Brief false false ids x) (hmoves : Moves pre x) :
    Realizes ids levels inv pre (liftM x) x anyToken inv (-31) 1 :=
  ⟨.move hx.permitted hmoves, .quiet hx.composed.layout_eq⟩

theorem advance {t : Token} (ht : t ≠ .eof) : Realizes ids levels inv (· = t)
    (liftM Compile.advance) Compile.advance anyToken inv (-31) 1 :=
  .move .advance (moves_advance ht.symm)

/-- A look at the token, and what is done with it. -/
theorem looked {f : Token → Plan β} {g : Token → CompileM β}
    (hg : ∀ token, Composed .all (ids ∪ token.names) (g token))
    (hf : ∀ token, pre token → Performs (ids ∪ token.names) levels (· = token) (f token) (g token)
      post c e) (hrepays : ∀ token, Repays inv (f token) inv') :
    Realizes ids levels inv pre (liftM Compile.current >>= f) (Compile.current >>= g) post inv'
      (c + 1) (e + 1) :=
  ⟨.looked hg hf, .seq (.quiet layout_current) hrepays⟩

theorem current {f : Token → Plan β} {g : Token → CompileM β}
    (hf : ∀ token, Realizes (ids ∪ token.names) levels inv (· = token) (f token) (g token) post inv'
      c e) :
    Realizes ids levels inv pre (liftM Compile.current >>= f) (Compile.current >>= g) post inv'
      (c + 1) (e + 1) :=
  .looked (fun token => (hf token).composed) (fun token _ => (hf token).toPerforms)
    fun token => (hf token).repays

end Quiet

theorem seq {pos : Token → Prop} {f : α → Plan β} {g : α → CompileM β}
    (hx : Realizes ids levels inv pre plan x pos mid c e)
    (hf : ∀ a, Realizes ids levels mid pos (f a) (g a) post inv' d k) :
    Realizes ids levels inv pre (plan >>= f) (x >>= g) post inv' (c + d) (max e (c + k).toNat) :=
  ⟨hx.toPerforms.seq fun a => (hf a).toPerforms, hx.repays.seq fun a => (hf a).repays⟩

section Loops

variable {l : Loop β} {round : β → CompileM β} (hl : l.Keeps inv) (hc : c < 0)
  (hbody : ∀ b, Realizes ids levels inv (l.more · = true) (l.body b) (round b) anyToken inv c e)
include hl hc hbody

theorem begun (hpre : ∀ t, pre t → l.more t = true) (b : β) :
    Realizes ids levels inv pre (Plan.repeated l b) (whileToken l.more round b) (l.more · = false)
      inv (c + 2) (e + 1) :=
  ⟨.begun hpre hc (fun b => (hbody b).toPerforms) b, .repeated hl b⟩

theorem upTo (b : β) :
    Realizes ids levels inv pre (Plan.repeated l b) (whileToken l.more round b) (l.more · = false)
      inv 1 (e + 1) := ⟨.upTo hc (fun b => (hbody b).toPerforms) b, .repeated hl b⟩

theorem repeated (b : β) :
    Realizes ids levels inv pre (Plan.repeated l b) (whileToken l.more round b) anyToken inv 1
      (e + 1) := ⟨.repeated hc (fun b => (hbody b).toPerforms) b, .repeated hl b⟩

end Loops

end Realizes

end MiniC.Compile
