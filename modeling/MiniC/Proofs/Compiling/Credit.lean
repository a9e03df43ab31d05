import MiniC.Proofs.Compiling.Plans

/-!
# What it costs to carry out a plan

Every lexeme pays for 32 steps. A plan `Performs` an action that is composed of the basic ones when
carrying it out does what the action does, at a cost that the lexemes it moves over pay for: `c`
steps more at most, where a negative `c` is what is left of the payment. A run that fails may cost
what all lexemes left could pay, and `e` steps more.

Of every configuration on the way the judgement says too that it is `Sound`: no more than
`maxNesting` calls are open, the next step moves over one lexeme at most, and a loop that goes on
makes progress. The rules follow the ways to build a plan. A loop costs nothing but the last look at
the token when every round of it leaves something (`Performs.repeated`), so that is also how it is
known to end.
-/

namespace MiniC.Compile

variable {α β γ : Type} {ids : Set SymbolId} {levels : Nat}

/-! ## Runs -/

namespace Config

variable {i j : Nat} {c c' c'' : Config α} {outcome : Outcome α}

/-- Where a loop goes on, its body by itself comes to an end, and if that is not an error, it has
moved over a lexeme. -/
def Progresses : Config α → Prop
  | ⟨depth, .loop l b _, s⟩ => l.more s.current = true →
    ∃ steps outcome, run steps ⟨depth, l.body b, s⟩ = .inl outcome ∧
      ∀ b' s', outcome = .ok b' s' → s'.left < s.left
  | _ => True

/-- What holds wherever the run of a source comes by. -/
structure Sound (c : Config α) : Prop where
  /-- Statements and expressions are not nested deeper. -/
  depth_le : c.depth ≤ maxNesting
  /-- A step moves over one lexeme at most. -/
  left_le : ∀ c', c.step = .inr c' → c.state.left ≤ c'.state.left + 1
  progresses : c.Progresses

/-- So many steps lead from one configuration to another, through sound ones. -/
inductive Leads : Nat → Config α → Config α → Prop
  | refl (c : Config α) : Leads 0 c c
  | cons {c c' c'' : Config α} {j : Nat} (hc : c.Sound) (hstep : c.step = .inr c')
      (h : Leads j c' c'') : Leads (j + 1) c c''

/-- A run ends at its so-many-th step, through sound configurations. -/
inductive Ends : Nat → Config α → Outcome α → Prop
  | last {c : Config α} {outcome : Outcome α} (hc : c.Sound) (hstep : c.step = .inl outcome) :
      Ends 1 c outcome
  | cons {c c' : Config α} {outcome : Outcome α} {j : Nat} (hc : c.Sound)
      (hstep : c.step = .inr c') (h : Ends j c' outcome) : Ends (j + 1) c outcome

theorem Leads.single (hc : c.Sound) (hstep : c.step = .inr c') : Leads 1 c c' :=
  .cons hc hstep (.refl c')

theorem Leads.trans (h : Leads i c c') (h' : Leads j c' c'') : Leads (i + j) c c'' := by
  induction h with
  | refl => rwa [Nat.zero_add]
  | cons hc hstep _ ih =>
    rw [Nat.add_right_comm]
    exact .cons hc hstep (ih h')

theorem Leads.ends (h : Leads i c c') (h' : Ends j c' outcome) : Ends (i + j) c outcome := by
  induction h with
  | refl => rwa [Nat.zero_add]
  | cons hc hstep _ ih =>
    rw [Nat.add_right_comm]
    exact .cons hc hstep (ih h')

/-- A run that has ended stays so. -/
theorem Ends.run_eq (h : Ends j c outcome) (hj : j ≤ i) : c.run i = .inl outcome := by
  induction h generalizing i with
  | last _ hstep =>
    obtain ⟨i, rfl⟩ := Nat.exists_eq_add_of_le' hj
    rw [run, hstep]
  | cons _ hstep _ ih =>
    obtain ⟨i, rfl⟩ : ∃ k, i = k + 1 := ⟨i - 1, by omega⟩
    rw [run, hstep]
    exact ih (by omega)

/-- A run that ends passes sound configurations only. -/
theorem Ends.sound (h : Ends j c outcome) (hrun : c.run i = .inr c') : c'.Sound := by
  induction h generalizing i with
  | last hc hstep =>
    cases i with
    | zero =>
      cases hrun
      exact hc
    | succ i =>
      rw [run, hstep] at hrun
      cases hrun
  | cons hc hstep _ ih =>
    cases i with
    | zero =>
      cases hrun
      exact hc
    | succ i =>
      rw [run, hstep] at hrun
      exact ih hrun

theorem sound_done {depth : Nat} {a : α} {s : State} (h : depth ≤ maxNesting) :
    Sound ⟨depth, .done a, s⟩ :=
  ⟨h, (fun _ hstep => nomatch (hstep : Sum.inl _ = Sum.inr _)), trivial⟩

section Action

variable {β : Type} {x : CompileM β} {rest : β → Plan α} {depth : Nat} {s s' : State}

theorem step_act_ok {b : β} (h : x s = .ok b s') :
    step ⟨depth, .act x rest, s⟩ = .inr ⟨depth, rest b, s'⟩ := by
  simp only [step, h]

theorem step_act_error {err : CompileError} (h : x s = .error err s') :
    step ⟨depth, .act x rest, s⟩ = .inl (.error err s') := by
  simp only [step, h]

theorem sound_act (hdepth : depth ≤ maxNesting)
    (hleft : ∀ {b s'}, x s = .ok b s' → s.left ≤ s'.left + 1) :
    Sound ⟨depth, .act x rest, s⟩ := by
  refine ⟨hdepth, fun c' hstep => ?_, trivial⟩
  cases hx : x s with
  | error err s' =>
    rw [step_act_error hx] at hstep
    cases hstep
  | ok b s' =>
    rw [step_act_ok hx] at hstep
    cases hstep
    exact hleft hx

end Action

end Config

/-! ## Plans in sequence -/

namespace Plan

theorem bind_assoc (p : Plan α) (f : α → Plan β) (g : β → Plan γ) :
    (p >>= f) >>= g = p >>= fun a => f a >>= g := by
  show (p.bind f).bind g = p.bind fun a => (f a).bind g
  induction p with
  | done a => rfl
  | act x rest ih | call p rest ih | loop l b rest ih => simp only [bind, ih]
  | leave rest ih => simp only [bind, ih]

theorem bind_done (p : Plan α) : p >>= done = p := by
  show p.bind done = p
  induction p with
  | done a => rfl
  | act x rest ih | call p rest ih | loop l b rest ih => simp only [bind, ih]
  | leave rest ih => simp only [bind, ih]

end Plan

/-! ## Single actions -/

/-- An action of a single step: it moves over one lexeme at most. -/
structure Brief (edits branches : Bool) (ids : Set SymbolId) (x : CompileM α) : Prop where
  composed : Composed ⟨true, edits, branches⟩ ids x
  left_le : ∀ {s a s'}, x s = .ok a s' → s.left ≤ s'.left + 1

namespace Brief

variable {edits branches : Bool} {x : CompileM α} {f : α → CompileM β}

/-- An action that stays where it is, and what is done behind it. -/
theorem behind (hx : Composed ⟨false, edits, branches⟩ ids x)
    (hf : ∀ a, Brief edits branches ids (f a)) : Brief edits branches ids (x >>= f) := by
  refine ⟨.seq (hx.mono ⟨fun _ => rfl, id, id⟩ subset_rfl) fun a => (hf a).composed,
    fun {s b s'} h => ?_⟩
  obtain ⟨a, s₁, h₁, h₂⟩ := bind_eq_ok.mp h
  have hrest : s₁.rest.items = s.rest.items := congrArg Syntax.Stream.rest (hx.stream_eq rfl h₁)
  have hleft := (hf a).left_le h₂
  rwa [State.left, hrest] at hleft

theorem pure (a : α) : Brief edits branches ids (pure a : CompileM α) :=
  ⟨.pure a, fun {s _ s'} h => by
    obtain ⟨-, rfl⟩ := pure_eq_ok.mp h
    exact Nat.le_succ _⟩

theorem still (hx : Composed ⟨false, edits, branches⟩ ids x) : Brief edits branches ids x := by
  rw [← bind_pure x]
  exact .behind hx .pure

theorem current : Brief true true ∅ Compile.current := .still (.basic .current)

theorem look {f : Token → CompileM α} (hf : ∀ token, Brief edits branches ids (f token)) :
    Brief edits branches ids (Compile.current >>= f) :=
  .behind (.basic .current) hf

/-- An action of a single step, and one that stays where it has stopped. -/
theorem ahead (hx : Brief edits branches ids x)
    (hf : ∀ a, Composed ⟨false, edits, branches⟩ ids (f a)) :
    Brief edits branches ids (x >>= f) := by
  refine ⟨hx.composed.seq fun a => (hf a).mono ⟨fun _ => rfl, id, id⟩ subset_rfl,
    fun {s b s'} h => ?_⟩
  obtain ⟨a, s₁, h₁, h₂⟩ := bind_eq_ok.mp h
  have hrest : s'.rest.items = s₁.rest.items :=
    congrArg Syntax.Stream.rest ((hf a).stream_eq rfl h₂)
  have hleft := hx.left_le h₁
  rwa [State.left, State.left, ← hrest] at hleft

theorem advance : Brief edits branches ids advance := by
  refine ⟨.advance, fun {s u s'} h => ?_⟩
  obtain ⟨-, hread⟩ := advance_ok h
  cases hrest : s.rest.items with
  | nil => simp [State.left, hrest]
  | cons lexeme items =>
    simp only [Syntax.Parser.advance, State.stream, hrest] at hread
    cases htoken : lexeme.token with
    | error reason => simp [htoken] at hread
    | ok token =>
      simp only [htoken, Option.some.injEq, Prod.mk.injEq, Syntax.Stream.mk.injEq] at hread
      simp [State.left, hrest, ← hread.2.2]

theorem expect (token : Token) (reason : Reason) (h : reason ≠ .mainNotDefined) :
    Brief edits branches ids (expect token reason) := by
  refine .look fun t => ?_
  split
  · exact .advance
  · exact .still (.fail reason h)

theorem skipOver (token : Token) : Brief edits branches ids (skipOver token) := by
  refine .look fun t => ?_
  split
  · exact .advance
  · exact .pure _

theorem semicolon : Brief edits branches ids semicolon :=
  .behind .currentName fun _ => .expect _ _ (by simp)

theorem baseType? : Brief edits branches ids baseType? := by
  refine .look fun t => ?_
  split
  · exact .ahead .advance fun _ => .pure _
  · exact .ahead .advance fun _ => .pure _
  · exact .pure _

theorem baseType : Brief edits branches ids baseType := .ahead .baseType? fun _ => .pure _

theorem emit {i : Instr} (hi : branches = true ∨ Complete i) : Brief true branches ids (emit i) :=
  .still (.emit hi)

theorem patch (index : Nat) : Brief edits true ids (patch index) := .still (.patch index)

theorem permitted (hx : Brief edits branches ids x) : Brief true true ids x :=
  ⟨hx.composed.mono (Permit.le_all _) subset_rfl, hx.left_le⟩

end Brief

theorem moves_baseType :
    Moves (fun t => t = .keyword .intKw ∨ t = .keyword .charKw) baseType := by
  have hadvances : Moves (fun t => t = .keyword .intKw ∨ t = .keyword .charKw) advance :=
    moves_advance (by simp)
  intro s type _ hs ht h
  obtain ⟨base, s₁, hbase, h⟩ := bind_eq_ok.mp h
  obtain ⟨-, rfl⟩ := pure_eq_ok.mp h
  obtain ⟨_, _, hcurrent, hbase⟩ := bind_eq_ok.mp hbase
  obtain ⟨rfl, rfl⟩ := current_eq_ok.mp hcurrent
  have hmoved : ∃ u, advance s = .ok u s₁ := by
    rcases ht with ht | ht <;>
    · simp only [ht] at hbase
      obtain ⟨u, _, hadvance, hbase⟩ := bind_eq_ok.mp hbase
      obtain ⟨-, rfl⟩ := pure_eq_ok.mp hbase
      exact ⟨u, hadvance⟩
  obtain ⟨u, hadvance⟩ := hmoved
  exact hadvances hs ht hadvance

/-! ## The judgement -/

/-- The plan leads from the one state to the other, and the lexemes between them pay for its steps
but for `c` of them. -/
structure Paid (levels : Nat) (plan : Plan α) (c : Int) (s : State) (a : α) (s' : State) :
    Prop where
  left_le : 32 * s'.left ≤ c + 32 * s.left
  leads : ∀ {γ : Type} (rest : α → Plan γ) {depth : Nat}, depth + levels = maxNesting →
    ∃ j : Nat, j + 32 * s'.left ≤ c + 32 * s.left ∧
      Config.Leads j ⟨depth, plan >>= rest, s⟩ ⟨depth, rest a, s'⟩

/-- At a token of which `pre` holds, the plan does what the action does, and a token of which `post`
holds is the current one then. -/
structure Performs (ids : Set SymbolId) (levels : Nat) (pre : Token → Prop) (plan : Plan α)
    (x : CompileM α) (post : Token → Prop) (c : Int) (e : Nat) : Prop where
  composed : Composed .all ids x
  ok : ∀ {s s' : State} {a : α}, Closed s → pre s.current → x s = .ok a s' →
    post s'.current ∧ Paid levels plan c s a s'
  error : ∀ {γ : Type} (rest : α → Plan γ) {depth : Nat} {s s' : State} {err : CompileError},
    depth + levels = maxNesting → Closed s → pre s.current → x s = .error err s' →
      ∃ j ≤ e + 32 * s.left, Config.Ends j ⟨depth, plan >>= rest, s⟩ (.error err s')

namespace Paid

variable {plan : Plan α} {c d : Int} {s s' s'' : State} {a : α}

theorem mono (h : Paid levels plan c s a s') (hle : c ≤ d) : Paid levels plan d s a s' where
  left_le := h.left_le.trans (by omega)
  leads rest _ hdepth := by
    obtain ⟨j, hj, hleads⟩ := h.leads rest hdepth
    exact ⟨j, by omega, hleads⟩

theorem seq {f : α → Plan β} {b : β} (h : Paid levels plan c s a s')
    (h' : Paid levels (f a) d s' b s'') : Paid levels (plan >>= f) (c + d) s b s'' where
  left_le := by
    have hleft := h.left_le
    have hleft' := h'.left_le
    omega
  leads rest _ hdepth := by
    obtain ⟨i, hi, hfirst⟩ := h.leads (fun a => f a >>= rest) hdepth
    obtain ⟨j, hj, hsecond⟩ := h'.leads rest hdepth
    rw [Plan.bind_assoc]
    exact ⟨i + j, by omega, hfirst.trans hsecond⟩

/-- A single action. -/
theorem act {x : CompileM α} (hx : Brief true true ids x) (h : x s = .ok a s') {c : Int}
    (hc : 1 + 32 * s'.left ≤ c + 32 * s.left) : Paid levels (liftM x) c s a s' where
  left_le := by omega
  leads rest _ hdepth :=
    ⟨1, hc, .single (Config.sound_act (by omega) hx.left_le) (Config.step_act_ok h)⟩

end Paid

namespace Performs

variable {pre post : Token → Prop} {plan : Plan α} {x : CompileM α} {c d : Int} {e k : Nat}

/-- What leaves something of what its lexemes pay has moved over one. -/
theorem moves (h : Performs ids levels pre plan x post c e) (hc : c < 0) : Moves pre x :=
  fun _ _ _ hs hpre hx => by
    have hleft := (h.ok hs hpre hx).2.left_le
    omega

theorem advances (h : Performs ids levels anyToken plan x post c e) (hc : c < 0) :
    Advances ids x := ⟨h.composed, h.moves hc⟩

theorem mono (hle : c ≤ d ∧ e ≤ k) (h : Performs ids levels pre plan x post c e) :
    Performs ids levels pre plan x post d k where
  composed := h.composed
  ok hs hpre hx := (h.ok hs hpre hx).imp_right (·.mono hle.1)
  error rest _ _ _ _ hdepth hs hpre hx := by
    obtain ⟨j, hj, hends⟩ := h.error rest hdepth hs hpre hx
    exact ⟨j, by omega, hends⟩

theorem done (a : α) : Performs ids levels pre (pure a) (pure a) anyToken 0 0 where
  composed := .pure a
  ok hs _ hx := by
    obtain ⟨rfl, rfl⟩ := pure_eq_ok.mp hx
    exact ⟨trivial, by omega, fun rest _ _ => ⟨0, by omega, .refl _⟩⟩
  error _ _ _ _ _ _ _ _ hx := nomatch hx

/-- A failure costs its step only, and nothing behind it is done. -/
theorem fail (reason : Reason) (h : reason ≠ .mainNotDefined) :
    Performs ids levels pre (liftM (Compile.fail reason : CompileM α)) (Compile.fail reason) post c
      (e + 1) where
  composed := .fail reason h
  ok _ _ hx := absurd hx fail_ne_ok
  error rest depth s s' err hdepth _ _ hx :=
    ⟨1, by omega, .last (Config.sound_act (by omega) fun h => absurd h fail_ne_ok)
      (Config.step_act_error hx)⟩

theorem fail_seq (reason : Reason) (h : reason ≠ .mainNotDefined) {f : α → Plan β}
    {g : α → CompileM β} : Performs ids levels pre
      (liftM (Compile.fail reason : CompileM α) >>= f) (Compile.fail reason >>= g) post c
      (e + 1) where
  composed := .fail_seq reason h
  ok _ _ hx := absurd (bind_eq_ok.mp hx) fun ⟨_, _, h, _⟩ => fail_ne_ok h
  error rest depth s s' err hdepth hs hpre hx := by
    rw [bind_of_error (fail_apply reason s)] at hx
    cases hx
    rw [Plan.bind_assoc]
    have hfail : Performs ids levels pre (liftM (Compile.fail reason : CompileM α))
        (Compile.fail reason) pre 0 (e + 1) := fail reason h
    exact hfail.error _ hdepth hs hpre (fail_apply reason s)

theorem ends_act {rest : α → Plan γ} {depth : Nat} {s s' : State} {err : CompileError}
    (hx : Brief true true ids x) (hdepth : depth + levels = maxNesting) (h : x s = .error err s') :
    Config.Ends 1 ⟨depth, (liftM x : Plan α) >>= rest, s⟩ (.error err s') :=
  .last (Config.sound_act (by omega) hx.left_le) (Config.step_act_error h)

/-- A single action, wherever it may stop. -/
theorem act (hx : Brief true true ids x) :
    Performs ids levels pre (liftM x) x anyToken 1 1 where
  composed := hx.composed
  ok _ _ hok := by
    have hleft := (hx.composed.steps_ok hok).left_le
    exact ⟨trivial, .act hx hok (by omega)⟩
  error rest depth s s' err hdepth _ _ herror := ⟨1, by omega, ends_act hx hdepth herror⟩

/-- A single action that stays at its token. -/
theorem stay (hx : Composed ⟨false, true, true⟩ ids x) :
    Performs ids levels pre (liftM x) x pre 1 1 where
  composed := (Brief.still hx).composed
  ok {s s' a} hs hpre hok := by
    have hcurrent : s'.current = s.current :=
      congrArg Syntax.Stream.current (hx.stream_eq rfl hok)
    have hact : Performs ids levels pre (liftM x) x anyToken 1 1 := act (.still hx)
    exact ⟨hcurrent ▸ hpre, (hact.ok hs hpre hok).2⟩
  error := (act (.still hx)).error

/-- A single action that moves over the token it is at. -/
theorem move (hx : Brief true true ids x) (hmoves : Moves pre x) :
    Performs ids levels pre (liftM x) x anyToken (-31) 1 where
  composed := hx.composed
  ok hs hpre hok := by
    have hleft := hmoves hs hpre hok
    exact ⟨trivial, .act hx hok (by omega)⟩
  error := (act hx).error

theorem seq {mid : Token → Prop} {f : α → Plan β} {g : α → CompileM β}
    (hx : Performs ids levels pre plan x mid c e)
    (hf : ∀ a, Performs ids levels mid (f a) (g a) post d k) :
    Performs ids levels pre (plan >>= f) (x >>= g) post (c + d) (max e (c + k).toNat) where
  composed := hx.composed.seq fun a => (hf a).composed
  ok hs hpre hok := by
    obtain ⟨a, s₁, h₁, h₂⟩ := bind_eq_ok.mp hok
    obtain ⟨hmid, hpaid⟩ := hx.ok hs hpre h₁
    obtain ⟨hpost, hpaid'⟩ := (hf a).ok ((hx.composed.steps_ok h₁).closed hs) hmid h₂
    exact ⟨hpost, hpaid.seq hpaid'⟩
  error rest depth s s' err hdepth hs hpre herror := by
    rw [Plan.bind_assoc]
    cases h₁ : x s with
    | error err₁ s₁ =>
      rw [bind_of_error h₁] at herror
      cases herror
      obtain ⟨i, hi, hends⟩ := hx.error (fun a => f a >>= rest) hdepth hs hpre h₁
      exact ⟨i, by omega, hends⟩
    | ok a s₁ =>
      rw [bind_of_ok h₁] at herror
      obtain ⟨hmid, hpaid⟩ := hx.ok hs hpre h₁
      obtain ⟨i, hi, hfirst⟩ := hpaid.leads (fun a => f a >>= rest) hdepth
      obtain ⟨j, hj, hends⟩ :=
        (hf a).error rest hdepth ((hx.composed.steps_ok h₁).closed hs) hmid herror
      exact ⟨i + j, by omega, hfirst.ends hends⟩

/-- A look at the token, and what is done with it. -/
theorem looked {f : Token → Plan β} {g : Token → CompileM β}
    (hg : ∀ token, Composed .all (ids ∪ token.names) (g token))
    (hf : ∀ token, pre token → Performs (ids ∪ token.names) levels (· = token) (f token) (g token)
      post c e) :
    Performs ids levels pre (liftM Compile.current >>= f) (Compile.current >>= g) post (c + 1)
      (e + 1) where
  composed := .current hg
  ok {s s' b} hs hpre hok := by
    obtain ⟨hpost, hpaid⟩ := (hf s.current hpre).ok hs rfl hok
    have hlook : Paid levels (liftM Compile.current) 1 s s.current s :=
      .act Brief.current (current_eq_ok.mpr ⟨rfl, rfl⟩) le_rfl
    exact ⟨hpost, (hlook.seq hpaid).mono (by omega)⟩
  error rest depth s s' err hdepth hs hpre herror := by
    obtain ⟨j, hj, hends⟩ := (hf s.current hpre).error rest hdepth hs rfl herror
    have hlook : Config.Leads 1 ⟨depth, (liftM Compile.current : Plan Token) >>= fun token =>
        f token >>= rest, s⟩ ⟨depth, f s.current >>= rest, s⟩ :=
      .single (Config.sound_act (by omega) Brief.current.left_le)
        (Config.step_act_ok (current_eq_ok.mpr ⟨rfl, rfl⟩))
    exact ⟨1 + j, by omega, hlook.ends hends⟩

theorem current {f : Token → Plan β} {g : Token → CompileM β}
    (hf : ∀ token, Performs (ids ∪ token.names) levels (· = token) (f token) (g token) post c e) :
    Performs ids levels pre (liftM Compile.current >>= f) (Compile.current >>= g) post (c + 1)
      (e + 1) := .looked (fun token => (hf token).composed) fun token _ => hf token

/-! ### Loops -/

section Loops

variable {l : Loop β} {round : β → CompileM β} {depth : Nat} {s s' : State} {b b' : β}
  (rest : β → Plan γ)

/-- One round of a loop that leaves something of what its lexemes pay ends, with a lexeme less. -/
theorem progresses
    (hbody : ∀ b, Performs ids levels (l.more · = true) (l.body b) (round b) anyToken c e)
    (hc : c < 0) (hdepth : depth + levels = maxNesting) (hs : Closed s) :
    Config.Progresses ⟨depth, .loop l b rest, s⟩ := by
  intro hmore
  cases hround : round b s with
  | error err s' =>
    obtain ⟨j, -, hends⟩ := (hbody b).error .done hdepth hs hmore hround
    rw [Plan.bind_done] at hends
    exact ⟨j, _, hends.run_eq le_rfl, by simp⟩
  | ok b' s' =>
    obtain ⟨j, hj, hleads⟩ := ((hbody b).ok hs hmore hround).2.leads .done hdepth
    rw [Plan.bind_done] at hleads
    have hends : Config.Ends (j + 1) ⟨depth, l.body b, s⟩ (.ok b' s') :=
      hleads.ends (.last (Config.sound_done (by omega)) rfl)
    refine ⟨j + 1, _, hends.run_eq le_rfl, fun _ _ h => ?_⟩
    cases h
    omega

theorem step_loop (h : l.more s.current = true) : Config.step ⟨depth, .loop l b rest, s⟩ =
    .inr ⟨depth, l.body b >>= fun b => .loop l b rest, s⟩ := by
  simp only [Config.step, h, if_true]

theorem step_loop_of_not (h : l.more s.current = false) :
    Config.step ⟨depth, .loop l b rest, s⟩ = .inr ⟨depth, rest b, s⟩ := by
  simp only [Config.step, h, Bool.false_eq_true, if_false]

theorem sound_loop
    (hbody : ∀ b, Performs ids levels (l.more · = true) (l.body b) (round b) anyToken c e)
    (hc : c < 0) (hdepth : depth + levels = maxNesting) (hs : Closed s) :
    Config.Sound ⟨depth, .loop l b rest, s⟩ := by
  refine ⟨by simp only; omega, fun c' hstep => ?_, progresses rest hbody hc hdepth hs⟩
  cases hmore : l.more s.current with
  | true =>
    rw [step_loop rest hmore] at hstep
    cases hstep
    simp
  | false =>
    rw [step_loop_of_not rest hmore] at hstep
    cases hstep
    simp

theorem cond_le {more : Bool} (hc : c < 0) : (bif more then c + 2 else 1) ≤ 1 := by
  cases more with
  | false => exact le_rfl
  | true =>
    rw [cond_true]
    omega

/-- Every round is paid for, so only the end of the loop is to be paid. The lexemes left bound the
rounds, since each leaves fewer. -/
theorem loop_ok
    (hbody : ∀ b, Performs ids levels (l.more · = true) (l.body b) (round b) anyToken c e)
    (hc : c < 0) (hs : Closed s) {fuel : Nat} (hfuel : s.left < fuel)
    (h : loop l.more round fuel b s = .ok b' s') :
    l.more s'.current = false ∧
      Paid levels (Plan.repeated l b) (bif l.more s.current then c + 2 else 1) s b' s' := by
  induction fuel generalizing s b with
  | zero => omega
  | succ fuel ih =>
    have hsound : ∀ {γ : Type} (rest : β → Plan γ) {depth : Nat}, depth + levels = maxNesting →
        Config.Sound ⟨depth, .loop l b rest, s⟩ :=
      fun rest _ hdepth => sound_loop rest hbody hc hdepth hs
    cases hmore : l.more s.current with
    | false =>
      rw [loop_succ_of_not_more hmore] at h
      cases h
      refine ⟨hmore, by simp, fun rest depth hdepth => ⟨1, by simp, ?_⟩⟩
      exact .single (hsound rest hdepth) (step_loop_of_not rest hmore)
    | true =>
      rw [loop_succ_of_more hmore] at h
      obtain ⟨b₁, s₁, h₁, h₂⟩ := bind_eq_ok.mp h
      have hround := ((hbody b).ok hs hmore h₁).2
      have hleft := hround.left_le
      obtain ⟨hstop, hrest⟩ :=
        ih (((hbody b).composed.steps_ok h₁).closed hs) (by omega) h₂
      have hle : (bif l.more s₁.current then c + 2 else 1) ≤ 1 := cond_le hc
      have hleft' := hrest.left_le
      refine ⟨hstop, by simp only [cond_true]; omega, fun rest depth hdepth => ?_⟩
      obtain ⟨i, hi, hfirst⟩ := hround.leads (.loop l · rest) hdepth
      obtain ⟨j, hj, hsecond⟩ := hrest.leads rest hdepth
      refine ⟨1 + i + j, by simp only [cond_true]; omega, ?_⟩
      exact ((Config.Leads.single (hsound rest hdepth) (step_loop rest hmore)).trans hfirst).trans
        hsecond

theorem loop_error {err : CompileError}
    (hbody : ∀ b, Performs ids levels (l.more · = true) (l.body b) (round b) anyToken c e)
    (hc : c < 0) (hdepth : depth + levels = maxNesting) (hs : Closed s) {fuel : Nat}
    (h : loop l.more round fuel b s = .error err s') :
    ∃ j ≤ e + 1 + 32 * s.left, Config.Ends j ⟨depth, .loop l b rest, s⟩ (.error err s') := by
  have hsound : Config.Sound ⟨depth, .loop l b rest, s⟩ := sound_loop rest hbody hc hdepth hs
  induction fuel generalizing s b with
  | zero => cases h
  | succ fuel ih =>
    cases hmore : l.more s.current with
    | false =>
      rw [loop_succ_of_not_more hmore] at h
      cases h
    | true =>
      have hstep := Config.Leads.single hsound (step_loop rest hmore)
      rw [loop_succ_of_more hmore] at h
      cases h₁ : round b s with
      | error err₁ s₁ =>
        rw [bind_of_error h₁] at h
        cases h
        obtain ⟨i, hi, hround⟩ := (hbody b).error (.loop l · rest) hdepth hs hmore h₁
        exact ⟨1 + i, by omega, hstep.ends hround⟩
      | ok b₁ s₁ =>
        rw [bind_of_ok h₁] at h
        have hs₁ := ((hbody b).composed.steps_ok h₁).closed hs
        obtain ⟨i, hi, hround⟩ := ((hbody b).ok hs hmore h₁).2.leads (.loop l · rest) hdepth
        obtain ⟨j, hj, hends⟩ := ih hs₁ h (sound_loop rest hbody hc hdepth hs₁)
        exact ⟨1 + i + j, by omega, (hstep.trans hround).ends hends⟩

/-- A loop that has a first round. -/
theorem begun (hpre : ∀ t, pre t → l.more t = true) (hc : c < 0)
    (hbody : ∀ b, Performs ids levels (l.more · = true) (l.body b) (round b) anyToken c e) (b : β) :
    Performs ids levels pre (Plan.repeated l b) (whileToken l.more round b) (l.more · = false)
      (c + 2) (e + 1) where
  composed := .whileToken (fun b => (hbody b).composed) (fun b => (hbody b).moves hc) b
  ok hs hcurrent hok := by
    rw [whileToken_apply] at hok
    have hend := loop_ok hbody hc hs (Nat.lt_succ_self _) hok
    rwa [hpre _ hcurrent, cond_true] at hend
  error rest depth s s' err hdepth hs _ herror := by
    rw [whileToken_apply] at herror
    exact loop_error rest hbody hc hdepth hs herror

/-- A loop each round of which leaves something of what its lexemes pay, up to the token that it
stops at. -/
theorem upTo (hc : c < 0)
    (hbody : ∀ b, Performs ids levels (l.more · = true) (l.body b) (round b) anyToken c e) (b : β) :
    Performs ids levels pre (Plan.repeated l b) (whileToken l.more round b) (l.more · = false) 1
      (e + 1) where
  composed := .whileToken (fun b => (hbody b).composed) (fun b => (hbody b).moves hc) b
  ok {s _ _} hs _ hok := by
    rw [whileToken_apply] at hok
    obtain ⟨hstop, hpaid⟩ := loop_ok hbody hc hs (Nat.lt_succ_self _) hok
    exact ⟨hstop, hpaid.mono (cond_le hc)⟩
  error rest depth s s' err hdepth hs _ herror := by
    rw [whileToken_apply] at herror
    exact loop_error rest hbody hc hdepth hs herror

theorem repeated (hc : c < 0)
    (hbody : ∀ b, Performs ids levels (l.more · = true) (l.body b) (round b) anyToken c e) (b : β) :
    Performs ids levels pre (Plan.repeated l b) (whileToken l.more round b) anyToken 1 (e + 1) where
  composed := .whileToken (fun b => (hbody b).composed) (fun b => (hbody b).moves hc) b
  ok hs hpre hok := ⟨trivial, ((upTo hc hbody b).ok hs hpre hok).2⟩
  error := (upTo hc hbody b).error

end Loops

/-! ### Calls -/

section Calls

variable {p : Procedure β} {x : CompileM β}

theorem sound_call {rest : β → Plan γ} {depth : Nat} {s : State} (h : depth ≤ maxNesting) :
    Config.Sound ⟨depth, .call p rest, s⟩ := by
  refine ⟨h, fun c' hstep => ?_, trivial⟩
  simp only [Config.step] at hstep
  split at hstep
  · cases hstep
    simp
  · cases hstep

theorem leads_call {rest : β → Plan γ} {depth : Nat} {s : State} (h : depth < maxNesting) :
    Config.Leads 1 ⟨depth, .call p rest, s⟩
      ⟨depth + 1, p.body >>= fun b => .leave (rest b), s⟩ := by
  refine .single (sound_call h.le) ?_
  simp only [Config.step, if_pos h]

theorem leads_leave {rest : Plan γ} {depth : Nat} {s : State} (h : depth < maxNesting) :
    Config.Leads 1 ⟨depth + 1, .leave rest, s⟩ ⟨depth, rest, s⟩ := by
  refine .single ⟨h, fun c' hstep => ?_, trivial⟩ rfl
  cases hstep
  simp

/-- A call, which takes one step into the body and one out of it. -/
theorem nested (hbody : Performs ids levels anyToken p.body x anyToken c e) :
    Performs ids (levels + 1) pre (.call p .done) x anyToken (c + 2) (e + 1) where
  composed := hbody.composed
  ok hs _ hok := by
    obtain ⟨-, hpaid⟩ := hbody.ok hs trivial hok
    have hleft := hpaid.left_le
    refine ⟨trivial, by omega, fun rest depth hdepth => ?_⟩
    obtain ⟨j, hj, hleads⟩ := hpaid.leads (fun b => .leave (rest b))
      (show depth + 1 + levels = maxNesting by omega)
    refine ⟨1 + j + 1, by omega, ?_⟩
    exact ((leads_call (by omega)).trans hleads).trans (leads_leave (by omega))
  error rest depth s s' err hdepth hs _ herror := by
    obtain ⟨j, hj, hends⟩ := hbody.error (fun b => .leave (rest b))
      (show depth + 1 + levels = maxNesting by omega) hs trivial herror
    exact ⟨1 + j, by omega, (leads_call (by omega)).ends hends⟩

/-- A call where no more may be open. -/
theorem too_deep : Performs ids 0 pre (.call p .done)
    (Compile.fail (.nestingTooDeep maxNesting)) post c 1 where
  composed := .fail _ (by simp)
  ok _ _ hx := absurd hx fail_ne_ok
  error rest depth s s' err hdepth _ _ hx := by
    cases hx
    have hfull : ¬ depth < maxNesting := by omega
    refine ⟨1, by omega, .last (sound_call (by omega)) ?_⟩
    show Config.step ⟨depth, .call p rest, s⟩ = _
    simp only [Config.step, if_neg hfull]

end Calls

end Performs

end MiniC.Compile
