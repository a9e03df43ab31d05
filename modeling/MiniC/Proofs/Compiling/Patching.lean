import MiniC.Proofs.Compiling.Placeholders
import MiniC.Proofs.Compiling.Termination

/-!
# Every branch gets its target

While a source is compiled, a list is kept of the branches that wait for their target, with the step
that each was emitted in (`Ledger`). A step can do three things to it (`Evolves`): leave it as it
is, add the branch that is emitted, or take off the one that gets its target. What stands in the
code without a target is on the list, and nothing else is. At the end of a source the list is empty.
-/

namespace MiniC.Compile

variable {α : Type}

/-! ## One step -/

/-- What a step does to the branches that wait. -/
inductive Evolves (c : Config α) (s' : State) : List (Pending α) → List (Pending α) → Prop
  | keep {pending : List (Pending α)} (h : Undisturbed c.state s') : Evolves c s' pending pending
  | emit {pending : List (Pending α)} {condition : Branch}
      (h : s'.code = c.state.code.push (.branch condition 0)) :
      Evolves c s' pending (⟨c.state.code.size, condition, c.plan⟩ :: pending)
  | patch {before after : List (Pending α)} {p : Pending α} (hs : Inside c.state)
      (hskips : Plan.Skips p.index p.condition p.opening c.plan)
      (h : s'.code = c.state.code.modify p.index (retarget (UInt64.ofNat c.state.code.size))) :
      Evolves c s' (before ++ p :: after) (before ++ after)

theorem Owes.step {c c' : Config α} {pending : List (Pending α)}
    (h : Owes c.plan c.state pending) (hstep : c.step = .inr c') :
    ∃ pending', Owes c'.plan c'.state pending' ∧ Evolves c c'.state pending pending' := by
  obtain ⟨depth, plan, s⟩ := c
  have hsame : Undisturbed s s := .of_layout rfl
  cases h with
  | done a s => cases hstep
  | @keep β x rest s pending hx h =>
    cases hb : x s with
    | error err s' =>
      rw [Config.step_act_error hb] at hstep
      cases hstep
    | ok b s' =>
      rw [Config.step_act_ok hb] at hstep
      cases hstep
      exact ⟨pending, h b s' hb, .keep (hx s b s' hb)⟩
  | @emit condition rest s pending h =>
    cases hb : Compile.emit (.branch condition 0) s with
    | error err s' =>
      rw [Config.step_act_error hb] at hstep
      cases hstep
    | ok index s' =>
      rw [Config.step_act_ok hb] at hstep
      cases hstep
      obtain ⟨rfl, hcode⟩ := emit_code hb
      exact ⟨_, h _ s' hb, .emit hcode⟩
  | @patch index condition opening rest s before after hs hskips h =>
    cases hstep
    exact ⟨_, h () _ rfl, .patch hs hskips rfl⟩
  | @call β p rest s pending hs h =>
    simp only [Config.step] at hstep
    split_ifs at hstep
    cases hstep
    exact ⟨pending, p.repays_body α _ s pending hs fun b s' hs' => .leave (h b s' hs'),
      .keep hsame⟩
  | @leave rest s pending h =>
    cases hstep
    exact ⟨pending, h, .keep hsame⟩
  | @loop β inv l b rest s pending hl hs h =>
    cases hmore : l.more s.current with
    | true =>
      rw [Performs.step_loop rest hmore] at hstep
      cases hstep
      exact ⟨pending, hl.repays_body b α _ s pending hs fun b s' hs' => .loop hl hs' h,
        .keep hsame⟩
    | false =>
      rw [Performs.step_loop_of_not rest hmore] at hstep
      cases hstep
      exact ⟨pending, h b s hs, .keep hsame⟩

theorem waits_push {code : Array Instr} {condition condition' : Branch} {index : Nat} :
    Waits (code.push (.branch condition 0)) index condition' ↔
      (index = code.size ∧ condition = condition') ∨ Waits code index condition' := by
  rw [Waits, Waits, Array.getElem?_push]
  split_ifs with hindex
  · simp [hindex]
  · simp [hindex]

/-- A branch that has its target waits no more. -/
theorem waits_modify {code : Array Instr} {condition : Branch} {index index' : Nat}
    {target : UInt64} (htarget : target ≠ 0) :
    Waits (code.modify index (retarget target)) index' condition ↔
      index' ≠ index ∧ Waits code index' condition := by
  rw [Waits, Waits, Array.getElem?_modify]
  split_ifs with hindex
  · have hopen : ∀ i, retarget target i ≠ .branch condition 0 := by
      intro i
      cases i <;> simp [retarget, htarget]
    simp [hindex, hopen]
  · simp [Ne.symm hindex]

/-- The list is that of the branches that wait in the code. -/
structure Accounted (code : Array Instr) (pending : List (Pending α)) : Prop where
  waits_iff : ∀ index condition, Waits code index condition ↔
    ∃ p ∈ pending, p.index = index ∧ p.condition = condition
  nodup : (pending.map Pending.index).Nodup

theorem Accounted.waits {code : Array Instr} {pending : List (Pending α)}
    (h : Accounted code pending) {p : Pending α} (hp : p ∈ pending) :
    Waits code p.index p.condition :=
  (h.waits_iff _ _).mpr ⟨p, hp, rfl, rfl⟩

theorem Evolves.lists {c : Config α} {s' : State} {pending pending' : List (Pending α)}
    (h : Evolves c s' pending pending') (hlists : Accounted c.state.code pending) :
    Accounted s'.code pending' := by
  cases h with
  | keep h =>
    exact ⟨fun index condition => (h.waits_iff index condition).trans
      (hlists.waits_iff index condition), hlists.nodup⟩
  | emit h =>
    rw [h]
    refine ⟨fun index condition => ?_, List.nodup_cons.mpr ⟨fun hmem => ?_, hlists.nodup⟩⟩
    · rw [waits_push, hlists.waits_iff]
      simp [eq_comm]
    · obtain ⟨p, hp, hindex⟩ := List.mem_map.mp hmem
      exact (hlists.waits hp).lt_size.ne hindex
  | @patch before after p hs hskips h =>
    have hnodup := hlists.nodup
    rw [List.map_append, List.map_cons, List.nodup_middle, ← List.map_append,
      List.nodup_cons] at hnodup
    rw [h]
    refine ⟨fun index condition => ?_, hnodup.2⟩
    rw [waits_modify hs.ofNat_size_ne_zero, hlists.waits_iff]
    constructor
    · rintro ⟨hne, q, hq, rfl, rfl⟩
      refine ⟨q, ?_, rfl, rfl⟩
      rcases List.perm_middle.mem_iff.mp hq
      · exact absurd rfl hne
      · assumption
    · rintro ⟨q, hq, rfl, rfl⟩
      refine ⟨fun heq => hnodup.1 (heq ▸ List.mem_map_of_mem hq), q, ?_, rfl, rfl⟩
      exact List.perm_middle.mem_iff.mpr (List.mem_cons_of_mem p hq)

namespace Evolves

variable {c : Config α} {s' : State} {pending pending' : List (Pending α)} {p : Pending α}

/-- A branch that waits behind the step has waited before, or the step has emitted it. -/
theorem old_or_new (h : Evolves c s' pending pending') (hp : p ∈ pending') :
    p ∈ pending ∨ p.index = c.state.code.size ∧ p.opening = c.plan := by
  cases h with
  | keep => exact .inl hp
  | emit =>
    rcases List.mem_cons.mp hp with rfl | hp
    · exact .inr ⟨rfl, rfl⟩
    · exact .inl hp
  | patch => exact .inl (List.perm_middle.mem_iff.mpr (List.mem_cons_of_mem _ hp))

/-- A branch that has waited before goes on waiting, or the step gives it its target. -/
theorem waits_or_skips (h : Evolves c s' pending pending') (hp : p ∈ pending) :
    p ∈ pending' ∨ Plan.Skips p.index p.condition p.opening c.plan := by
  cases h with
  | keep => exact .inl hp
  | emit => exact .inl (List.mem_cons_of_mem _ hp)
  | patch _ hskips =>
    rcases List.mem_cons.mp (List.perm_middle.mem_iff.mp hp) with rfl | hp
    · exact .inr hskips
    · exact .inl hp

/-- A branch that is emitted without a target is added. -/
theorem mem_of_emit {condition : Branch} {index : Nat} (h : Evolves c s' pending pending')
    (hemit : Compile.emit (.branch condition 0) c.state = .ok index s') :
    (⟨c.state.code.size, condition, c.plan⟩ : Pending α) ∈ pending' := by
  have hcode := (emit_code hemit).2
  cases h with
  | keep h =>
    have hwaits : Waits s'.code c.state.code.size condition := by
      rw [hcode, waits_push]
      exact .inl ⟨rfl, rfl⟩
    exact absurd ((h.waits_iff _ _).mp hwaits).lt_size (Nat.lt_irrefl _)
  | @emit _ condition' h =>
    obtain ⟨hi, -⟩ := Array.push_eq_push.mp (hcode.symm.trans h)
    cases hi
    exact List.mem_cons_self
  | patch _ _ h =>
    have hsize := congrArg Array.size (hcode.symm.trans h)
    simp at hsize

end Evolves

/-! ## Runs -/

namespace Config

theorem run_succ (first : Config α) (n : Nat) :
    first.run (n + 1) = Sum.elim .inl step (first.run n) := by
  induction n generalizing first with
  | zero =>
    simp only [run, Sum.elim_inr]
    cases first.step <;> rfl
  | succ n ih =>
    rw [run]
    cases hstep : first.step with
    | inl outcome => simp [run, hstep]
    | inr c =>
      simp only [ih c]
      rw [run, hstep]

theorem run_succ_of_inr {first c : Config α} {n : Nat} (h : first.run n = .inr c) :
    first.run (n + 1) = c.step := by
  rw [run_succ, h, Sum.elim_inr]

theorem run_of_inl {first : Config α} {outcome : Outcome α} {m n : Nat}
    (h : first.run m = .inl outcome) (hle : m ≤ n) : first.run n = .inl outcome := by
  induction n, hle using Nat.le_induction with
  | base => exact h
  | succ n _ ih => rw [run_succ, ih, Sum.elim_inl]

/-- A run ends with a value where nothing is left to be done. -/
theorem eq_of_step_ok {c : Config α} {a : α} {s : State} (h : c.step = .inl (.ok a s)) :
    c = ⟨c.depth, .done a, s⟩ := by
  obtain ⟨depth, plan, s₁⟩ := c
  cases plan with
  | done b =>
    cases h
    rfl
  | @act β x rest =>
    cases hx : x s₁ with
    | ok b s₂ =>
      rw [step_act_ok hx] at h
      cases h
    | error err s₂ =>
      rw [step_act_error hx] at h
      cases h
  | call p rest =>
    simp only [step] at h
    split_ifs at h
    cases h
  | leave rest => cases h
  | loop l b rest =>
    simp only [step] at h
    split_ifs at h

/-- The step in front of the end. There are no steps behind it. -/
theorem exists_done {first : Config α} {a : α} {s : State} {j : Nat}
    (h : first.run j = .inl (.ok a s)) : ∃ n depth, first.run n = .inr ⟨depth, .done a, s⟩ ∧
      ∀ m c, first.run m = .inr c → m ≤ n := by
  induction j with
  | zero => cases h
  | succ j ih =>
    cases hj : first.run j with
    | inl outcome => exact ih (hj.trans ((run_of_inl hj j.le_succ).symm.trans h))
    | inr c =>
      have hstep := (run_succ_of_inr hj).symm.trans h
      refine ⟨j, c.depth, hj.trans (congrArg Sum.inr (eq_of_step_ok hstep)), fun m c' hm => ?_⟩
      by_contra hlt
      rw [run_of_inl h (Nat.lt_of_not_le hlt)] at hm
      cases hm

end Config

/-! ## The steps of a source -/

/-- The branch was emitted in step `m` and has waited since, up to step `n`. -/
structure WaitsFrom (first : Config α) (m n : Nat) (p : Pending α) : Prop where
  lt : m < n
  emitted : ∃ depth s, first.run m = .inr ⟨depth, p.opening, s⟩ ∧ s.code.size = p.index
  waits : ∀ l c, m < l → l ≤ n → first.run l = .inr c →
    c.state.code[p.index]? = some (.branch p.condition 0)

/-- A branch that is emitted at `index` in step `m` gets its target in step `n`, and both is done
for the same construct. It waits at that place all the time in between. -/
structure Patched (first : Config α) (m n index : Nat) (condition : Branch) : Prop where
  lt : m < n
  construct : ∃ opening closing depth depth' s s', Plan.Skips index condition opening closing ∧
    first.run m = .inr ⟨depth, opening, s⟩ ∧ s.code.size = index ∧
    first.run n = .inr ⟨depth', closing, s'⟩
  waits : ∀ l c, m < l → l ≤ n → first.run l = .inr c →
    c.state.code[index]? = some (.branch condition 0)

theorem waitsFrom_succ {first c c' : Config α} {n : Nat} {p : Pending α}
    (hrun : first.run n = .inr c) (hrun' : first.run (n + 1) = .inr c')
    (hindex : p.index = c.state.code.size) (hopening : p.opening = c.plan)
    (hwaits : Waits c'.state.code p.index p.condition) : WaitsFrom first n (n + 1) p := by
  refine ⟨n.lt_succ_self, ⟨c.depth, c.state, hopening ▸ hrun, hindex.symm⟩, ?_⟩
  intro l c₁ hl hle hrun₁
  obtain rfl : l = n + 1 := by omega
  rw [hrun'] at hrun₁
  cases hrun₁
  exact hwaits

theorem WaitsFrom.succ {first c : Config α} {m n : Nat} {p : Pending α}
    (h : WaitsFrom first m n p) (hrun : first.run (n + 1) = .inr c)
    (hc : Waits c.state.code p.index p.condition) : WaitsFrom first m (n + 1) p := by
  refine ⟨h.lt.trans n.lt_succ_self, h.emitted, fun l c' hl hle hrun' => ?_⟩
  rcases Nat.le_succ_iff.mp hle with hle | rfl
  · exact h.waits l c' hl hle hrun'
  · rw [hrun] at hrun'
    cases hrun'
    exact hc

theorem WaitsFrom.patched {first c : Config α} {m n : Nat} {p : Pending α}
    (h : WaitsFrom first m n p) (hrun : first.run n = .inr c)
    (hskips : Plan.Skips p.index p.condition p.opening c.plan) :
    Patched first m n p.index p.condition := by
  obtain ⟨depth, s, hm, hsize⟩ := h.emitted
  exact ⟨h.lt, ⟨_, _, _, c.depth, s, c.state, hskips, hm, hsize, hrun⟩, h.waits⟩

/-- The branches that wait in step `n`, and what has become of the others. -/
structure Ledger (first : Config α) (n : Nat) (c : Config α) (pending : List (Pending α)) :
    Prop where
  owes : Owes c.plan c.state pending
  lists : Accounted c.state.code pending
  since : ∀ p ∈ pending, ∃ m, WaitsFrom first m n p
  emitted : ∀ m < n, ∀ depth condition rest s,
    first.run m = .inr ⟨depth, .act (emit (.branch condition 0)) rest, s⟩ →
      (∃ p ∈ pending, p.index = s.code.size ∧ p.condition = condition ∧ WaitsFrom first m n p) ∨
        ∃ n' < n, Patched first m n' s.code.size condition

theorem Ledger.step {first c c' : Config α} {n : Nat} {pending : List (Pending α)}
    (h : Ledger first n c pending) (hrun : first.run n = .inr c) (hstep : c.step = .inr c') :
    ∃ pending', Ledger first (n + 1) c' pending' := by
  obtain ⟨pending', howes, hevolves⟩ := h.owes.step hstep
  have hlists := hevolves.lists h.lists
  have hrun' : first.run (n + 1) = .inr c' := (Config.run_succ_of_inr hrun).trans hstep
  refine ⟨pending', howes, hlists, fun p hp => ?_, fun m hm depth condition rest s hemit => ?_⟩
  · have hwaits := hlists.waits hp
    rcases hevolves.old_or_new hp with hold | ⟨hindex, hopening⟩
    · obtain ⟨m, hfrom⟩ := h.since p hold
      exact ⟨m, hfrom.succ hrun' hwaits⟩
    · exact ⟨n, waitsFrom_succ hrun hrun' hindex hopening hwaits⟩
  · rcases Nat.lt_succ_iff_lt_or_eq.mp hm with hm | rfl
    · rcases h.emitted m hm depth condition rest s hemit with
        ⟨p, hp, hindex, hcondition, hfrom⟩ | ⟨n', hn', hpatched⟩
      · rcases hevolves.waits_or_skips hp with hp' | hskips
        · exact .inl ⟨p, hp', hindex, hcondition, hfrom.succ hrun' (hlists.waits hp')⟩
        · exact .inr ⟨n, n.lt_succ_self, hindex ▸ hcondition ▸ hfrom.patched hrun hskips⟩
      · exact .inr ⟨n', hn'.trans n.lt_succ_self, hpatched⟩
    · obtain rfl : c = _ := Sum.inr.inj (hrun.symm.trans hemit)
      cases hb : emit (.branch condition 0) s with
      | error err s' =>
        rw [Config.step_act_error hb] at hstep
        cases hstep
      | ok index s' =>
        rw [Config.step_act_ok hb] at hstep
        cases hstep
        have hp := hevolves.mem_of_emit hb
        exact .inl ⟨_, hp, rfl, rfl, waitsFrom_succ hrun hrun' rfl rfl (hlists.waits hp)⟩

theorem Ledger.run {first : Config α} (h : Ledger first 0 first []) :
    ∀ n c, first.run n = .inr c → ∃ pending, Ledger first n c pending := by
  intro n
  induction n with
  | zero =>
    intro c hrun
    cases hrun
    exact ⟨[], h⟩
  | succ n ih =>
    intro c' hrun'
    cases hrun : first.run n with
    | inl outcome =>
      rw [Config.run_of_inl hrun n.le_succ] at hrun'
      cases hrun'
    | inr c =>
      obtain ⟨pending, hledger⟩ := ih c hrun
      exact hledger.step hrun ((Config.run_succ_of_inr hrun).symm.trans hrun')

theorem ledger_start (source : List UInt8) (limits : Limits) (listing : Option Sink) :
    Ledger (Config.ofSource source limits listing) 0 (Config.ofSource source limits listing)
      [] := by
  have hcode : (start source limits listing).code = #[] := rfl
  refine ⟨?_, ⟨fun index condition => ?_, List.nodup_nil⟩, by simp, by simp⟩
  · have hheaded : Headed (start source limits listing) :=
      ⟨by simp [hcode], Nat.zero_le _, Nat.zero_le _⟩
    have howes := Repays.program Program .done (start source limits listing) [] hheaded
      fun p s _ => .done p s
    rwa [Plan.bind_done] at howes
  · simp [Config.ofSource, Waits, hcode]

/-! ## Targets -/

/-- There is code in which any number of branches wait. -/
theorem exists_waiting (s : State) (bound : Nat) : ∃ t : State,
    (∀ index < bound, Waits t.code index .always) ∧ UInt64.ofNat t.code.size ≠ 0 := by
  obtain ⟨n, hn, hne⟩ : ∃ n, bound ≤ n ∧ UInt64.ofNat n ≠ 0 := by
    by_cases hzero : UInt64.ofNat bound = 0
    · refine ⟨bound + 1, bound.le_succ, ?_⟩
      rw [UInt64.ofNat_add, hzero]
      decide
    · exact ⟨bound, le_rfl, hzero⟩
  refine ⟨{ s with code := Array.replicate n (.branch .always 0) }, fun index hindex => ?_, ?_⟩
  · simp [Waits, hindex.trans_le hn]
  · simpa using hne

theorem not_tame_patch (s : State) (index : Nat) : ¬ Tame (patch index) := by
  intro h
  obtain ⟨t, hwaits, hne⟩ := exists_waiting s (index + 1)
  have hwaits' := ((h t () _ rfl).waits_iff index .always).mpr (hwaits index index.lt_succ_self)
  exact ((waits_modify hne).mp hwaits').1 rfl

theorem patch_injective (s : State) {i j : Nat} (h : patch i = patch j) : i = j := by
  obtain ⟨t, hwaits, hne⟩ := exists_waiting s (i + 1)
  by_contra hij
  have hcode : t.code.modify i (retarget (UInt64.ofNat t.code.size)) =
      t.code.modify j (retarget (UInt64.ofNat t.code.size)) := by
    have happly := congrFun h t
    rw [patch_apply, patch_apply] at happly
    injection happly with _ hstate
    exact congrArg State.code hstate
  have hwaits' := (waits_modify hne).mpr ⟨hij, hwaits i i.lt_succ_self⟩
  rw [← hcode] at hwaits'
  exact ((waits_modify hne).mp hwaits').1 rfl

theorem Owes.of_done {a : α} {s : State} {pending : List (Pending α)}
    (h : Owes (.done a) s pending) : pending = [] := by
  cases h
  rfl

/-- What is patched is one of the branches that wait. -/
theorem Owes.of_patch {s : State} {index : Nat} {rest : Unit → Plan α} {pending : List (Pending α)}
    (h : Owes (.act (Compile.patch index) rest) s pending) :
    ∃ p ∈ pending, p.index = index ∧
      Plan.Skips index p.condition p.opening (.act (Compile.patch index) rest) := by
  generalize hplan : Plan.act (Compile.patch index) rest = plan at h
  cases h with
  | keep hx =>
    cases hplan
    exact absurd hx (not_tame_patch s index)
  | emit =>
    -- An emission returns a number.
    injection hplan with htype
    have : Subsingleton Nat := htype ▸ inferInstanceAs (Subsingleton Unit)
    exact absurd (Subsingleton.elim 0 1) Nat.zero_ne_one
  | @patch index' condition opening rest' s before after hs hskips =>
    injection hplan with _ hpatch _
    obtain rfl := patch_injective s hpatch
    exact ⟨⟨index, condition, opening⟩, by simp, rfl, hskips⟩
  | _ => cases hplan

/-- A branch that waits gets the index of the next instruction, and nothing else is changed. -/
theorem patch_of_waits {s : State} {index : Nat} {condition : Branch}
    (h : Waits s.code index condition) : ∃ code : Array Instr,
      patch index s = .ok () { s with code } ∧ code.size = s.code.size ∧
      code[index]? = some (.branch condition (UInt64.ofNat s.code.size)) ∧
      ∀ other, other ≠ index → code[other]? = s.code[other]? := by
  refine ⟨_, patch_apply index s, Array.size_modify, ?_, fun other hother => ?_⟩
  · rw [Array.getElem?_modify, if_pos rfl, h]
    rfl
  · rw [Array.getElem?_modify, if_neg hother.symm]

/-- Branches are patched where they were emitted. On every source and with every limits, carrying
out the plan step by step ends with what `program` returns. Whenever it comes to patch an index,
there is a branch there that was emitted without a target, in an earlier step and for the same
construct, and it has stood there since. It gets its target, and no other instruction is changed.
When the source is compiled with success, every branch that was emitted without a target has been
patched so, and none is left in the code. -/
theorem branches_patched (source : List UInt8) (limits : Limits) (listing : Option Sink) :
    (∃ steps, (Config.ofSource source limits listing).run steps =
      .inl (program (start source limits listing))) ∧
    (∀ (n depth index : Nat) (rest : Unit → Plan Program) (s : State),
      (Config.ofSource source limits listing).run n = .inr ⟨depth, .act (patch index) rest, s⟩ →
      ∃ (m : Nat) (condition : Branch),
        Patched (Config.ofSource source limits listing) m n index condition ∧
        index < s.code.size ∧ s.code[index]? = some (.branch condition 0) ∧
        ∃ code : Array Instr, patch index s = .ok () { s with code } ∧ code.size = s.code.size ∧
          code[index]? = some (.branch condition (UInt64.ofNat s.code.size)) ∧
          ∀ other, other ≠ index → code[other]? = s.code[other]?) ∧
    ∀ (p : Program) (s' : State), program (start source limits listing) = .ok p s' →
      (∀ (m depth : Nat) (condition : Branch) (rest : Nat → Plan Program) (s : State),
        (Config.ofSource source limits listing).run m =
          .inr ⟨depth, .act (emit (.branch condition 0)) rest, s⟩ →
        ∃ n, Patched (Config.ofSource source limits listing) m n s.code.size condition) ∧
      ∀ (index : Nat) (condition : Branch), p.code[index]? ≠ some (.branch condition 0) := by
  have hledger := (ledger_start source limits listing).run
  obtain ⟨j, -, hends⟩ := (ready_start source limits listing).ends_program
  have hrun : (Config.ofSource source limits listing).run j =
      .inl (program (start source limits listing)) := hends.run_eq le_rfl
  refine ⟨⟨j, hrun⟩, fun n depth index rest s hn => ?_, fun p s' hok => ?_⟩
  · obtain ⟨pending, h⟩ := hledger n _ hn
    obtain ⟨p, hp, rfl, hskips⟩ := h.owes.of_patch
    obtain ⟨m, hfrom⟩ := h.since p hp
    have hwaits : Waits s.code p.index p.condition := h.lists.waits hp
    exact ⟨m, p.condition, hfrom.patched hn hskips, hwaits.lt_size, hwaits, patch_of_waits hwaits⟩
  · rw [hok] at hrun
    obtain ⟨n, depth, hn, hlast⟩ := Config.exists_done hrun
    obtain ⟨pending, h⟩ := hledger n _ hn
    obtain rfl : pending = [] := h.owes.of_done
    have hcode : p.code = s'.code := by
      rw [program_eq] at hok
      obtain ⟨_, _, -, hfinish⟩ := bind_eq_ok.mp hok
      rw [finish_ok hfinish]
    refine ⟨fun m depth' condition rest s hm => ?_, fun index condition hwaits => ?_⟩
    · have hlt : m < n := by
        refine lt_of_le_of_ne (hlast m _ hm) ?_
        rintro rfl
        rw [hn] at hm
        cases hm
      obtain ⟨_, hp, -⟩ | ⟨n', -, hpatched⟩ := h.emitted m hlt depth' condition rest s hm
      · cases hp
      · exact ⟨n', hpatched⟩
    · rw [hcode] at hwaits
      obtain ⟨_, hp, -⟩ := (h.lists.waits_iff index condition).mp hwaits
      cases hp

/-- A source with two branches that wait at the same time. -/
def branching : List UInt8 := "main()\x7bif(1&&2)3;else 4;\x7d".toUTF8.toList

/-- In step 44 the branch over the first statement of `if` is emitted, behind four instructions. It
gets its target in step 57, when the one over the second statement has been emitted. -/
theorem branches_patched_branching :
    (∃ (p : Program) (s : State), program (start branching (.ofPoolSize 4096) none) = .ok p s) ∧
    (∃ n, Patched (Config.ofSource branching (.ofPoolSize 4096) none) 44 n 4 .ifZero) ∧
    ∃ (m : Nat) (condition : Branch),
      Patched (Config.ofSource branching (.ofPoolSize 4096) none) m 57 4 condition := by
  obtain ⟨⟨steps, hsteps⟩, hpatch, hok⟩ := branches_patched branching (.ofPoolSize 4096) none
  obtain ⟨p, s, hlast⟩ : ∃ p s, (Config.ofSource branching (.ofPoolSize 4096) none).run 80 =
      .inl (.ok p s) := ⟨_, _, by with_unfolding_all rfl⟩
  obtain ⟨rest, s₁, hemitted, hsize⟩ : ∃ (rest : Nat → Plan Program) (s : State),
      (Config.ofSource branching (.ofPoolSize 4096) none).run 44 =
        .inr ⟨1, .act (emit (.branch .ifZero 0)) rest, s⟩ ∧ s.code.size = 4 :=
    ⟨_, _, by with_unfolding_all rfl, by with_unfolding_all rfl⟩
  obtain ⟨rest', s₂, hpatched⟩ : ∃ (rest : Unit → Plan Program) (s : State),
      (Config.ofSource branching (.ofPoolSize 4096) none).run 57 =
        .inr ⟨1, .act (patch 4) rest, s⟩ := ⟨_, _, by with_unfolding_all rfl⟩
  have hprogram : program (start branching (.ofPoolSize 4096) none) = .ok p s := by
    have hends := Config.run_of_inl hsteps (Nat.le_max_left steps 80)
    rw [Config.run_of_inl hlast (Nat.le_max_right steps 80)] at hends
    exact (Sum.inl.inj hends).symm
  obtain ⟨m, condition, h, -⟩ := hpatch 57 1 4 rest' s₂ hpatched
  exact ⟨⟨p, s, hprogram⟩, hsize ▸ (hok p s hprogram).1 44 1 .ifZero rest s₁ hemitted,
    m, condition, h⟩

end MiniC.Compile
