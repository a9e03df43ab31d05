import MiniC.Proofs.Machine.Actions

/-!
# Calls return

A call pushes the return address and `ENT` pushes the caller's frame pointer, so an open frame keeps
two saved words: one at the address that its frame pointer holds, one above it. `LEV` takes
everything back from there and looks at nothing else, whatever the function has left on the stack.

The saved frame pointers link the open frames, from the innermost one out to the frame of the caller
(`Linked`). No instruction but `ENT` and `LEV` sets the frame pointer (`Exec.Composed.bp_eq`), so as
long as the saved words stay as they are a step keeps the links (`Nested.step`), and the `LEV` that
closes the frame of a call finds what the call has pushed (`call_returns`).
-/

namespace MiniC

/-! ## Words that are pushed -/

namespace Memory

variable {m m' : Memory} {a b w : Word}

theorem storeWord_eq_ok {u : Unit} (h : storeWord a w m = .ok u m') :
    ∃ start, m.offset? a wordSize = some start ∧ m' = m.put start w.toBytes := by
  rw [storeWord_apply] at h
  cases hstart : m.offset? a wordSize with
  | none => simp [hstart] at h
  | some start =>
    simp only [hstart, EStateM.Result.ok.injEq, true_and] at h
    exact ⟨start, rfl, h.symm⟩

theorem loadWord_of_storeWord {u : Unit} (h : storeWord a w m = .ok u m') :
    m'.loadWord a = .ok w := by
  obtain ⟨start, hstart, rfl⟩ := storeWord_eq_ok h
  have hsize := (offset?_eq_some hstart).2
  have hslice : (m.put start w.toBytes).slice start w.toBytes.length = w.toBytes :=
    slice_put_self (by rw [Word.length_toBytes]; exact hsize)
  rw [Word.length_toBytes] at hslice
  simp only [loadWord_eq, offset?_put, hstart, hslice, Word.ofBytes_toBytes]

/-- A word that is stored right below another one leaves the other as it is. -/
theorem loadWord_above_storeWord {u : Unit} (h : storeWord a w m = .ok u m')
    (hab : a.toInt + wordSize = b.toInt) : m'.loadWord b = m.loadWord b := by
  obtain ⟨start, hstart, rfl⟩ := storeWord_eq_ok h
  have hstart := (offset?_eq_some hstart).1
  rw [loadWord_eq, loadWord_eq, offset?_put]
  cases hstart' : m.offset? b wordSize with
  | none => rfl
  | some start' =>
    have hstart' := (offset?_eq_some hstart').1
    dsimp only
    rw [slice_put_of_disjoint]
    rw [Word.length_toBytes]
    omega

end Memory

namespace Machine

open Setting (bind_ok get_ok modify_ok)

theorem wordsAbove_neg_one_one (a : Word) : wordsAbove (wordsAbove a (-1)) 1 = a := by
  rw [wordsAbove, wordsAbove]
  grind

theorem toInt_wordsAbove_neg_one {a : Word} (h : 0 ≤ a.toInt) :
    (wordsAbove a (-1)).toInt + wordSize = a.toInt := by
  have hlt := a.toInt_lt
  have hsub : wordsAbove a (-1) = a - 8 := by
    rw [wordsAbove, Int64.neg_mul, Int64.one_mul, ← Int64.sub_eq_add_neg]
    rfl
  rw [hsub, Int64.toInt_sub, Int.bmod_eq_of_le]
  all_goals
    simp only [wordSize, show (8 : Word).toInt = 8 from rfl]
    omega

variable {loaded : Loaded} {fuel : Nat} {s s' : Machine} {i : Instr} {w : Word} {u : Unit}

theorem checkStack_eq_ok :
    checkStack s = .ok u s' ↔ Word.ofNat s.memory.stackBase ≤ s.sp ∧ s' = s := by
  rw [checkStack, bind_ok (get_ok s), ← Int64.not_lt]
  split_ifs with hlt
  · exact iff_of_false (fun h => by cases h) fun h => h.1 hlt
  · exact ⟨fun h => by cases h; exact ⟨hlt, rfl⟩, fun h => by rw [h.2]; rfl⟩

theorem changeMemory_eq_ok {access : Memory.Access Unit} :
    changeMemory access s = .ok u s' ↔
      ∃ m, access s.memory = .ok () m ∧ s' = { s with memory := m } := by
  rw [changeMemory]
  cases access s.memory with
  | ok _ m => simp [eq_comm]
  | error f m => simp

theorem push_eq_ok : push w s = .ok u s' ↔
    Word.ofNat s.memory.stackBase ≤ wordsAbove s.sp (-1) ∧
      ∃ m, Memory.storeWord (wordsAbove s.sp (-1)) w s.memory = .ok () m ∧
        s' = { s with sp := wordsAbove s.sp (-1), memory := m } := by
  rw [push, bind_ok (modify_ok _ s), Exec.bind_eq_ok]
  generalize wordsAbove s.sp (-1) = sp
  constructor
  · rintro ⟨_, s₁, hcheck, h⟩
    obtain ⟨hle, rfl⟩ := checkStack_eq_ok.mp hcheck
    rw [bind_ok (get_ok _)] at h
    exact ⟨hle, changeMemory_eq_ok.mp h⟩
  · rintro ⟨hle, hstore⟩
    refine ⟨(), _, checkStack_eq_ok.mpr ⟨hle, rfl⟩, ?_⟩
    rw [bind_ok (get_ok _)]
    exact changeMemory_eq_ok.mpr hstore

theorem loadWord_eq_ok {a : Word} :
    loadWord a s = .ok w s' ↔ s.memory.loadWord a = .ok w ∧ s' = s := by
  rw [loadWord, bind_ok (get_ok s)]
  cases s.memory.loadWord a with
  | ok v =>
    show EStateM.Result.ok v s = .ok w s' ↔ _
    simp [eq_comm]
  | error f => exact iff_of_false (fun h => by cases h) fun h => by cases h.1

theorem pop_eq_ok (h : pop s = .ok w s') :
    s.memory.loadWord s.sp = .ok w ∧ s' = { s with sp := wordsAbove s.sp 1 } := by
  rw [pop, bind_ok (get_ok s), Exec.bind_eq_ok] at h
  obtain ⟨w', s₁, hload, h⟩ := h
  obtain ⟨hload, rfl⟩ := loadWord_eq_ok.mp hload
  rw [bind_ok (modify_ok _ s₁)] at h
  cases h
  exact ⟨hload, rfl⟩

/-! ## The three forms of a call -/

/-- Where an instruction leads that is a call: to a fixed index, to the index that a word of memory
holds, or to the index that a frame slot holds. -/
def callee? (s : Machine) : Instr → Option Nat
  | .call target => some target.toNat
  | .callCell address => (s.memory.loadWord address).toOption.map Word.toUnsigned
  | .callSlot offset =>
    (s.memory.loadWord (wordsAbove s.bp offset)).toOption.map Word.toUnsigned
  | _ => none

variable {target : Nat}

theorem execute_of_callee? (h : s.callee? i = some target) :
    execute loaded fuel i s = call target s := by
  -- The two indirect forms load the index first.
  have hload : ∀ a, (s.memory.loadWord a).toOption.map Word.toUnsigned = some target →
      ∃ w, loadWord a s = .ok w s ∧ w.toUnsigned = target := by
    intro a ha
    cases hw : s.memory.loadWord a with
    | ok w => exact ⟨w, loadWord_eq_ok.mpr ⟨hw, rfl⟩, by simpa [hw, Except.toOption] using ha⟩
    | error f => simp [hw, Except.toOption] at ha
  cases i with
  | call t =>
    obtain rfl := Option.some.inj h
    rfl
  | callCell address =>
    obtain ⟨w, hw, rfl⟩ := hload _ h
    rw [execute, bind_ok hw]
  | callSlot offset =>
    obtain ⟨w, hw, rfl⟩ := hload _ h
    rw [execute, bind_ok (get_ok s), bind_ok hw]
  | _ => cases h

theorem call_eq_ok : call target s = .ok u s' ↔
    Word.ofNat s.memory.stackBase ≤ wordsAbove s.sp (-1) ∧
      ∃ m, Memory.storeWord (wordsAbove s.sp (-1)) (Word.ofNat s.pc) s.memory = .ok () m ∧
        s' = { s with sp := wordsAbove s.sp (-1), memory := m, pc := target } := by
  rw [call, bind_ok (get_ok s), Exec.bind_eq_ok]
  generalize Word.ofNat s.pc = returnAddress
  constructor
  · rintro ⟨_, s₁, hpush, h⟩
    obtain ⟨hle, m, hm, rfl⟩ := push_eq_ok.mp hpush
    cases h
    exact ⟨hle, m, hm, rfl⟩
  · rintro ⟨hle, m, hm, rfl⟩
    exact ⟨(), _, push_eq_ok.mpr ⟨hle, m, hm, rfl⟩, rfl⟩

/-! ## One step -/

theorem step_of_untraced (hi : loaded.code[s.pc]? = some i) (htrace : loaded.trace = false) :
    step loaded fuel s =
      execute loaded fuel i { s with pc := s.pc + 1, cycle := s.cycle + 1 } := by
  rw [step, bind_ok (get_ok s), hi]
  dsimp only
  rw [bind_ok (modify_ok _ s), htrace]
  rfl

/-- A step executes an instruction once it is counted and, if that is asked for, traced. -/
theorem step_eq_ok (h : step loaded fuel s = .ok u s') :
    ∃ i out, loaded.code[s.pc]? = some i ∧
      execute loaded fuel i { s with pc := s.pc + 1, cycle := s.cycle + 1, out } = .ok () s' := by
  rw [step, bind_ok (get_ok s)] at h
  cases hi : loaded.code[s.pc]? with
  | none =>
    rw [hi] at h
    cases h
  | some i =>
  rw [hi] at h
  dsimp only at h
  rw [bind_ok (modify_ok _ s)] at h
  split_ifs at h
  · obtain ⟨_, s₁, hemit, h⟩ := Exec.bind_eq_ok.mp h
    rw [emit] at hemit
    split_ifs at hemit
    cases hemit
    exact ⟨i, _, rfl, h⟩
  · exact ⟨i, s.out, rfl, h⟩

/-- What a call changes: the return address is pushed, and the call leads to its target. -/
theorem step_call (hi : loaded.code[s.pc]? = some i) (hcall : s.callee? i = some target)
    (h : step loaded fuel s = .ok u s') :
    Word.ofNat s.memory.stackBase ≤ wordsAbove s.sp (-1) ∧
      ∃ m, Memory.storeWord (wordsAbove s.sp (-1)) (Word.ofNat (s.pc + 1)) s.memory = .ok () m ∧
        s' = { s with
          sp := wordsAbove s.sp (-1), memory := m, pc := target, cycle := s.cycle + 1,
          out := s'.out } := by
  obtain ⟨i', out, hi', h⟩ := step_eq_ok h
  obtain rfl : i = i' := Option.some.inj (hi.symm.trans hi')
  have hcall' : callee? { s with pc := s.pc + 1, cycle := s.cycle + 1, out } i = some target := by
    cases i <;> exact hcall
  rw [execute_of_callee? hcall'] at h
  obtain ⟨hle, m, hm, rfl⟩ := call_eq_ok.mp h
  exact ⟨hle, m, hm, rfl⟩

/-- Two calls of the same function, in whatever form, lead to the same machine. A trace of them may
differ, so what has been written is left out where one of them is traced. -/
theorem step_callee {loaded' : Loaded} {i' : Instr} {fuel' : Nat}
    (hi : loaded.code[s.pc]? = some i) (hcall : s.callee? i = some target)
    (h : step loaded fuel s = .ok u s')
    (hi' : loaded'.code[s.pc]? = some i') (hcall' : s.callee? i' = some target) :
    (∀ r, step loaded' fuel' s = .ok () r → { r with out := s'.out } = s') ∧
      (loaded.trace = false → loaded'.trace = false → step loaded' fuel' s = .ok () s') := by
  obtain ⟨hle, m, hm, hs'⟩ := step_call hi hcall h
  refine ⟨fun r hr => ?_, fun htrace htrace' => ?_⟩
  · obtain ⟨-, m', hm', hr⟩ := step_call hi' hcall' hr
    obtain rfl : m = m' := (EStateM.Result.ok.inj (hm.symm.trans hm')).2
    rw [hr, hs']
  · rw [step_of_untraced hi htrace] at h
    rw [step_of_untraced hi' htrace', ← h]
    have hmoved : ∀ {j}, s.callee? j = some target →
        callee? { s with pc := s.pc + 1, cycle := s.cycle + 1 } j = some target := by
      intro j hj
      cases j <;> exact hj
    rw [execute_of_callee? (hmoved hcall), execute_of_callee? (hmoved hcall')]

theorem enter_eq_ok (h : enter w s = .ok u s') :
    Memory.storeWord (wordsAbove s.sp (-1)) s.bp s.memory = .ok () s'.memory ∧
      s'.bp = wordsAbove s.sp (-1) := by
  rw [enter, bind_ok (get_ok s), Exec.bind_eq_ok] at h
  obtain ⟨_, s₁, hpush, h⟩ := h
  obtain ⟨-, m, hm, rfl⟩ := push_eq_ok.mp hpush
  rw [bind_ok (modify_ok _ _)] at h
  obtain ⟨-, rfl⟩ := checkStack_eq_ok.mp h
  exact ⟨hm, rfl⟩

theorem leave_eq_ok (h : leave s = .ok u s') :
    ∃ caller returnAddress, s.memory.loadWord s.bp = .ok caller ∧
      s.memory.loadWord (wordsAbove s.bp 1) = .ok returnAddress ∧
      s' = { s with
        bp := caller, pc := returnAddress.toUnsigned, sp := wordsAbove (wordsAbove s.bp 1) 1 } := by
  rw [leave, bind_ok (modify_ok _ s), Exec.bind_eq_ok] at h
  obtain ⟨caller, s₁, hpop, h⟩ := h
  obtain ⟨hcaller, rfl⟩ := pop_eq_ok hpop
  rw [bind_ok (modify_ok _ _), Exec.bind_eq_ok] at h
  obtain ⟨returnAddress, s₂, hpop', h⟩ := h
  obtain ⟨hreturn, rfl⟩ := pop_eq_ok hpop'
  cases h
  exact ⟨caller, returnAddress, hcaller, hreturn, rfl⟩

/-! ## Open frames -/

/-- The frame pointers of the open frames, innermost first, behind an instruction that has left the
machine with the frame pointer `bp`. -/
def framesAfter (bp : Word) (frames : List Word) : Instr → List Word
  | .enter _ => bp :: frames
  | .leave => frames.tail
  | _ => frames

/-- The frame pointers of the frames that an execution has opened and not closed in its first steps.
-/
def openFrames (loaded : Loaded) (s : Nat → Machine) : Nat → List Word
  | 0 => []
  | k + 1 =>
    (loaded.code[(s k).pc]?).elim (openFrames loaded s k)
      (framesAfter (s (k + 1)).bp (openFrames loaded s k))

/-- How many instructions of a kind an execution has executed in its first steps. -/
def executed (loaded : Loaded) (s : Nat → Machine) (kind : Instr → Bool) (k : Nat) : Nat :=
  k.count fun j => (loaded.code[(s j).pc]?).any kind = true

/-- The saved words of open frames: the frame pointer of each frame holds the one of the frame
around it, down to the frame of the call, which holds what the caller had. -/
inductive Linked (m : Memory) (caller : Machine) : Word → List Word → Prop
  | outermost {base : Word} (frame : m.loadWord base = .ok caller.bp)
      (returnAddress : m.loadWord (wordsAbove base 1) = .ok (Word.ofNat (caller.pc + 1)))
      (above : wordsAbove (wordsAbove base 1) 1 = caller.sp) : Linked m caller base [base]
  | inner {base bp : Word} {frames : List Word} (frame : m.loadWord base = .ok bp)
      (outer : Linked m caller bp frames) : Linked m caller base (base :: frames)

/-- Two memories that agree on the words that the frame at `base` saves: the caller's frame pointer
and the return address. -/
def SavedAlike (m m' : Memory) (base : Word) : Prop :=
  m'.loadWord base = m.loadWord base ∧
    m'.loadWord (wordsAbove base 1) = m.loadWord (wordsAbove base 1)

instance (m m' : Memory) (base : Word) : Decidable (SavedAlike m m' base) :=
  inferInstanceAs (Decidable (_ ∧ _))

/-- An execution from a call to the `LEV` at `last` that matches it: the call lands on `ENT`, no
step changes a saved word of an open frame, and `last` is the first `LEV` behind which as many
frames have been closed as opened. -/
structure Invocation (loaded : Loaded) (s : Nat → Machine) (last : Nat) : Prop where
  steps : ∀ k ≤ last, ∃ fuel, step loaded fuel (s k) = .ok () (s (k + 1))
  call : ∃ i target, loaded.code[(s 0).pc]? = some i ∧ (s 0).callee? i = some target
  enter : ∃ n, loaded.code[(s 1).pc]? = some (.enter n)
  saved : ∀ k < last, ∀ base ∈ openFrames loaded s k,
    SavedAlike (s k).memory (s (k + 1)).memory base
  leave : loaded.code[(s last).pc]? = some .leave
  balanced : executed loaded s (· matches .enter _) (last + 1) =
    executed loaded s (· matches .leave) (last + 1)
  first : ∀ k < last, loaded.code[(s k).pc]? = some .leave →
    executed loaded s (· matches .enter _) (k + 1) ≠ executed loaded s (· matches .leave) (k + 1)

section

variable {m m' : Memory} {caller : Machine} {bp : Word} {frames : List Word}

theorem Linked.ne_nil (h : Linked m caller bp frames) : frames ≠ [] := by
  cases h <;> exact List.cons_ne_nil _ _

theorem Linked.congr (h : Linked m caller bp frames)
    (hsame : ∀ base ∈ frames, SavedAlike m m' base) : Linked m' caller bp frames := by
  induction h with
  | outermost frame returnAddress above =>
    have hsaved := hsame _ (List.mem_singleton_self _)
    exact .outermost (hsaved.1.trans frame) (hsaved.2.trans returnAddress) above
  | inner frame _ ih =>
    exact .inner ((hsame _ List.mem_cons_self).1.trans frame)
      (ih fun base hbase => hsame base (List.mem_cons_of_mem _ hbase))

end

section

variable {s : Nat → Machine} {k last : Nat}

theorem executed_succ (hi : loaded.code[(s k).pc]? = some i) (kind : Instr → Bool) :
    executed loaded s kind (k + 1) = executed loaded s kind k + if kind i then 1 else 0 := by
  simp only [executed, Nat.count_succ, hi, Option.any_some]

theorem openFrames_succ (hi : loaded.code[(s k).pc]? = some i) :
    openFrames loaded s (k + 1) = framesAfter (s (k + 1)).bp (openFrames loaded s k) i := by
  rw [openFrames, hi, Option.elim_some]

/-- What holds of an invocation between the `ENT` of its call and the matching `LEV`. -/
structure Nested (loaded : Loaded) (s : Nat → Machine) (k : Nat) : Prop where
  linked : Linked (s k).memory (s 0) (s k).bp (openFrames loaded s k)
  depth : executed loaded s (· matches .enter _) k =
    executed loaded s (· matches .leave) k + (openFrames loaded s k).length

/-- The call pushes the return address and `ENT` pushes the frame pointer right below it. -/
theorem Invocation.nested_two (h : Invocation loaded s last) (hlast : 1 ≤ last) :
    Nested loaded s 2 := by
  obtain ⟨i, target, hi, hcall⟩ := h.call
  obtain ⟨n, hn⟩ := h.enter
  obtain ⟨fuel, h₀⟩ := h.steps 0 (Nat.zero_le _)
  obtain ⟨fuel', h₁⟩ := h.steps 1 hlast
  obtain ⟨hle, m, hm, hs₁⟩ := step_call hi hcall h₀
  obtain ⟨i', out, hi', h₁⟩ := step_eq_ok h₁
  obtain rfl : .enter n = i' := Option.some.inj (hn.symm.trans hi')
  obtain ⟨hstore, hbp⟩ := enter_eq_ok h₁
  have hnest : framesAfter (s 1).bp [] i = [] := by cases i <;> first | rfl | cases hcall
  have hframes : openFrames loaded s 2 = [(s 2).bp] := by
    have hopened : openFrames loaded s 2 = (s 2).bp :: openFrames loaded s 1 := openFrames_succ hn
    rw [hopened, openFrames_succ hi, openFrames, hnest]
  have hsp : (s 1).sp = wordsAbove (s 0).sp (-1) := by rw [hs₁]
  have hbp₁ : (s 1).bp = (s 0).bp := by rw [hs₁]
  have hm₁ : (s 1).memory = m := by rw [hs₁]
  have habove : wordsAbove (s 2).bp 1 = (s 1).sp := by rw [hbp, wordsAbove_neg_one_one]
  refine ⟨?_, ?_⟩
  · rw [hframes]
    refine .outermost ?_ ?_ ?_
    · rw [hbp, ← hbp₁]
      exact Memory.loadWord_of_storeWord hstore
    · have hpos : 0 ≤ (s 1).sp.toInt := by
        obtain ⟨start, hstart, -⟩ := Memory.storeWord_eq_ok hm
        have hindex := (Memory.offset?_eq_some hstart).1
        rw [hsp]
        omega
      have hload := Memory.loadWord_above_storeWord hstore (toInt_wordsAbove_neg_one hpos)
      rw [habove, hload, hsp]
      dsimp only
      rw [hm₁]
      exact Memory.loadWord_of_storeWord hm
    · rw [habove, hsp, wordsAbove_neg_one_one]
  · rw [executed_succ hn, executed_succ hi, executed_succ hn, executed_succ hi, hframes]
    cases i <;> first | rfl | cases hcall

/-- A step before the matching `LEV` keeps the links. -/
theorem Nested.step (h : Invocation loaded s last) (hk : k < last) (hnested : Nested loaded s k) :
    Nested loaded s (k + 1) := by
  obtain ⟨fuel, hstep⟩ := h.steps k hk.le
  obtain ⟨i, out, hi, hstep⟩ := step_eq_ok hstep
  have hdepth := hnested.depth
  have hlinked := hnested.linked.congr (h.saved k hk)
  by_cases hleave : i = .leave
  · subst hleave
    have hframes : openFrames loaded s (k + 1) = (openFrames loaded s k).tail :=
      openFrames_succ hi
    have hentered : executed loaded s (· matches .enter _) (k + 1) =
        executed loaded s (· matches .enter _) k := executed_succ hi _
    have hleft : executed loaded s (· matches .leave) (k + 1) =
        executed loaded s (· matches .leave) k + 1 := executed_succ hi _
    have hfirst := h.first k hk hi
    obtain ⟨saved, _, hsaved, -, hs⟩ := leave_eq_ok hstep
    have hmemory : (s (k + 1)).memory = (s k).memory := by rw [hs]
    have hbp : (s (k + 1)).bp = saved := by rw [hs]
    have hlinked := hnested.linked
    refine ⟨?_, ?_⟩
    · rw [hframes, hbp, hmemory]
      generalize openFrames loaded s k = frames at hdepth hlinked ⊢
      cases hlinked with
      | outermost =>
        -- The frame of the call is the only one: this would be the matching `LEV`.
        rw [List.length_singleton] at hdepth
        omega
      | inner frame outer =>
        obtain rfl := Except.ok.inj (frame.symm.trans hsaved)
        exact outer
    · have hpos := List.length_pos_iff.mpr hlinked.ne_nil
      rw [hframes, List.length_tail]
      omega
  by_cases henter : ∃ n, i = .enter n
  · obtain ⟨n, rfl⟩ := henter
    have hframes : openFrames loaded s (k + 1) = (s (k + 1)).bp :: openFrames loaded s k :=
      openFrames_succ hi
    have hentered : executed loaded s (· matches .enter _) (k + 1) =
        executed loaded s (· matches .enter _) k + 1 := executed_succ hi _
    have hleft : executed loaded s (· matches .leave) (k + 1) =
        executed loaded s (· matches .leave) k := executed_succ hi _
    obtain ⟨hstore, hbp⟩ := enter_eq_ok hstep
    refine ⟨?_, ?_⟩
    · rw [hframes]
      refine .inner ?_ hlinked
      rw [hbp]
      exact Memory.loadWord_of_storeWord hstore
    · rw [hframes, List.length_cons]
      omega
  · have henter : ∀ n, i ≠ .enter n := fun n hn => henter ⟨n, hn⟩
    have hlevel : i.level = true := by
      cases i <;> first | rfl | exact absurd rfl (henter _) | exact absurd rfl hleave
    have hbp := (Exec.Composed.execute loaded fuel i).bp_eq hlevel hstep
    have hframes : openFrames loaded s (k + 1) = openFrames loaded s k := by
      rw [openFrames_succ hi]
      cases i <;> first | rfl | exact absurd rfl (henter _) | exact absurd rfl hleave
    refine ⟨?_, ?_⟩
    · rw [hframes, hbp]
      exact hlinked
    · rw [executed_succ hi, executed_succ hi, hframes, hdepth]
      cases i <;> first | rfl | exact absurd rfl (henter _) | exact absurd rfl hleave

theorem Invocation.nested (h : Invocation loaded s last) (hk : 2 ≤ k) (hlast : k ≤ last) :
    Nested loaded s k := by
  induction k, hk using Nat.le_induction with
  | base => exact h.nested_two (by omega)
  | succ k _ ih => exact (ih (by omega)).step h (by omega)

/-- Neither the call nor the `ENT` behind it is the matching `LEV`. -/
theorem Invocation.two_le (h : Invocation loaded s last) : 2 ≤ last := by
  by_contra hlt
  have hleave := h.leave
  obtain ⟨i, target, hi, hcall⟩ := h.call
  obtain ⟨n, hn⟩ := h.enter
  obtain rfl | rfl : last = 0 ∨ last = 1 := by omega
  · obtain rfl := Option.some.inj (hi.symm.trans hleave)
    cases hcall
  · cases hn.symm.trans hleave

end

/-- A call in any form returns behind itself with the frame pointer and the stack pointer that it
was made with, and all forms of a call lead to the same machine. -/
theorem call_returns {s : Nat → Machine} {last : Nat} (hsize : loaded.code.size < 2 ^ 64)
    (h : Invocation loaded s last) :
    (s (last + 1)).pc = (s 0).pc + 1 ∧ (s (last + 1)).bp = (s 0).bp ∧
      (s (last + 1)).sp = (s 0).sp ∧
      ∀ i i' target loaded' fuel, loaded.code[(s 0).pc]? = some i →
        (s 0).callee? i = some target → loaded'.code[(s 0).pc]? = some i' →
        (s 0).callee? i' = some target →
        (∀ r, step loaded' fuel (s 0) = .ok () r → { r with out := (s 1).out } = s 1) ∧
          (loaded.trace = false → loaded'.trace = false →
            step loaded' fuel (s 0) = .ok () (s 1)) := by
  obtain ⟨fuel, hstep⟩ := h.steps last le_rfl
  obtain ⟨i, out, hi, hstep⟩ := step_eq_ok hstep
  obtain rfl := Option.some.inj (hi.symm.trans h.leave)
  obtain ⟨caller, returnAddress, hcaller, hreturn, hs⟩ := leave_eq_ok hstep
  have hnested := h.nested h.two_le le_rfl
  have hbalanced := h.balanced
  have hdepth := hnested.depth
  have hlinked := hnested.linked
  have hentered : executed loaded s (· matches .enter _) (last + 1) =
      executed loaded s (· matches .enter _) last := executed_succ hi _
  have hleft : executed loaded s (· matches .leave) (last + 1) =
      executed loaded s (· matches .leave) last + 1 := executed_succ hi _
  have hpc : (s 0).pc < loaded.code.size := by
    obtain ⟨i, target, hi, -⟩ := h.call
    exact (Array.getElem?_eq_some_iff.mp hi).1
  have hback : (s (last + 1)).pc = (s 0).pc + 1 ∧ (s (last + 1)).bp = (s 0).bp ∧
      (s (last + 1)).sp = (s 0).sp := by
    rw [hs]
    dsimp only at hcaller hreturn ⊢
    generalize openFrames loaded s last = frames at hdepth hlinked
    cases hlinked with
    | outermost frame saved above =>
      obtain rfl := Except.ok.inj (hcaller.symm.trans frame)
      obtain rfl := Except.ok.inj (hreturn.symm.trans saved)
      exact ⟨Word.toUnsigned_ofNat (by omega), rfl, above⟩
    | inner _ outer =>
      -- A frame inside another one is not the last to be closed.
      have hpos := List.length_pos_iff.mpr outer.ne_nil
      rw [List.length_cons] at hdepth
      omega
  refine ⟨hback.1, hback.2.1, hback.2.2, ?_⟩
  intro i i' target loaded' fuel hi hcall hi' hcall'
  obtain ⟨fuel₀, h₀⟩ := h.steps 0 (Nat.zero_le _)
  exact step_callee hi hcall h₀ hi' hcall'

/-- A call through the word at the start of the data segment, of a function that leaves a word on
the stack and calls another one. -/
def nestedCalls : Loaded where
  code := #[.callCell 0x10000, .service .exit, .enter 0, .leave, .enter 1, .imm 7, .push, .call 2,
    .leave]
  symbols := .builtin 32
  trace := false

def nestedRun : Nat → Machine
  | 0 => idle (Word.toBytes 4).toArray ⟨32, 16, 8, 64, 0, 0⟩ (.start ⟨[], []⟩ []) (.empty none)
  | k + 1 =>
    match step nestedCalls 0 (nestedRun k) with
    | .ok _ s | .error _ s => s

theorem call_returns_nested : Invocation nestedCalls nestedRun 7 ∧ (nestedRun 8).pc = 1 ∧
    (nestedRun 8).bp = (nestedRun 0).bp ∧ (nestedRun 8).sp = (nestedRun 0).sp ∧
    step { nestedCalls with code := #[.call 4] } 0 (nestedRun 0) = .ok () (nestedRun 1) := by
  have hsteps : ∀ k ≤ 7, (step nestedCalls 0 (nestedRun k) matches .ok _ _) = true := by
    decide +kernel
  have hsaved : ∀ k < 7, (openFrames nestedCalls nestedRun k).all fun base =>
      SavedAlike (nestedRun k).memory (nestedRun (k + 1)).memory base := by
    decide +kernel
  have h : Invocation nestedCalls nestedRun 7 := by
    refine ⟨fun k hk => ⟨0, ?_⟩, ⟨.callCell 0x10000, 4, by decide +kernel, by decide +kernel⟩,
      ⟨1, by decide +kernel⟩, fun k hk base hbase =>
        of_decide_eq_true (List.all_eq_true.mp (hsaved k hk) base hbase),
      by decide +kernel, by decide +kernel, by decide +kernel⟩
    have hok := hsteps k hk
    rw [nestedRun]
    cases hs : step nestedCalls 0 (nestedRun k) with
    | ok u s => rfl
    | error stop s =>
      rw [hs] at hok
      cases hok
  obtain ⟨hpc, hbp, hsp, hforms⟩ := call_returns (by decide) h
  refine ⟨h, hpc, hbp, hsp, ?_⟩
  exact (hforms (.callCell 0x10000) (.call 4) 4 _ 0 (by decide +kernel) (by decide +kernel)
    (by decide +kernel) (by decide +kernel)).2 rfl rfl

end Machine

end MiniC
