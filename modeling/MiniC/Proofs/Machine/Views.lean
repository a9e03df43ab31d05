import MiniC.Machine.Step
import MiniC.Proofs.Machine.Cells

/-!
# What machines end with

A view of a machine keeps what code over `int` variables depends on: the accumulator, the index of
the next instruction, the cells, and the numbers of the cells that the stack pointer and the frame
pointer point to. `Setting.Ends` says of a view that every machine that looks so stops in an allowed
way. There is one rule for each instruction, by which a view ends well if the view behind the
instruction does. Running out of stack is always allowed, so a rule that pushes asks nothing of a
view whose stack is full.
-/

namespace MiniC

/-! ## Views -/

/-- Cells, and the numbers of those that the two pointers into the stack point to. -/
structure Stack where
  sp : Int
  bp : Int
  cell : Int → Word

namespace Stack

/-- The stack with one more word. -/
def push (σ : Stack) (w : Word) : Stack :=
  { σ with sp := σ.sp - 1, cell := Function.update σ.cell (σ.sp - 1) w }

/-- The stack without its topmost words. -/
def drop (σ : Stack) (n : Int) : Stack := { σ with sp := σ.sp + n }

def set (σ : Stack) (i : Int) (w : Word) : Stack :=
  { σ with cell := Function.update σ.cell i w }

/-- The stack of a function that has been entered: the caller's frame pointer is on what was there,
and the locals are on that. -/
def enter (σ : Stack) (n : Nat) : Stack :=
  { σ.push (addr σ.bp) with sp := σ.sp - 1 - n, bp := σ.sp - 1 }

/-- The stack that a function leaves to a caller with the given frame pointer. -/
def leave (σ : Stack) (caller : Int) : Stack := { σ with sp := σ.bp + 2, bp := caller }

section

variable {σ : Stack} {w : Word} {n : Nat} {i : Int}

theorem cell_push_self (σ : Stack) (w : Word) : (σ.push w).cell (σ.sp - 1) = w :=
  Function.update_self _ _ _

theorem cell_push_of_ne (h : i ≠ σ.sp - 1) : (σ.push w).cell i = σ.cell i :=
  Function.update_of_ne h _ _

theorem cell_enter_self (σ : Stack) (n : Nat) : (σ.enter n).cell (σ.sp - 1) = addr σ.bp :=
  cell_push_self σ _

theorem cell_enter_of_ne (h : i ≠ σ.sp - 1) : (σ.enter n).cell i = σ.cell i :=
  cell_push_of_ne h

end

end Stack

structure View where
  acc : Word
  pc : Nat
  stack : Stack

/-- Whether a branch is taken. -/
def Branch.Taken (condition : Branch) (acc : Word) : Prop :=
  match condition with
  | .always => True
  | .ifZero => acc = 0
  | .ifNonzero => acc ≠ 0

instance (condition : Branch) (acc : Word) : Decidable (condition.Taken acc) :=
  match condition with
  | .always => .isTrue trivial
  | .ifZero => inferInstanceAs (Decidable (acc = 0))
  | .ifNonzero => inferInstanceAs (Decidable (acc ≠ 0))

/-- A loaded program, the cells of its stack, and the ways in which it may stop. -/
structure Setting where
  loaded : Loaded
  base : Int
  top : Int
  first_le : firstCell ≤ base
  base_lt : base < 2 ^ 60
  base_le : base ≤ top
  top_le : top ≤ 2 ^ 60
  allowed : Stop → Prop
  overflow : ∀ size, allowed (.faulted (.stackOverflow size))

namespace Setting

variable {S : Setting}

/-- A machine that looks as the view says. What is above the stack does not matter. -/
structure Shows (S : Setting) (s : Machine) (v : View) : Prop where
  acc : s.acc = v.acc
  sp : s.sp = addr v.stack.sp
  bp : s.bp = addr v.stack.bp
  pc : s.pc = v.pc
  stackBase : (s.memory.stackBase : Int) = 8 * S.base
  size : 8 * S.top ≤ dataBase + s.memory.bytes.size
  cell : ∀ i, firstCell ≤ i → i < S.top → s.memory.cell i = v.stack.cell i
  /-- Tracing does not fill the sink. -/
  quiet : S.loaded.trace = true → s.out.capacity = none

/-- Every machine that looks so stops in an allowed way. -/
def Ends (S : Setting) (v : View) : Prop :=
  ∀ s, S.Shows s v → ∃ n, ∀ fuel, n ≤ fuel → S.allowed (s.run S.loaded fuel).1

/-! ## One step -/

section Exec

variable {α β : Type} {x : Exec α} {f : α → Exec β} {s s' : Machine} {a : α} {stop : Stop}

theorem bind_ok (h : x s = .ok a s') : (x >>= f) s = f a s' := by
  show EStateM.bind x f s = _
  rw [EStateM.bind, h]

theorem bind_error (h : x s = .error stop s') : (x >>= f) s = .error stop s' := by
  show EStateM.bind x f s = _
  rw [EStateM.bind, h]

theorem get_ok (s : Machine) : (get : Exec Machine) s = .ok s s := rfl

theorem modify_ok (f : Machine → Machine) (s : Machine) :
    (modify f : Exec Unit) s = .ok () (f s) := rfl

end Exec

/-- A step counts the instruction, traces it if that is asked for, and executes it. -/
theorem step_eq {loaded : Loaded} {s : Machine} {i : Instr} (hi : loaded.code[s.pc]? = some i)
    (hquiet : loaded.trace = true → s.out.capacity = none) :
    ∃ out, (loaded.trace = true → out.capacity = none) ∧ ∀ fuel, Machine.step loaded fuel s =
      Machine.execute loaded fuel i { s with pc := s.pc + 1, cycle := s.cycle + 1, out } := by
  have hstep : ∀ fuel, Machine.step loaded fuel s =
      (do
        if loaded.trace then Machine.emit (Utf8.encode (i.traceRow (s.cycle + 1) ++ "\n"))
        Machine.execute loaded fuel i : Exec Unit)
        { s with pc := s.pc + 1, cycle := s.cycle + 1 } := by
    intro fuel
    rw [Machine.step, bind_ok (get_ok s), hi]
    exact bind_ok (modify_ok _ s)
  by_cases htrace : loaded.trace = true
  · have hnone := hquiet htrace
    refine ⟨s.out.write (Utf8.encode (i.traceRow (s.cycle + 1) ++ "\n")), fun _ => ?_,
      fun fuel => ?_⟩
    · rw [Sink.write, hnone]
    · rw [hstep, if_pos htrace]
      refine bind_ok (a := ()) ?_
      simp only [Machine.emit, Sink.accepts, hnone, if_true]
  · refine ⟨s.out, hquiet, fun fuel => ?_⟩
    rw [hstep, if_neg htrace]

/-- An instruction ends well if, whatever machine executes it, it leads to a view that does or stops
in an allowed way. -/
theorem Ends.of_execute {v : View} {i : Instr} (hi : S.loaded.code.toList[v.pc]? = some i)
    (h : ∀ s, S.Shows s { v with pc := v.pc + 1 } →
      (∃ s' v', (∀ fuel, Machine.execute S.loaded fuel i s = .ok () s') ∧ S.Shows s' v' ∧
        S.Ends v') ∨
      ∃ stop s', (∀ fuel, Machine.execute S.loaded fuel i s = .error stop s') ∧ S.allowed stop) :
    S.Ends v := by
  intro s hs
  rw [← hs.pc, Array.getElem?_toList] at hi
  obtain ⟨out, hout, hstep⟩ := step_eq hi hs.quiet
  have hnext : S.Shows { s with pc := s.pc + 1, cycle := s.cycle + 1, out }
      { v with pc := v.pc + 1 } :=
    ⟨hs.acc, hs.sp, hs.bp, by rw [hs.pc], hs.stackBase, hs.size, hs.cell, hout⟩
  rcases h _ hnext with ⟨s', v', hok, hs', hends⟩ | ⟨stop, s', herror, hallowed⟩
  · obtain ⟨n, hn⟩ := hends s' hs'
    refine ⟨n + 1, fun fuel hfuel => ?_⟩
    obtain ⟨fuel, rfl⟩ := Nat.exists_eq_succ_of_ne_zero (show fuel ≠ 0 by omega)
    rw [Machine.run, hstep, hok]
    exact hn fuel (by omega)
  · refine ⟨1, fun fuel hfuel => ?_⟩
    obtain ⟨fuel, rfl⟩ := Nat.exists_eq_succ_of_ne_zero (show fuel ≠ 0 by omega)
    rw [Machine.run, hstep, herror]
    exact hallowed

/-! ## Memory and pointers -/

namespace Shows

variable {s : Machine} {acc : Word} {pc : Nat} {σ : Stack}

theorem hasCell {v : View} (h : S.Shows s v) {i : Int} (hi : firstCell ≤ i) (hi' : i < S.top) :
    s.memory.HasCell i where
  first_le := hi
  lt := Int.lt_of_lt_of_le hi' S.top_le
  le_size := by
    have hsize := h.size
    omega

theorem loadWord {v : View} (h : S.Shows s v) {i : Int} (hi : firstCell ≤ i) (hi' : i < S.top) :
    Machine.loadWord (addr i) s = .ok (v.stack.cell i) s := by
  show Machine.ofExcept (s.memory.loadWord (addr i)) s = _
  rw [Memory.loadWord_addr (h.hasCell hi hi'), h.cell i hi hi']
  rfl

theorem storeWord {v : View} (h : S.Shows s v) {i : Int} (hi : firstCell ≤ i) (hi' : i < S.top)
    (w : Word) : Machine.changeMemory (Memory.storeWord (addr i) w) s =
      .ok () { s with memory := s.memory.setCell i w } := by
  rw [Machine.changeMemory, Memory.storeWord_addr (h.hasCell hi hi') w]

theorem setCell (h : S.Shows s ⟨acc, pc, σ⟩) {i : Int} (hi : firstCell ≤ i) (hi' : i < S.top)
    (w : Word) :
    S.Shows { s with memory := s.memory.setCell i w } ⟨acc, pc, σ.set i w⟩ where
  acc := h.acc
  sp := h.sp
  bp := h.bp
  pc := h.pc
  stackBase := by
    rw [Memory.stackBase_setCell]
    exact h.stackBase
  size := by
    rw [Memory.size_setCell]
    exact h.size
  cell := by
    intro j hj hj'
    show (s.memory.setCell i w).cell j = Function.update σ.cell i w j
    by_cases hji : j = i
    · rw [hji, Function.update_self]
      exact Memory.cell_setCell_self (h.hasCell hi hi') w
    · rw [Function.update_of_ne hji, ← h.cell j hj hj']
      exact Memory.cell_setCell_of_ne hi hj hji w
  quiet := h.quiet

theorem withSp (h : S.Shows s ⟨acc, pc, σ⟩) (i : Int) :
    S.Shows { s with sp := addr i } ⟨acc, pc, { σ with sp := i }⟩ :=
  ⟨h.acc, rfl, h.bp, h.pc, h.stackBase, h.size, h.cell, h.quiet⟩

theorem withBp (h : S.Shows s ⟨acc, pc, σ⟩) (i : Int) :
    S.Shows { s with bp := addr i } ⟨acc, pc, { σ with bp := i }⟩ :=
  ⟨h.acc, h.sp, rfl, h.pc, h.stackBase, h.size, h.cell, h.quiet⟩

theorem withAcc (h : S.Shows s ⟨acc, pc, σ⟩) (w : Word) :
    S.Shows { s with acc := w } ⟨w, pc, σ⟩ :=
  ⟨rfl, h.sp, h.bp, h.pc, h.stackBase, h.size, h.cell, h.quiet⟩

theorem withPc (h : S.Shows s ⟨acc, pc, σ⟩) (target : Nat) :
    S.Shows { s with pc := target } ⟨acc, target, σ⟩ :=
  ⟨h.acc, h.sp, h.bp, rfl, h.stackBase, h.size, h.cell, h.quiet⟩

/-- The stack is checked by the number of the cell at its top. -/
theorem checkStack {v : View} (h : S.Shows s v) (hsp : -2 ^ 60 ≤ v.stack.sp)
    (hsp' : v.stack.sp < 2 ^ 60) :
    Machine.checkStack s = if v.stack.sp < S.base then
      .error (.faulted (.stackOverflow s.memory.stackSize)) s else .ok () s := by
  have hfirst := S.first_le
  have hfirst' : firstCell = 8192 := rfl
  have hlow := h.stackBase
  have hhigh := S.base_lt
  have hcheck : Machine.checkStack s =
      (if s.sp < Word.ofNat s.memory.stackBase then
        Machine.fault (.stackOverflow s.memory.stackSize) else pure () : Exec Unit) s := rfl
  simp only [hcheck, h.sp, Int64.lt_iff_toInt_lt, toInt_addr hsp hsp',
    Word.toInt_ofNat (n := s.memory.stackBase) (by omega), hlow]
  by_cases hlt : v.stack.sp < S.base
  · rw [if_pos hlt, if_pos (by omega)]
    rfl
  · rw [if_neg hlt, if_neg (by omega)]
    rfl

/-- Pushing fills the next lower cell, or there is none. -/
theorem push (h : S.Shows s ⟨acc, pc, σ⟩) (hsp : S.base ≤ σ.sp) (hsp' : σ.sp ≤ S.top) (w : Word) :
    (S.base ≤ σ.sp - 1 ∧ ∃ s', Machine.push w s = .ok () s' ∧ S.Shows s' ⟨acc, pc, σ.push w⟩) ∨
    ∃ size s', Machine.push w s = .error (.faulted (.stackOverflow size)) s' := by
  have hfirst := S.first_le
  have htop := S.top_le
  have hfirst' : firstCell = 8192 := rfl
  have hs : S.Shows { s with sp := addr (σ.sp - 1) } ⟨acc, pc, { σ with sp := σ.sp - 1 }⟩ :=
    h.withSp _
  have hpush : Machine.push w s = (do
      Machine.checkStack
      Machine.changeMemory (Memory.storeWord (← get).sp w) : Exec Unit)
      { s with sp := addr (σ.sp - 1) } := by
    rw [Machine.push, bind_ok (modify_ok _ s), h.sp, wordsAbove_addr_neg_one]
  have hcheck := hs.checkStack (by show -2 ^ 60 ≤ σ.sp - 1; omega)
    (by show σ.sp - 1 < 2 ^ 60; omega)
  by_cases hlt : σ.sp - 1 < S.base
  · rw [if_pos hlt] at hcheck
    exact .inr ⟨_, _, hpush.trans (bind_error hcheck)⟩
  · rw [if_neg hlt] at hcheck
    refine .inl ⟨by omega, _, hpush.trans ((bind_ok hcheck).trans ?_), hs.setCell ?_ ?_ w⟩
    · exact hs.storeWord (by omega) (by omega) w
    · omega
    · omega

theorem pop (h : S.Shows s ⟨acc, pc, σ⟩) (hsp : firstCell ≤ σ.sp) (hsp' : σ.sp < S.top) :
    ∃ s', Machine.pop s = .ok (σ.cell σ.sp) s' ∧ S.Shows s' ⟨acc, pc, σ.drop 1⟩ := by
  refine ⟨{ s with sp := addr (σ.sp + 1) }, ?_, h.withSp _⟩
  have hload := h.loadWord hsp hsp'
  have hs : s.sp = addr σ.sp := h.sp
  rw [← hs] at hload
  rw [← wordsAbove_addr_one, ← hs]
  exact bind_ok (f := fun value => do
    modify fun s => { s with sp := Machine.wordsAbove s.sp 1 }
    return value) hload

end Shows

/-! ## Instructions -/

theorem branch_eq (condition : Branch) (target : Nat) (s : Machine) :
    Machine.branch condition target s =
      if condition.Taken s.acc then .ok () { s with pc := target } else .ok () s := by
  cases condition with
  | always => rfl
  | ifZero =>
    show (if s.acc = 0 then Machine.jump target else pure () : Exec Unit) s =
      if s.acc = 0 then _ else _
    split <;> rfl
  | ifNonzero =>
    show (if s.acc ≠ 0 then Machine.jump target else pure () : Exec Unit) s =
      if s.acc ≠ 0 then _ else _
    split <;> rfl

namespace Ends

variable {acc : Word} {pc : Nat} {σ : Stack}

theorem imm {w : Word} (hi : S.loaded.code.toList[pc]? = some (.imm w))
    (h : S.Ends ⟨w, pc + 1, σ⟩) : S.Ends ⟨acc, pc, σ⟩ :=
  .of_execute hi fun _ hs => .inl ⟨_, _, fun _ => rfl, hs.withAcc w, h⟩

theorem lea {offset : Word} (hi : S.loaded.code.toList[pc]? = some (.lea offset))
    (h : S.Ends ⟨addr (σ.bp + offset.toInt), pc + 1, σ⟩) : S.Ends ⟨acc, pc, σ⟩ := by
  refine .of_execute hi fun s hs => .inl ⟨_, _, fun fuel => ?_, hs.withAcc _, h⟩
  have hbp : s.bp = addr σ.bp := hs.bp
  rw [← wordsAbove_addr, ← hbp]
  rfl

theorem branch {condition : Branch} {target : UInt64}
    (hi : S.loaded.code.toList[pc]? = some (.branch condition target))
    (htaken : condition.Taken acc → S.Ends ⟨acc, target.toNat, σ⟩)
    (hnot : ¬ condition.Taken acc → S.Ends ⟨acc, pc + 1, σ⟩) : S.Ends ⟨acc, pc, σ⟩ := by
  refine .of_execute hi fun s hs => .inl ?_
  have hacc : s.acc = acc := hs.acc
  have hbranch : ∀ fuel, Machine.execute S.loaded fuel (.branch condition target) s =
      if condition.Taken acc then .ok () { s with pc := target.toNat } else .ok () s :=
    fun _ => hacc ▸ branch_eq condition target.toNat s
  by_cases h : condition.Taken acc
  · exact ⟨_, _, fun fuel => (hbranch fuel).trans (if_pos h), hs.withPc _, htaken h⟩
  · exact ⟨_, _, fun fuel => (hbranch fuel).trans (if_neg h), hs, hnot h⟩

theorem taken {condition : Branch} {target : UInt64}
    (hi : S.loaded.code.toList[pc]? = some (.branch condition target))
    (htaken : condition.Taken acc)
    (h : S.Ends ⟨acc, target.toNat, σ⟩) : S.Ends ⟨acc, pc, σ⟩ :=
  .branch hi (fun _ => h) fun hnot => absurd htaken hnot

theorem passed {condition : Branch} {target : UInt64}
    (hi : S.loaded.code.toList[pc]? = some (.branch condition target))
    (hnot : ¬ condition.Taken acc)
    (h : S.Ends ⟨acc, pc + 1, σ⟩) : S.Ends ⟨acc, pc, σ⟩ :=
  .branch hi (fun htaken => absurd htaken hnot) fun _ => h

theorem adjust {count : Word} (hi : S.loaded.code.toList[pc]? = some (.adjust count))
    (h : S.Ends ⟨acc, pc + 1, σ.drop count.toInt⟩) : S.Ends ⟨acc, pc, σ⟩ := by
  refine .of_execute hi fun s hs => .inl ⟨_, _, fun fuel => ?_, hs.withSp _, h⟩
  have hsp : s.sp = addr σ.sp := hs.sp
  rw [← wordsAbove_addr, ← hsp]
  rfl

theorem load {i : Int} (hi : S.loaded.code.toList[pc]? = some (.load .word))
    (hfirst : firstCell ≤ i) (htop : i < S.top) (h : S.Ends ⟨σ.cell i, pc + 1, σ⟩) :
    S.Ends ⟨addr i, pc, σ⟩ := by
  refine .of_execute hi fun s hs => .inl ⟨_, _, fun fuel => ?_, hs.withAcc _, h⟩
  have hload := hs.loadWord hfirst htop
  have hacc : s.acc = addr i := hs.acc
  rw [← hacc] at hload
  exact bind_ok (f := Machine.setAcc) hload

theorem push (hi : S.loaded.code.toList[pc]? = some .push) (hsp : S.base ≤ σ.sp)
    (hsp' : σ.sp ≤ S.top)
    (h : S.base ≤ σ.sp - 1 → S.Ends ⟨acc, pc + 1, σ.push acc⟩) : S.Ends ⟨acc, pc, σ⟩ := by
  refine .of_execute hi fun s hs => ?_
  have hacc : s.acc = acc := hs.acc
  have hpush : ∀ fuel, Machine.execute S.loaded fuel .push s = Machine.push acc s := by
    intro fuel
    rw [Machine.execute, bind_ok (get_ok s), hacc]
  simp only [hpush]
  rcases hs.push hsp hsp' acc with ⟨hroom, s', hok, hs'⟩ | ⟨size, s', herror⟩
  · exact .inl ⟨s', _, fun _ => hok, hs', h hroom⟩
  · exact .inr ⟨_, s', fun _ => herror, S.overflow size⟩

theorem store {i : Int} (hi : S.loaded.code.toList[pc]? = some (.store .word))
    (hsp : firstCell ≤ σ.sp) (hsp' : σ.sp < S.top) (hcell : σ.cell σ.sp = addr i)
    (hfirst : firstCell ≤ i) (htop : i < S.top)
    (h : S.Ends ⟨acc, pc + 1, (σ.drop 1).set i acc⟩) : S.Ends ⟨acc, pc, σ⟩ := by
  refine .of_execute hi fun s hs => .inl ?_
  obtain ⟨s', hpop, hs'⟩ := hs.pop hsp hsp'
  have hacc : s'.acc = acc := hs'.acc
  refine ⟨_, _, fun fuel => ?_, hs'.setCell hfirst htop acc, h⟩
  rw [Machine.execute, Machine.store, bind_ok hpop, bind_ok (get_ok s'), hcell,
    ← hs'.storeWord hfirst htop acc, hacc]

theorem binary {op : BinOp} (hi : S.loaded.code.toList[pc]? = some (.binary op))
    (hsp : firstCell ≤ σ.sp) (hsp' : σ.sp < S.top)
    (hfault : op.divides = true ∧ acc = 0 → S.allowed (.faulted (.divisionByZero pc)))
    (h : ¬ (op.divides = true ∧ acc = 0) →
      S.Ends ⟨op.apply (σ.cell σ.sp) acc, pc + 1, σ.drop 1⟩) : S.Ends ⟨acc, pc, σ⟩ := by
  refine .of_execute hi fun s hs => ?_
  obtain ⟨s', hpop, hs'⟩ := hs.pop hsp hsp'
  have hacc : s'.acc = acc := hs'.acc
  have hpc : s'.pc = pc + 1 := hs'.pc
  have hbinary : ∀ fuel, Machine.execute S.loaded fuel (.binary op) s = (do
      if op.divides ∧ s'.acc = 0 then Machine.fault (.divisionByZero (s'.pc - 1))
      Machine.setAcc (op.apply (σ.cell σ.sp) s'.acc) : Exec Unit) s' := fun _ => bind_ok hpop
  simp only [hbinary, hacc, hpc, Nat.add_sub_cancel]
  by_cases hzero : op.divides = true ∧ acc = 0
  · refine .inr ⟨_, s', fun _ => ?_, hfault hzero⟩
    rw [if_pos hzero]
    rfl
  · refine .inl ⟨_, _, fun _ => ?_, hs'.withAcc _, h hzero⟩
    rw [if_neg hzero]
    rfl

theorem call {target : UInt64} (hi : S.loaded.code.toList[pc]? = some (.call target))
    (hsp : S.base ≤ σ.sp) (hsp' : σ.sp ≤ S.top)
    (h : S.base ≤ σ.sp - 1 → S.Ends ⟨acc, target.toNat, σ.push (Word.ofNat (pc + 1))⟩) :
    S.Ends ⟨acc, pc, σ⟩ := by
  refine .of_execute hi fun s hs => ?_
  have hpc : s.pc = pc + 1 := hs.pc
  have hcall : ∀ fuel, Machine.execute S.loaded fuel (.call target) s = (do
      Machine.push (Word.ofNat (pc + 1))
      Machine.jump target.toNat : Exec Unit) s := by
    intro fuel
    rw [Machine.execute, Machine.call, bind_ok (get_ok s), hpc]
  simp only [hcall]
  rcases hs.push hsp hsp' (Word.ofNat (pc + 1)) with ⟨hroom, s', hok, hs'⟩ | ⟨size, s', herror⟩
  · exact .inl ⟨_, _, fun _ => bind_ok hok, hs'.withPc _, h hroom⟩
  · exact .inr ⟨_, s', fun _ => bind_error herror, S.overflow size⟩

theorem enter {n : Nat} (hi : S.loaded.code.toList[pc]? = some (.enter (Word.ofNat n)))
    (hn : n ≤ 2 ^ 60) (hsp : S.base ≤ σ.sp) (hsp' : σ.sp ≤ S.top)
    (h : S.base ≤ σ.sp - 1 - n → S.Ends ⟨acc, pc + 1, σ.enter n⟩) : S.Ends ⟨acc, pc, σ⟩ := by
  have hfirst := S.first_le
  have htop := S.top_le
  have hfirst' : firstCell = 8192 := rfl
  refine .of_execute hi fun s hs => ?_
  have hbp : s.bp = addr σ.bp := hs.bp
  have henter : ∀ fuel, Machine.execute S.loaded fuel (.enter (Word.ofNat n)) s = (do
      Machine.push (addr σ.bp)
      modify fun s => { s with bp := s.sp, sp := Machine.wordsAbove s.sp (-Word.ofNat n) }
      Machine.checkStack : Exec Unit) s := by
    intro fuel
    rw [Machine.execute, Machine.enter, bind_ok (get_ok s), hbp]
  simp only [henter]
  rcases hs.push hsp hsp' (addr σ.bp) with ⟨hroom, s', hok, hs'⟩ | ⟨size, s', herror⟩
  · have hentered : S.Shows { s' with bp := s'.sp, sp := Machine.wordsAbove s'.sp (-Word.ofNat n) }
        ⟨acc, pc + 1, σ.enter n⟩ := by
      have hsp : s'.sp = addr (σ.sp - 1) := hs'.sp
      rw [hsp, wordsAbove_addr, Word.toInt_neg_ofNat (by omega), ← sub_eq_add_neg]
      exact (hs'.withBp _).withSp _
    have hcheck := hentered.checkStack (by show -2 ^ 60 ≤ σ.sp - 1 - n; omega)
      (by show σ.sp - 1 - n < 2 ^ 60; omega)
    by_cases hlt : σ.sp - 1 - n < S.base
    · exact .inr ⟨_, _, fun _ => (bind_ok hok).trans
        ((bind_ok (modify_ok _ s')).trans (hcheck.trans (if_pos hlt))), S.overflow _⟩
    · exact .inl ⟨_, _, fun _ => (bind_ok hok).trans
        ((bind_ok (modify_ok _ s')).trans (hcheck.trans (if_neg hlt))), hentered, h (by omega)⟩
  · exact .inr ⟨_, s', fun _ => bind_error herror, S.overflow size⟩

theorem leave {caller : Int} {index : Nat} (hi : S.loaded.code.toList[pc]? = some .leave)
    (hbp : firstCell ≤ σ.bp) (hbp' : σ.bp + 1 < S.top) (hcaller : σ.cell σ.bp = addr caller)
    (hindex : (σ.cell (σ.bp + 1)).toUnsigned = index)
    (h : S.Ends ⟨acc, index, σ.leave caller⟩) : S.Ends ⟨acc, pc, σ⟩ := by
  refine .of_execute hi fun s hs => .inl ?_
  have hs₁ : S.Shows { s with sp := s.bp } ⟨acc, pc + 1, { σ with sp := σ.bp }⟩ := by
    have hbp : s.bp = addr σ.bp := hs.bp
    exact hbp ▸ hs.withSp σ.bp
  obtain ⟨s₂, hpop₂, hs₂⟩ := hs₁.pop hbp (show σ.bp < S.top by omega)
  have hs₂' := hs₂.withBp caller
  obtain ⟨s₃, hpop₃, hs₃⟩ := hs₂'.pop (show firstCell ≤ σ.bp + 1 by omega) hbp'
  refine ⟨_, _, fun fuel => ?_, hs₃.withPc index, ?_⟩
  · rw [Machine.execute, Machine.leave, bind_ok (modify_ok _ s), bind_ok hpop₂,
      show Stack.cell _ _ = _ from hcaller, bind_ok (modify_ok _ s₂), bind_ok hpop₃]
    show Machine.jump (σ.cell (σ.bp + 1)).toUnsigned s₃ = _
    rw [hindex]
    rfl
  · have hsp : σ.bp + 1 + 1 = σ.bp + 2 := by omega
    simpa only [Stack.drop, Stack.leave, hsp] using h

theorem exit (hi : S.loaded.code.toList[pc]? = some (.service .exit)) (hsp : firstCell ≤ σ.sp)
    (hsp' : σ.sp < S.top) (h : S.allowed (.exited (σ.cell σ.sp))) : S.Ends ⟨acc, pc, σ⟩ := by
  refine .of_execute hi fun s hs => .inr ⟨_, s, fun fuel => ?_, h⟩
  have hload := hs.loadWord hsp hsp'
  have hs : s.sp = addr σ.sp := hs.sp
  have hexit : Machine.execute S.loaded fuel (.service .exit) s =
      (Machine.loadWord (Machine.wordsAbove s.sp 0) >>= fun w => throw (.exited w) : Exec Unit) s :=
    rfl
  rw [hexit, hs, wordsAbove_addr, show (0 : Word).toInt = 0 from rfl, Int.add_zero, bind_ok hload]
  rfl

end Ends

end Setting

end MiniC
