import MiniC.Proofs.Output.Instructions

/-!
# Tracing

A traced run executes the same instructions as one that is not traced, passes through the same
machines and stops for the same reason. What it writes differs by the rows alone, one before the
output of each instruction (`Program.run_of_trace`). This needs that no instruction looks at what
was written, and that every step counts one cycle.
-/

namespace MiniC

/-- An instruction that was executed, with the machine that fetched it and with what it wrote. -/
structure Executed where
  machine : Machine
  instr : Instr
  output : List UInt8

namespace Executed

/-- The row that tracing adds for the instruction. -/
def row (e : Executed) : List UInt8 := Utf8.encode (e.instr.traceRow (e.machine.cycle + 1) ++ "\n")

/-- What is written for an instruction: its own output, behind its row if there are rows. -/
def text (rows : Bool) (e : Executed) : List UInt8 := (if rows then e.row else []) ++ e.output

end Executed

namespace Machine

variable {loaded : Loaded} {s : Machine} {i : Instr} {fuel : Nat}

/-! ## One step -/

/-- The machine that has fetched its next instruction. -/
def fetched (s : Machine) : Machine := { s with pc := s.pc + 1, cycle := s.cycle + 1 }

/-- Execution does not know whether it is traced. -/
theorem execute_trace (loaded : Loaded) (trace : Bool) (fuel : Nat) (i : Instr) :
    execute { loaded with trace } fuel i = execute loaded fuel i := by
  cases i with
  | service call => cases call <;> rfl
  | _ => rfl

theorem step_of_none (h : loaded.code[s.pc]? = none) :
    step loaded fuel s = .error (.faulted (.unknownInstruction s.pc s.cycle)) s := by
  rw [step, Setting.bind_ok (Setting.get_ok s), h]
  rfl

theorem step_of_some (h : loaded.code[s.pc]? = some i) :
    step loaded fuel s =
      (if loaded.trace then do
        emit (Utf8.encode (i.traceRow (s.cycle + 1) ++ "\n"))
        execute loaded fuel i
      else execute loaded fuel i) s.fetched := by
  rw [step, Setting.bind_ok (Setting.get_ok s), h]
  dsimp only
  rw [Setting.bind_ok (Setting.modify_ok _ s)]
  rfl

/-- A step writes what the instruction writes, and its row before that if it is traced. In all else
it is the same. -/
theorem writes_step (h : loaded.code[s.pc]? = some i) (fuel : Nat) :
    ∃ (output : List UInt8) (r : EStateM.Result Stop Machine Unit),
      (Exec.ended r).cycle = s.cycle + 1 ∧
      ∀ trace, outlet.Writes (step { loaded with trace } fuel) s
        (Executed.text trace ⟨s, i, output⟩) r := by
  have hexecute := Exec.Composed.execute loaded fuel i
  obtain ⟨output, r, -, hr⟩ := hexecute.prints s.fetched
  refine ⟨output, r, ?_, fun trace => ?_⟩
  · have hend := hr.accepted (.empty none) (Sink.accepts_of_unlimited rfl output)
    have hcycle := hexecute.cycle_eq (outlet.put (.empty none) s.fetched)
    rw [hend] at hcycle
    cases r <;> exact hcycle
  have hstep : ∀ out, step { loaded with trace } fuel (outlet.put out s) =
      (if trace then do
        emit (Utf8.encode (i.traceRow (s.cycle + 1) ++ "\n"))
        execute loaded fuel i
      else execute loaded fuel i) (outlet.put out s.fetched) := fun out => by
    have hcode : ({ loaded with trace } : Loaded).code[(outlet.put out s).pc]? = some i := h
    rw [step_of_some hcode, execute_trace]
    rfl
  cases trace with
  | false => exact .congr hstep hr
  | true => exact .congr hstep (.seq (writes_emit _ _) hr)

/-! ## Runs -/

/-- The machines that a run passes through: one before each instruction, and the last one. -/
def states (loaded : Loaded) : Nat → Machine → List Machine
  | 0, s => [s]
  | fuel + 1, s =>
    match loaded.code[s.pc]? with
    | none => [s]
    | some _ =>
      match step loaded fuel s with
      | .ok _ s' => s :: states loaded fuel s'
      | .error _ s' => [s, s']

/-- The machines of the instructions in a journal and the last one, each with the sink that has
taken what was written before. -/
def passed (rows : Bool) (out : Sink) (journal : List Executed) (last : Machine) : List Machine :=
  (journal.mapIdx fun n e =>
    { e.machine with out := out.write ((journal.take n).flatMap (·.text rows)) }) ++
  [{ last with out := out.write (journal.flatMap (·.text rows)) }]

theorem passed_cons (rows : Bool) (out : Sink) (e : Executed) (journal : List Executed)
    (last : Machine) : passed rows out (e :: journal) last =
      { e.machine with out } :: passed rows (out.write (e.text rows)) journal last := by
  simp [passed, List.mapIdx_cons, Sink.write_append]

/-- A journal of a run that begins in the given cycle: each instruction is counted and is the one
that the machine before it points to. -/
def Numbered (code : Array Instr) (cycle : Nat) (journal : List Executed) : Prop :=
  ∀ n e, journal[n]? = some e → e.machine.cycle = cycle + n ∧ code[e.machine.pc]? = some e.instr

theorem Numbered.cons {code : Array Instr} {journal : List Executed} {output : List UInt8}
    (hi : code[s.pc]? = some i) (h : Numbered code (s.cycle + 1) journal) :
    Numbered code s.cycle (⟨s, i, output⟩ :: journal) := by
  intro n e hn
  cases n with
  | zero =>
    obtain rfl : ⟨s, i, output⟩ = e := by simpa using hn
    exact ⟨rfl, hi⟩
  | succ n =>
    obtain ⟨hcycle, hcode⟩ := h n e hn
    exact ⟨by omega, hcode⟩

/-- Runs of one machine, traced and not traced, are the same but for the rows. -/
theorem run_eq (loaded : Loaded) (fuel : Nat) (s : Machine) :
    ∃ (journal : List Executed) (last : Machine) (stop : Stop),
      Numbered loaded.code s.cycle journal ∧ last.cycle = s.cycle + journal.length ∧
      ∀ trace out, out.capacity = none →
        states { loaded with trace } fuel { s with out } = passed trace out journal last ∧
        run { loaded with trace } fuel { s with out } =
          (stop, { last with out := out.write (journal.flatMap (·.text trace)) }) := by
  induction fuel generalizing s with
  | zero =>
    refine ⟨[], s, .outOfFuel, by simp [Numbered], rfl, fun trace out _ => ?_⟩
    simp [states, run, passed]
  | succ fuel ih =>
    cases hi : loaded.code[s.pc]? with
    | none =>
      refine ⟨[], s, .faulted (.unknownInstruction s.pc s.cycle), by simp [Numbered], rfl,
        fun trace out _ => ⟨?_, ?_⟩⟩
      · simp [states, passed, hi]
      · have hcode : ({ loaded with trace } : Loaded).code[{ s with out }.pc]? = none := hi
        simp [run, step_of_none hcode]
    | some i =>
      obtain ⟨output, r, hcycle, hstep⟩ := writes_step hi fuel
      have hstep : ∀ trace out, out.capacity = none →
          step { loaded with trace } fuel { s with out } =
          outlet.replace (out.write (Executed.text trace ⟨s, i, output⟩)) r := fun trace out hout =>
        (hstep trace).accepted out (Sink.accepts_of_unlimited hout _)
      cases r with
      | error stop s' =>
        refine ⟨[⟨s, i, output⟩], s', stop, .cons hi (by simp [Numbered]), hcycle,
          fun trace out hout => ⟨?_, ?_⟩⟩
        · simp [states, hi, hstep trace out hout, Outlet.replace, outlet, passed]
        · simp [run, hstep trace out hout, Outlet.replace, outlet]
      | ok u s' =>
        obtain ⟨journal, last, stop, hnumbered, hlast, hrun⟩ := ih s'
        have hcycle : s'.cycle = s.cycle + 1 := hcycle
        rw [hcycle] at hnumbered hlast
        refine ⟨⟨s, i, output⟩ :: journal, last, stop, .cons hi hnumbered, ?_,
          fun trace out hout => ?_⟩
        · rw [hlast, List.length_cons]
          omega
        obtain ⟨hstates, hend⟩ := hrun trace (out.write (Executed.text trace ⟨s, i, output⟩))
          (by simpa using hout)
        constructor
        · simp [states, hi, hstep trace out hout, Outlet.replace, outlet, hstates, passed_cons]
        · simp [run, hstep trace out hout, Outlet.replace, outlet, hend, Sink.write_append]

end Machine

namespace Program

/-- The machines that a run of a program passes through. -/
def states (p : Program) (limits : Limits) (args : List String) (trace : Bool) (files : Descriptors)
    (out : Sink) (fuel : Nat) : List Machine :=
  match p.start limits args files out with
  | .ok _ s => s.states (p.load trace) fuel
  | .error _ s => [s]

/-- Starting a program writes nothing and counts no cycle. -/
theorem start_eq (p : Program) (limits : Limits) (args : List String) (files : Descriptors) :
    ∃ r, (Exec.ended r).cycle = 0 ∧
      ∀ out, p.start limits args files out = Machine.outlet.replace out r := by
  have hstart : Exec.Composed ⟨true, true⟩ (Machine.start p.symbols p.code.size args) := .start ..
  obtain ⟨bytes, r, hquiet, hr⟩ := hstart.prints (Machine.idle p.data limits files (.empty none))
  obtain rfl : bytes = [] := hquiet rfl
  have hend : ∀ out, p.start limits args files out = Machine.outlet.replace out r := fun out => by
    have haccepted := hr.accepted out (Sink.accepts_nil out)
    rwa [Sink.write_nil] at haccepted
  refine ⟨r, ?_, hend⟩
  have hcycle := hstart.cycle_eq (Machine.idle p.data limits files (.empty none))
  rw [show Machine.start _ _ _ _ = _ from hend (.empty none)] at hcycle
  cases r <;> exact hcycle

/-- A traced run of a program and one that is not traced have one journal of instructions: the
`n`-th one is fetched in cycle `n + 1`. They pass through its machines and end in the same machine
for the same reason. What they have written at each point is the output of the instructions so far,
in the traced run with the row of each instruction before its output. -/
theorem run_of_trace (p : Program) (limits : Limits) (args : List String) (files : Descriptors)
    (fuel : Nat) :
    ∃ (journal : List Executed) (last : Machine) (stop : Stop),
      (∀ (n : Nat) (e : Executed), journal[n]? = some e →
        e.machine.cycle = n ∧ (p.load false).code[e.machine.pc]? = some e.instr) ∧
      last.cycle = journal.length ∧
      ∀ trace,
        p.states limits args trace files (.empty none) fuel =
          (journal.mapIdx fun n e => { e.machine with
            out := (Sink.empty none).write ((journal.take n).flatMap (·.text trace)) }) ++
          [{ last with out := (Sink.empty none).write (journal.flatMap (·.text trace)) }] ∧
        p.run limits args trace files (.empty none) fuel =
          (stop,
            { last with out := (Sink.empty none).write (journal.flatMap (·.text trace)) }) := by
  obtain ⟨r, hcycle, hstart⟩ := p.start_eq limits args files
  have hstart := hstart (.empty none)
  cases r with
  | error stop s =>
    refine ⟨[], s, stop, by simp, hcycle, fun trace => ⟨?_, ?_⟩⟩
    · rw [states, hstart]
      simp [Outlet.replace, Machine.outlet]
    · rw [run, hstart]
      simp [Outlet.replace, Machine.outlet]
  | ok u s =>
    have hcycle : s.cycle = 0 := hcycle
    obtain ⟨journal, last, stop, hnumbered, hlast, hrun⟩ := Machine.run_eq (p.load false) fuel s
    refine ⟨journal, last, stop, ?_, by omega, fun trace => ?_⟩
    · intro n e hn
      obtain ⟨hn, hcode⟩ := hnumbered n e hn
      exact ⟨by omega, hcode⟩
    rw [states, run, hstart]
    exact hrun trace (.empty none) rfl

end Program

end MiniC
