import MiniC.Proofs.Machine.Actions
import MiniC.Proofs.Output.Sinks

/-!
# What machines write

Instructions write formatted text and stack traces, and steps write a row where they are traced.
What an instruction is made of never looks at the sink (`Exec.Composed.prints`). So a run does the
same with every sink, up to the point where the sink refuses something (`Machine.prints_running`).
-/

namespace MiniC

/-! ## Stack traces -/

namespace Backtrace

/-- A stack trace has no state but the sink. -/
def outlet : Outlet Stop Sink where
  put out _ := out
  refused stop := stop = .faulted (.output Sink.failure)

/-- Writes to the sink or fails. -/
def emit (bytes : List UInt8) : EStateM Stop Sink Unit := fun out =>
  if out.accepts bytes then .ok () (out.write bytes)
  else .error (.faulted (.output Sink.failure)) (out.write bytes)

theorem writes_emit (bytes : List UInt8) (s : Sink) :
    outlet.Writes (emit bytes) s bytes (.ok () s) where
  accepted _ h := if_pos h
  refused _ h := ⟨_, s, rfl, if_neg (Bool.eq_false_iff.mp h)⟩

theorem prints_emit (bytes : List UInt8) : outlet.Prints false (emit bytes) := fun s =>
  ⟨bytes, _, by simp, writes_emit bytes s⟩

theorem emit_bind (bytes : List UInt8) (k : EStateM Stop Sink Unit) :
    (do
      let accepted := (← get).accepts bytes
      modify (·.write bytes)
      if !accepted then throw (.faulted (.output Sink.failure))
      k) = (emit bytes >>= fun _ => k) := by
  funext out
  show (if !out.accepts bytes then throw (.faulted (.output Sink.failure)) >>= fun _ => k else k)
      (out.write bytes) = EStateM.bind (emit bytes) (fun _ => k) out
  rw [EStateM.bind, emit]
  cases out.accepts bytes <;> rfl

theorem prints_walk (symbols : SymbolTable) (entry : SymbolId) (memory : Memory) (fuel index : Nat)
    (bp : Word) (depth : Nat) :
    outlet.Prints false (walk symbols entry memory fuel index bp depth) := by
  induction fuel generalizing index bp depth with
  | zero => exact .throw _
  | succ fuel ih =>
    rw [walk]
    cases symbols.functionAround? index with
    | none => exact .pure ()
    | some id =>
      dsimp only
      rw [emit_bind]
      refine .bind (prints_emit _) fun _ => ?_
      split
      · exact .pure ()
      · split
        · split
          · exact .pure ()
          · exact ih _ _ _
        · exact .throw _
        · exact .throw _

theorem prints_print (symbols : SymbolTable) (memory : Memory) (fuel pc : Nat) (bp : Word) :
    outlet.Prints false (print symbols memory fuel pc bp) := by
  cases pc with
  | zero => exact .pure ()
  | succ index => exact prints_walk symbols SymbolTable.entry memory fuel index bp 0

end Backtrace

/-! ## Actions of machines -/

/-- The sink of a machine. -/
def Machine.outlet : Outlet Stop Machine where
  put out s := { s with out }
  refused stop := stop = .faulted (.output Sink.failure)

namespace Machine

/-! ## Writing -/

theorem writes_emit (bytes : List UInt8) (s : Machine) :
    outlet.Writes (emit bytes) s bytes (.ok () s) where
  accepted _ h := if_pos h
  refused _ h := ⟨_, s, rfl, if_neg (Bool.eq_false_iff.mp h)⟩

theorem prints_emit (bytes : List UInt8) : outlet.Prints false (emit bytes) := fun s =>
  ⟨bytes, _, by simp, writes_emit bytes s⟩

theorem stackTrace_apply (loaded : Loaded) (fuel : Nat) (s : Machine) (out : Sink) :
    stackTrace loaded fuel (outlet.put out s) =
      match Backtrace.print loaded.symbols s.memory fuel s.pc s.bp out with
      | .ok _ out => .ok () (outlet.put out s)
      | .error stop out => .error stop (outlet.put out s) := rfl

theorem prints_stackTrace (loaded : Loaded) (fuel : Nat) :
    outlet.Prints false (stackTrace loaded fuel) := by
  intro s
  obtain ⟨bytes, r, -, hr⟩ :=
    Backtrace.prints_print loaded.symbols s.memory fuel s.pc s.bp s.out
  have hfails : ∀ out : Sink, out.accepts bytes = false → ∃ stop s', outlet.refused stop ∧
      stackTrace loaded fuel (outlet.put out s) =
        .error stop (outlet.put (out.write bytes) s') := by
    intro out hout
    obtain ⟨stop, _, hstop, hprint⟩ := hr.refused out hout
    rw [stackTrace_apply]
    exact ⟨stop, s, hstop, by rw [show Backtrace.print _ _ _ _ _ out = _ from hprint]; rfl⟩
  cases r with
  | ok u _ =>
    refine ⟨bytes, .ok () s, by simp, fun out hout => ?_, hfails⟩
    rw [stackTrace_apply, show Backtrace.print _ _ _ _ _ out = _ from hr.accepted out hout]
    rfl
  | error stop _ =>
    refine ⟨bytes, .error stop s, by simp, fun out hout => ?_, hfails⟩
    rw [stackTrace_apply, show Backtrace.print _ _ _ _ _ out = _ from hr.accepted out hout]
    rfl

end Machine

namespace Exec.Composed

variable {α : Type} {r : Restraint} {x : Exec α}

theorem prints (h : Composed r x) : Machine.outlet.Prints r.quiet x := by
  induction h with
  | pure a => exact .pure a
  | throw stop => exact .throw stop
  | get hsame _ ih => exact .get (fun out s => hsame out s.cycle s) ih
  | @update g h _ =>
    refine .update fun out s => ?_
    have hcycle : (g s).cycle = s.cycle := (congrArg Machine.cycle (h s.out s.cycle s) :)
    show g { s with out } = { g s with out }
    rw [h out s.cycle s, ← hcycle]
  | bind _ _ ihx ihf => exact .bind ihx ihf
  | emit hloud bytes =>
    rw [hloud]
    exact Machine.prints_emit bytes
  | stackTrace hloud loaded fuel =>
    rw [hloud]
    exact Machine.prints_stackTrace loaded fuel

end Exec.Composed

namespace Machine

/-! ## Steps and runs -/

theorem prints_step (loaded : Loaded) (fuel : Nat) : outlet.Prints false (step loaded fuel) := by
  refine .get (fun _ _ => rfl) fun s => ?_
  split
  · exact .throw _
  refine .bind (.update fun _ _ => rfl) fun _ => ?_
  split
  · exact .bind (prints_emit _) fun _ => (Exec.Composed.execute _ _ _).prints
  · exact (Exec.Composed.execute _ _ _).prints

/-- A run as an action, which never succeeds. -/
def running (loaded : Loaded) (fuel : Nat) : Exec Unit := fun s =>
  .error (s.run loaded fuel).1 (s.run loaded fuel).2

theorem running_succ (loaded : Loaded) (fuel : Nat) :
    running loaded (fuel + 1) = (step loaded fuel >>= fun _ => running loaded fuel) := by
  funext s
  show running loaded (fuel + 1) s = EStateM.bind (step loaded fuel) _ s
  rw [running, run, EStateM.bind]
  cases step loaded fuel s <;> rfl

theorem prints_running (loaded : Loaded) (fuel : Nat) :
    outlet.Prints false (running loaded fuel) := by
  induction fuel with
  | zero => exact .throw Stop.outOfFuel
  | succ fuel ih =>
    rw [running_succ]
    exact .bind (prints_step loaded fuel) fun _ => ih

end Machine

end MiniC
