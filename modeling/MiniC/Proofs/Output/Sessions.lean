import MiniC.Proofs.Output.Instructions
import MiniC.Proofs.Output.Listings
import MiniC.Session

/-!
# Sessions with a sink that fills up

Compiling writes the listing and looks at its sink no more than a run does
(`Compile.Composed.writes`, `Program.compileListed_eq`). A session is then a sequence of three
texts: the listing, the symbols and what the program prints. Each of them is a `Session.Gate`, which
the session passes if the sink takes the text. With a sink that fills up, a session writes the first
bytes of what it would write otherwise, and it ends with the error of the part that is cut
(`Session.run_of_capacity`).
-/

namespace MiniC

namespace Compile

variable {α : Type} {s s' : State} {x : CompileM α} {l : Listing} {p : Permit} {ids : Set SymbolId}

/-! ## Listings -/

/-- The sink of a listing. Where there is no listing, nothing is written. -/
def outlet : Outlet CompileError State where
  put out s := { s with listing := s.listing.map fun l => { l with out } }
  refused e := e.reason = .listing Sink.failure

theorem writes_listLines (count : Nat) (s : State) :
    ∃ bytes r, outlet.Writes (listLines count) s bytes r := by
  induction count generalizing s with
  | zero => exact ⟨[], .ok () s, .silent fun _ => rfl⟩
  | succ count ih =>
    cases hl : s.listing with
    | none =>
      refine ⟨[], .ok () s, .silent fun out => listLines_of_none _ ?_⟩
      simp [outlet, hl]
    | some l =>
      have hsome : ∀ out, (outlet.put out s).listing = some { l with out } := fun out => by
        simp [outlet, hl]
      by_cases hempty : l.rest.isEmpty = true
      · exact ⟨[], .ok () s, .silent fun out => listLines_of_empty _ (hsome out) hempty⟩
      by_cases hle : l.listed ≤ s.code.size
      · obtain ⟨more, r, hr⟩ := ih (s.recorded l)
        have hrefused : outlet.refused ⟨l.line, .listing Sink.failure⟩ := rfl
        have hnext : ∀ out, (outlet.put out s).recorded { l with out } =
            outlet.put (out.write (s.nextLine l)) (s.recorded l) := fun _ => rfl
        refine ⟨s.nextLine l ++ more, r, .print hrefused (fun out => ?_) hr⟩
        rw [listLines_succ count (hsome out) hempty, hnext]
        exact if_pos hle
      · refine ⟨[], .error ⟨l.line, .listingAhead l.listed s.code.size⟩ s, .silent fun out => ?_⟩
        rw [listLines_succ count (hsome out) hempty]
        exact if_neg hle

theorem writes_listBefore (line : Nat) (s : State) :
    ∃ bytes r, outlet.Writes (listBefore line) s bytes r := by
  cases hl : s.listing with
  | none =>
    refine ⟨[], .ok () s, .silent fun out => listBefore_of_none ?_⟩
    simp [outlet, hl]
  | some l =>
    obtain ⟨bytes, r, hr⟩ := writes_listLines (line - l.line) s
    refine ⟨bytes, r, .congr (fun out => ?_) hr⟩
    rw [listBefore, get_bind, show (outlet.put out s).listing = some { l with out } by
      simp [outlet, hl]]

theorem writes_advance (s : State) : ∃ bytes r, outlet.Writes advance s bytes r := by
  cases hitems : s.rest.items with
  | nil =>
    refine ⟨[], .ok () s, .silent fun out => ?_⟩
    rw [advance_apply, show (outlet.put out s).rest.items = [] from hitems]
    rfl
  | cons lexeme items =>
    have hrest : ∀ out, (outlet.put out s).rest.items = lexeme :: items := fun _ => hitems
    cases htoken : lexeme.token with
    | error reason =>
      refine ⟨[], .error ⟨lexeme.line, reason⟩ s, .silent fun out => ?_⟩
      simp only [advance_apply, hrest, htoken]
      rfl
    | ok token =>
      obtain ⟨bytes, r, hr⟩ := writes_listBefore lexeme.line
        { s with current := token, line := lexeme.line, rest := .ofList items }
      refine ⟨bytes, r, .congr (fun out => ?_) hr⟩
      simp only [advance_apply, hrest, htoken]
      rfl

theorem writes_of_silent (h : ∀ out, x (outlet.put out s) = outlet.replace out (x s)) :
    ∃ bytes r, outlet.Writes x s bytes r := ⟨[], x s, .silent h⟩

theorem replace_eq (out : Sink) (r : EStateM.Result CompileError State α) :
    outlet.replace out r = relist (Option.map fun l => { l with out }) r := by
  cases r <;> rfl

theorem Basic.writes (h : Basic p ids x) (s : State) : ∃ bytes r, outlet.Writes x s bytes r := by
  refine h.apart (motive := fun x => ∀ s, ∃ bytes r, outlet.Writes x s bytes r) writes_advance
    (fun {_ x} hapart s => writes_of_silent fun out => ?_) s
  rw [replace_eq]
  exact (hapart s).relist_eq _

theorem put_put (out out' : Sink) (s : State) :
    outlet.put out (outlet.put out' s) = outlet.put out s := by
  obtain ⟨current, line, rest, symbols, code, words, data, frame, limits, _ | l⟩ := s <;> rfl

/-- A sequence writes what its parts write. -/
theorem writes_bind {β : Type} {f : α → CompileM β} (hx : ∃ bytes r, outlet.Writes x s bytes r)
    (hf : ∀ out a s', x (outlet.put out s) = .ok a s' → ∃ bytes r, outlet.Writes (f a) s' bytes r) :
    ∃ bytes r, outlet.Writes (x >>= f) s bytes r := by
  obtain ⟨bytes, r, hr⟩ := hx
  cases r with
  | error e s' => exact ⟨bytes, _, hr.stop⟩
  | ok a s' =>
    obtain ⟨more, r, hmore⟩ := hf _ a _
      (hr.accepted (.empty none) (Sink.accepts_of_unlimited rfl bytes))
    exact ⟨_, r, hr.seq (.congr (fun out => by rw [put_put]) hmore)⟩

theorem writes_loop {more : Token → Bool} {body : α → CompileM α}
    (hwrites : ∀ a s, ∃ bytes r, outlet.Writes (body a) s bytes r) (fuel : Nat) (a : α)
    (s : State) : ∃ bytes r, outlet.Writes (loop more body fuel a) s bytes r := by
  induction fuel generalizing s a with
  | zero => exact ⟨[], .ok a s, .silent fun _ => rfl⟩
  | succ fuel ih =>
    cases hm : more s.current with
    | false => exact ⟨[], .ok a s, .silent fun out => loop_succ_of_not_more hm⟩
    | true =>
      obtain ⟨bytes, r, hr⟩ := writes_bind (hwrites a s) fun _ a' s' _ => ih a' s'
      exact ⟨bytes, r, .congr (fun out => loop_succ_of_more hm) hr⟩

/-- Compiling writes the listing and does not look at its sink. -/
theorem Composed.writes (h : Composed p ids x) (s : State) :
    ∃ bytes r, outlet.Writes x s bytes r := by
  induction h generalizing s with
  | basic h => exact h.writes s
  | bind _ _ ihx ihf => exact writes_bind (ihx s) fun _ a s' hfirst => ihf _ a s' hfirst s'
  | whileToken _ _ a ih =>
    obtain ⟨bytes, r, hr⟩ := writes_loop ih (s.left + 1) a s
    exact ⟨bytes, r, .congr (fun _ => whileToken_apply) hr⟩

theorem writes_finish (s : State) : ∃ bytes r, outlet.Writes finish s bytes r := by
  let f : Unit → CompileM Program := fun _ =>
    if (s.symbols.binding SymbolTable.entry).kind = .function then
      pure ⟨s.code, s.data, s.symbols⟩
    else fail .mainNotDefined
  have hf : ∀ s', ∃ bytes r, outlet.Writes (f ()) s' bytes r := fun s' => by
    dsimp only [f]
    split <;> exact writes_of_silent fun _ => rfl
  obtain ⟨bytes, r, hr⟩ := writes_bind (writes_listBefore (s.line + 1) s) fun _ u s' _ => hf s'
  exact ⟨bytes, r, .congr (y := listBefore (s.line + 1) >>= f) (fun _ => rfl) hr⟩

theorem writes_program (s : State) : ∃ bytes r, outlet.Writes program s bytes r := by
  rw [program_eq]
  exact writes_bind (composed_declarations.writes s) fun _ _ s' _ => writes_finish s'

/-- A listing is not given up on the way. -/
theorem Step.listed (h : Step p ids s s') (hs : s.listing.isSome) : s'.listing.isSome := by
  cases h with
  | list => rfl
  | _ => exact hs

/-- What comes of a compilation, without its last state. -/
def outcome {α : Type} : EStateM.Result CompileError State α → Except CompileError α
  | .ok a _ => .ok a
  | .error e _ => .error e

end Compile

namespace Program

variable (source : List UInt8) (limits : Limits)

/-- The sink of a listing is the one in the state that compiling ends in. -/
theorem compileListed_apply {out out' : Sink}
    {r : EStateM.Result CompileError Compile.State Program}
    (h : Compile.program (Compile.start source limits (some out)) = Compile.outlet.replace out' r) :
    compileListed source limits out = (Compile.outcome r, out') := by
  have hlisted := (Compile.steps_program (Compile.start source limits (some out))).keep
    Compile.Step.listed rfl
  cases r with
  | ok p s =>
    rw [Compile.after_of_ok h] at hlisted
    obtain ⟨l, hl⟩ := Option.isSome_iff_exists.mp hlisted
    obtain ⟨l', hl', rfl⟩ := Option.map_eq_some_iff.mp hl
    rw [compileListed, h]
    dsimp only [Outlet.replace, Compile.outcome]
    rw [hl]
  | error e s =>
    rw [Compile.after_of_error h] at hlisted
    obtain ⟨l, hl⟩ := Option.isSome_iff_exists.mp hlisted
    obtain ⟨l', hl', rfl⟩ := Option.map_eq_some_iff.mp hl
    rw [compileListed, h]
    dsimp only [Outlet.replace, Compile.outcome]
    rw [hl]

theorem compileListed_eq : ∃ bytes r, ∀ out : Sink,
    (out.accepts bytes = true → compileListed source limits out = (r, out.write bytes)) ∧
    (out.accepts bytes = false → ∃ line, compileListed source limits out =
      (.error ⟨line, .listing Sink.failure⟩, out.write bytes)) := by
  obtain ⟨bytes, r, hr⟩ :=
    Compile.writes_program (Compile.start source limits (some (.empty none)))
  refine ⟨bytes, Compile.outcome r, fun out => ⟨fun h => ?_, fun h => ?_⟩⟩
  · exact compileListed_apply source limits (hr.accepted out h)
  · obtain ⟨⟨line, reason⟩, s, rfl, herror⟩ := hr.refused out h
    exact ⟨line, compileListed_apply source limits (r := .error _ s) herror⟩

end Program

/-! ## Sessions -/

namespace Session

/-- A session begins by writing a text and goes on as another one. It ends with an error of its own
where the sink refuses the text. -/
structure Gate (text : List UInt8) (refusal : SessionEnd → Prop)
    (session next : Sink → SessionEnd × Sink) : Prop where
  taken : ∀ out : Sink, out.accepts text = true → session out = next (out.write text)
  refused : ∀ out : Sink, out.accepts text = false →
    refusal (session out).1 ∧ (session out).2 = out.write text

/-- Where nothing is written, nothing is refused. -/
theorem Gate.silent (refusal : SessionEnd → Prop) (session : Sink → SessionEnd × Sink) :
    Gate [] refusal session session where
  taken out _ := by rw [Sink.write_nil]
  refused out h := by simp at h

/-- A sink holds all that was written until it was full, whatever it was full of. -/
theorem Gate.written {text more : List UInt8} {refusal : SessionEnd → Prop}
    {session next : Sink → SessionEnd × Sink} (h : Gate text refusal session next)
    (hnext : ∀ out, (next out).2 = out.write more) (out : Sink) :
    (session out).2 = out.write (text ++ more) := by
  cases hout : out.accepts text with
  | true => rw [h.taken out hout, hnext, Sink.write_append]
  | false => rw [(h.refused out hout).2, Sink.write_append_of_refused hout]

variable (options : Options) (paths args : List String) (files : Descriptors) (fuel : Nat)

/-- What is written for the symbols of a program. -/
def dump : Except SessionError Program → List UInt8
  | .ok p => if options.symbols then Utf8.encode p.symbols.dump else []
  | .error _ => []

/-- What a session makes of its sources, and what it writes with that. -/
def compiled : Except SessionError Program × List UInt8 :=
  if paths.isEmpty then (.error .usage, [])
  else
    let capacity := (Limits.ofPoolSize options.poolSize).source.toNat
    match loadSources files.store capacity paths [] with
    | .error e => (.error e, [])
    | .ok source =>
      let (r, out) := compile options source (.empty none)
      (r.mapError .compile, out.written.toList)

/-! ### The run -/

/-- What is left of a session when the symbols are written. -/
def running (args : List String) (out : Sink) : Except SessionError Program → SessionEnd × Sink
  | .error e => (.failed e, out)
  | .ok p =>
    if options.listing then (.status 0, out)
    else
      let limits := Limits.ofPoolSize options.poolSize
      let (stop, machine) := p.run limits args options.trace files out fuel
      (.ofStop stop, machine.out)

theorem gate_program (p : Program) (limits : Limits) (trace : Bool) :
    ∃ printed stop, Gate printed (· = .failed (.fault (.output Sink.failure)))
      (fun out =>
        let (stop, machine) := p.run limits args trace files out fuel
        (.ofStop stop, machine.out))
      fun out => (.ofStop stop, out) := by
  have hstart : Exec.Composed ⟨false, true⟩ (Machine.start p.symbols p.code.size args) := .start ..
  have hprints : Machine.outlet.Prints false (Machine.start p.symbols p.code.size args >>= fun _ =>
      Machine.running (p.load trace) fuel) :=
    .bind hstart.prints fun _ => Machine.prints_running _ _
  have hrun : ∀ out, (Machine.start p.symbols p.code.size args >>= fun _ =>
      Machine.running (p.load trace) fuel) (Machine.idle p.data limits files out) =
        .error (p.run limits args trace files out fuel).1
          (p.run limits args trace files out fuel).2 := by
    intro out
    rw [Program.run, Program.start]
    cases hstart : Machine.start p.symbols p.code.size args
      (Machine.idle p.data limits files out) with
    | ok u s => rw [Outlet.bind_of_ok hstart, Machine.running]
    | error stop s => rw [Outlet.bind_of_error hstart]
  obtain ⟨bytes, r, -, hr⟩ := hprints (Machine.idle p.data limits files (.empty none))
  cases r with
  | ok u s =>
    have hok := hr.accepted (.empty none) (Sink.accepts_of_unlimited rfl bytes)
    rw [show Machine.outlet.put _ _ = Machine.idle p.data limits files (.empty none) from rfl,
      hrun] at hok
    cases hok
  | error stop s =>
    refine ⟨bytes, stop, fun out haccepts => ?_, fun out haccepts => ?_⟩
    · obtain ⟨hstop, hmachine⟩ :=
        EStateM.Result.error.inj ((hrun out).symm.trans (hr.accepted out haccepts))
      dsimp only
      rw [hstop, hmachine]
      rfl
    · obtain ⟨stop, s, hstop, herror⟩ := hr.refused out haccepts
      obtain ⟨rfl, hmachine⟩ := EStateM.Result.error.inj ((hrun out).symm.trans herror)
      exact ⟨congrArg SessionEnd.ofStop hstop, by dsimp only; rw [hmachine]; rfl⟩

/-- The run of a session, if it comes to that. -/
theorem gate_running (r : Except SessionError Program) :
    ∃ printed result, Gate printed (· = .failed (.fault (.output Sink.failure)))
      (running options files fuel args · r) fun out => (result, out) := by
  cases r with
  | error e => exact ⟨[], .failed e, .silent _ _⟩
  | ok p =>
    by_cases hlisting : options.listing = true
    · simp only [running, if_pos hlisting]
      exact ⟨[], .status 0, .silent _ _⟩
    · simp only [running, if_neg hlisting]
      obtain ⟨printed, stop, h⟩ := gate_program args files fuel p
        (Limits.ofPoolSize options.poolSize) options.trace
      exact ⟨printed, .ofStop stop, h⟩

/-! ### The symbols -/

/-- The end of a session from a stage on. -/
def conclude (fuel : Nat) : Stage → SessionEnd × Sink
  | .over result out => (result, out)
  | .ready loaded machine =>
    let (stop, machine) := machine.run loaded fuel
    (.ofStop stop, machine.out)

/-- What is left of a session when its sources are compiled. -/
def starting (args : List String) (out : Sink) : Except SessionError Program → SessionEnd × Sink
  | .error e => (.failed e, out)
  | .ok p => conclude fuel (startProgram options p args files out)

theorem gate_starting (r : Except SessionError Program) :
    Gate (dump options r) (· = .failed (.output Sink.failure))
      (starting options files fuel args · r)
      (running options files fuel args · r) := by
  cases r with
  | error e => exact .silent _ _
  | ok p =>
    refine ⟨fun out h => ?_, fun out h => ?_⟩
    · rw [dump] at h
      simp only [starting, startProgram, h, running, dump, Program.run]
      cases options.listing with
      | true => rfl
      | false => cases p.start (Limits.ofPoolSize options.poolSize) args files _ <;> rfl
    · rw [dump] at h
      simp [starting, startProgram, h, conclude, dump]

/-! ### The listing -/

theorem compile_eq (source : List UInt8) : ∃ bytes r, ∀ out : Sink,
    (out.accepts bytes = true → compile options source out = (r, out.write bytes)) ∧
    (out.accepts bytes = false → ∃ line, compile options source out =
      (.error ⟨line, .listing Sink.failure⟩, out.write bytes)) := by
  by_cases hlisting : options.listing = true
  · simp only [compile, if_pos hlisting]
    exact Program.compileListed_eq ..
  · refine ⟨[], Program.compile source (Limits.ofPoolSize options.poolSize), fun out => ?_⟩
    simp [compile, if_neg hlisting]

theorem run_eq_conclude (out : Sink) :
    run options paths args files out fuel = conclude fuel (start options paths args files out) := by
  rw [run]
  cases start options paths args files out <;> rfl

theorem gate_run : ∃ arguments, Gate (compiled options paths files).2
    (fun result => ∃ line, result = .failed (.compile ⟨line, .listing Sink.failure⟩))
    (run options paths args files · fuel)
    (starting options files fuel arguments · (compiled options paths files).1) := by
  simp only [run_eq_conclude, start, compiled]
  cases hlast : paths.getLast? with
  | none =>
    rw [List.getLast?_eq_none_iff] at hlast
    simp only [hlast, List.isEmpty_nil, if_true]
    exact ⟨[], .silent _ _⟩
  | some last =>
    have hne : ¬ paths.isEmpty = true := by
      rintro h
      rw [List.isEmpty_iff.mp h] at hlast
      cases hlast
    simp only [if_neg hne]
    refine ⟨last :: args, ?_⟩
    cases loadSources files.store (Limits.ofPoolSize options.poolSize).source.toNat paths [] with
    | error e => exact .silent _ _
    | ok source =>
      dsimp only
      obtain ⟨listed, r, hcompile⟩ := compile_eq options source
      simp only [(hcompile (.empty none)).1 (Sink.accepts_of_unlimited rfl listed)]
      rw [Sink.toList_write_empty_none]
      refine ⟨fun out hout => ?_, fun out hout => ?_⟩
      · rw [(hcompile out).1 hout]
        cases r <;> rfl
      · obtain ⟨line, hline⟩ := (hcompile out).2 hout
        rw [hline]
        exact ⟨⟨line, rfl⟩, rfl⟩

/-! ### All of it -/

/-- A session writes its listing, then its symbols and then what its program prints. With a sink
that is full after some bytes it writes just these, and ends as before if they are all. Otherwise it
ends with the error of the part that is cut. -/
theorem run_of_capacity (options : Options) (paths args : List String) (files : Descriptors)
    (fuel capacity : Nat) :
    let whole := run options paths args files (.empty none) fuel
    let cut := run options paths args files (.empty (some capacity)) fuel
    let listed := (compiled options paths files).2
    let dumped := dump options (compiled options paths files).1
    cut.2.written.toList = whole.2.written.toList.take capacity ∧
    listed ++ dumped <+: whole.2.written.toList ∧
    if whole.2.written.size ≤ capacity then cut.1 = whole.1
    else if capacity < listed.length then
      ∃ line, cut.1 = .failed (.compile ⟨line, .listing Sink.failure⟩)
    else if capacity < (listed ++ dumped).length then cut.1 = .failed (.output Sink.failure)
    else cut.1 = .failed (.fault (.output Sink.failure)) := by
  intro whole cut listed dumped
  obtain ⟨arguments, hlisting⟩ := gate_run options paths args files fuel
  have hdumping := gate_starting options arguments files fuel (compiled options paths files).1
  obtain ⟨printed, result, hprinting⟩ :=
    gate_running options arguments files fuel (compiled options paths files).1
  have hwritten : ∀ out, (run options paths args files out fuel).2 =
      out.write (listed ++ dumped ++ printed) := fun out => by
    rw [List.append_assoc, hlisting.written (hdumping.written (hprinting.written fun _ => ?_)),
      List.append_nil]
    rw [Sink.write_nil]
  have hends : ∀ out : Sink, out.accepts (listed ++ dumped ++ printed) = true →
      (run options paths args files out fuel).1 = result := fun out h => by
    simp only [Sink.accepts_append, Sink.write_append, Bool.and_eq_true] at h
    rw [hlisting.taken out h.1.1, hdumping.taken _ h.1.2, hprinting.taken _ h.2]
  have hwhole : whole.2.written.toList = listed ++ dumped ++ printed := by
    rw [hwritten, Sink.toList_write_empty_none]
  have hsize : whole.2.written.size = (listed ++ dumped ++ printed).length := by
    rw [← hwhole, Array.length_toList]
  refine ⟨?_, ?_, ?_⟩
  · rw [hwritten, hwhole, Sink.toList_write_empty_some]
  · rw [hwhole]
    exact List.prefix_append _ _
  have htaken : ∀ text : List UInt8, text.length ≤ capacity →
      (Sink.empty (some capacity)).accepts text = true := fun _ => Sink.accepts_empty_some.mpr
  have hrefused : ∀ text : List UInt8, capacity < text.length →
      (Sink.empty (some capacity)).accepts text = false := fun text h =>
    Bool.eq_false_iff.mpr fun haccepts => absurd (Sink.accepts_empty_some.mp haccepts) (by omega)
  rw [hsize]
  split_ifs with hall hlisted hdumped
  · exact (hends _ (htaken _ hall)).trans (hends _ (Sink.accepts_of_unlimited rfl _)).symm
  · exact (hlisting.refused _ (hrefused listed hlisted)).1
  · have hfirst := htaken listed (by omega)
    have hsecond := hrefused _ hdumped
    rw [Sink.accepts_append, hfirst, Bool.true_and] at hsecond
    exact (congrArg Prod.fst (hlisting.taken _ hfirst)).trans (hdumping.refused _ hsecond).1
  · have hboth := htaken (listed ++ dumped) (by omega)
    have hlast := hrefused (listed ++ dumped ++ printed) (by omega)
    rw [Sink.accepts_append, hboth, Bool.true_and, Sink.write_append] at hlast
    rw [Sink.accepts_append, Bool.and_eq_true] at hboth
    exact (congrArg Prod.fst ((hlisting.taken _ hboth.1).trans (hdumping.taken _ hboth.2))).trans
      (hprinting.refused _ hlast).1

end Session

end MiniC
