import MiniC.Machine.Start
import MiniC.Proofs.Machine.Views

/-!
# What instructions are made of

All that a machine does is composed of a few kinds of actions (`Exec.Composed`): an instruction is
gone through once here, and what it leaves alone is then an induction on the kinds. None of them
looks at the sink or has to do with the number of cycles (`Exec.Composed.cycle_eq`), and only the
two instructions that open and close a frame set the frame pointer (`Exec.Composed.bp_eq`).
-/

namespace MiniC

/-- Whether an instruction leaves the frame pointer alone. -/
def Instr.level : Instr → Bool
  | .enter _ | .leave => false
  | _ => true

namespace Exec

variable {α β : Type}

theorem bind_eq_ok {x : Exec α} {f : α → Exec β} {s s' : Machine} {b : β} :
    (x >>= f) s = .ok b s' ↔ ∃ a s₁, x s = .ok a s₁ ∧ f a s₁ = .ok b s' := by
  show EStateM.bind x f s = _ ↔ _
  rw [EStateM.bind]
  cases x s <;> simp

/-- The machine in which an action has ended. -/
def ended {α : Type} : EStateM.Result Stop Machine α → Machine
  | .ok _ s => s
  | .error _ s => s

/-- What an action keeps away from. -/
structure Restraint where
  /-- It writes nothing. -/
  quiet : Bool
  /-- It leaves the frame pointer alone. -/
  level : Bool

/-- Actions that look at the machine or change it, but for its sink and the number of cycles, and
sequences of such actions. Those that are not quiet may write, and those that are not level may set
the frame pointer. -/
inductive Composed (r : Restraint) : {α : Type} → Exec α → Prop
  | pure {α : Type} (a : α) : Composed r (pure a)
  | throw {α : Type} (stop : Stop) : Composed r (throw stop : Exec α)
  | get {α : Type} {g : Machine → Exec α} (hsame : ∀ out cycle s, g { s with out, cycle } = g s)
      (hg : ∀ s, Composed r (g s)) : Composed r (get >>= g)
  | update {g : Machine → Machine}
      (h : ∀ out cycle s, g { s with out, cycle } = { g s with out, cycle })
      (hbp : r.level = true → ∀ s, (g s).bp = s.bp) : Composed r (modify g)
  | bind {α β : Type} {x : Exec α} {f : α → Exec β} (hx : Composed r x)
      (hf : ∀ a, Composed r (f a)) : Composed r (x >>= f)
  | emit (hloud : r.quiet = false) (bytes : List UInt8) : Composed r (Machine.emit bytes)
  | stackTrace (hloud : r.quiet = false) (loaded : Loaded) (fuel : Nat) :
      Composed r (Machine.stackTrace loaded fuel)

/-! ### What is composed -/

namespace Composed

variable {α : Type} {r : Restraint}

theorem ofExcept (result : Except Fault α) : Composed r (Machine.ofExcept result) := by
  cases result with
  | ok a => exact .pure a
  | error f => exact .throw _

theorem mapM {γ : Type} {g : γ → Exec α} (hg : ∀ c, Composed r (g c)) :
    ∀ cs : List γ, Composed r (cs.mapM g)
  | [] => .pure _
  | c :: cs => by
    rw [List.mapM_cons]
    exact .bind (hg c) fun _ => .bind (mapM hg cs) fun _ => .pure _

theorem setAcc (value : Word) : Composed r (Machine.setAcc value) :=
  .update (fun _ _ _ => rfl) fun _ _ => rfl

theorem jump (target : Nat) : Composed r (Machine.jump target) :=
  .update (fun _ _ _ => rfl) fun _ _ => rfl

theorem loadWord (address : Word) : Composed r (Machine.loadWord address) :=
  .get (fun _ _ _ => rfl) fun _ => .ofExcept _

theorem loadByte (address : Word) : Composed r (Machine.loadByte address) :=
  .get (fun _ _ _ => rfl) fun _ => .ofExcept _

theorem changeMemory (access : Memory.Access Unit) : Composed r (Machine.changeMemory access) := by
  have heq : Machine.changeMemory access =
      (MonadState.get >>= fun s => Machine.changeMemory fun _ => access s.memory) := rfl
  rw [heq]
  refine .get (fun _ _ _ => rfl) fun s => ?_
  cases access s.memory with
  | ok _ memory =>
    show Composed r (modify fun s => { s with memory })
    exact .update (fun _ _ _ => rfl) fun _ _ => rfl
  | error f memory =>
    show Composed r (do
      modify fun s => { s with memory }
      Machine.fault f)
    exact .bind (.update (fun _ _ _ => rfl) fun _ _ => rfl) fun _ => .throw _

theorem askMemory (request : Memory → α × Memory) : Composed r (Machine.askMemory request) :=
  show Composed r (do
    let s ← MonadState.get
    modify fun t => { t with memory := (request s.memory).2 }
    return (request s.memory).1 : Exec α) from
  .get (fun _ _ _ => rfl) fun _ =>
    .bind (.update (fun _ _ _ => rfl) fun _ _ => rfl) fun _ => .pure _

theorem checkStack : Composed r Machine.checkStack := by
  refine .get (fun _ _ _ => rfl) fun s => ?_
  split
  · exact .throw _
  · exact .pure ()

theorem push (value : Word) : Composed r (Machine.push value) :=
  .bind (.update (fun _ _ _ => rfl) fun _ _ => rfl) fun _ => .bind .checkStack fun _ =>
    .get (fun _ _ _ => rfl) fun _ => .changeMemory _

theorem pop : Composed r Machine.pop :=
  .get (fun _ _ _ => rfl) fun _ => .bind (.loadWord _) fun _ =>
    .bind (.update (fun _ _ _ => rfl) fun _ _ => rfl) fun _ => .pure _

theorem stackArg (n : Word) : Composed r (Machine.stackArg n) :=
  .get (fun _ _ _ => rfl) fun _ => .loadWord _

theorem call (target : Nat) : Composed r (Machine.call target) :=
  .get (fun _ _ _ => rfl) fun _ => .bind (.push _) fun _ => .jump _

theorem branch (condition : Branch) (target : Nat) :
    Composed r (Machine.branch condition target) := by
  cases condition with
  | always => exact .jump _
  | ifZero | ifNonzero =>
    refine .get (fun _ _ _ => rfl) fun s => ?_
    split
    · exact .jump _
    · exact .pure ()

theorem enter (hr : r.level = false) (slots : Word) : Composed r (Machine.enter slots) :=
  .get (fun _ _ _ => rfl) fun _ => .bind (.push _) fun _ =>
    .bind (.update (fun _ _ _ => rfl) fun h => by simp [hr] at h) fun _ => .checkStack

theorem leave (hr : r.level = false) : Composed r Machine.leave :=
  .bind (.update (fun _ _ _ => rfl) fun _ _ => rfl) fun _ => .bind .pop fun _ =>
    .bind (.update (fun _ _ _ => rfl) fun h => by simp [hr] at h) fun _ => .bind .pop fun _ =>
      .jump _

theorem load (width : Width) : Composed r (Machine.load width) := by
  refine .get (fun _ _ _ => rfl) fun s => ?_
  cases width with
  | word => exact .bind (.loadWord _) fun _ => .setAcc _
  | byte => exact .bind (.loadByte _) fun _ => .setAcc _

theorem store (width : Width) : Composed r (Machine.store width) := by
  refine .bind .pop fun address => .get (fun _ _ _ => rfl) fun s => ?_
  cases width with
  | word => exact .changeMemory _
  | byte => exact .bind (.changeMemory _) fun _ => .setAcc _

theorem binary (op : BinOp) : Composed r (Machine.binary op) := by
  refine .bind .pop fun left => .get (fun _ _ _ => rfl) fun s => ?_
  split
  · exact .bind (.throw _) fun _ => .setAcc _
  · exact .setAcc _

theorem openFile : Composed r Machine.openFile :=
  .bind (.stackArg _) fun _ => .get (fun _ _ _ => rfl) fun _ =>
    .bind (.ofExcept _) fun _ => .bind (.stackArg _) fun _ =>
      .update (fun _ _ _ => rfl) fun _ _ => rfl

theorem fillBuffer : Composed r Machine.fillBuffer := by
  refine .bind (.stackArg _) fun fd => .bind (.stackArg _) fun buffer =>
    .bind (.stackArg _) fun length => ?_
  split
  · exact .setAcc _
  refine .get (fun _ _ _ => rfl) fun s => .bind (.ofExcept _) fun _ =>
    .get (fun _ _ _ => rfl) fun s => .bind (.update (fun _ _ _ => rfl) fun _ _ => rfl) fun _ => ?_
  split
  · exact .setAcc _
  · exact .bind (.changeMemory _) fun _ => .setAcc _

theorem printf (hr : r.quiet = false) (loaded : Loaded) : Composed r (Machine.printf loaded) := by
  refine .get (fun _ _ _ => rfl) fun s => ?_
  dsimp only
  split
  · exact .setAcc _
  exact .bind (.stackArg _) fun _ => .bind (.mapM (fun _ => .stackArg _) _) fun _ =>
    .get (fun _ _ _ => rfl) fun _ => .bind (.ofExcept _) fun _ =>
    .get (fun _ _ _ => rfl) fun _ => .bind (.ofExcept _) fun _ =>
      .bind (.emit hr _) fun _ => .setAcc _

theorem service (hr : r.quiet = false) (loaded : Loaded) (fuel : Nat) (call : Service) :
    Composed r (Machine.service loaded fuel call) := by
  cases call with
  | fileOpen => exact .openFile
  | fileRead => exact .fillBuffer
  | fileClose => exact .bind (.stackArg _) fun _ => .update (fun _ _ _ => rfl) fun _ _ => rfl
  | printf => exact .printf hr loaded
  | malloc => exact .bind (.stackArg _) fun _ => .bind (.askMemory _) fun _ => .setAcc _
  | realloc =>
    exact .bind (.stackArg _) fun _ => .bind (.stackArg _) fun _ => .bind (.askMemory _) fun _ =>
      .setAcc _
  | free => exact .bind (.stackArg _) fun _ => .bind (.askMemory _) fun _ => .pure _
  | memset | memcpy =>
    exact .bind (.stackArg _) fun _ => .bind (.stackArg _) fun _ => .bind (.stackArg _) fun _ =>
      .bind (.changeMemory _) fun _ => .setAcc _
  | memcmp =>
    exact .bind (.stackArg _) fun _ => .bind (.stackArg _) fun _ => .bind (.stackArg _) fun _ =>
      .get (fun _ _ _ => rfl) fun _ => .bind (.ofExcept _) fun _ => .setAcc _
  | stacktrace => exact .stackTrace hr loaded fuel
  | exit => exact .bind (.stackArg _) fun _ => .throw _

theorem execute (loaded : Loaded) (fuel : Nat) (i : Instr) :
    Composed ⟨false, i.level⟩ (Machine.execute loaded fuel i) := by
  cases i with
  | lea offset => exact .get (fun _ _ _ => rfl) fun _ => .setAcc _
  | imm value => exact .setAcc _
  | branch condition target => exact .branch _ _
  | call target => exact .call _
  | callCell address => exact .bind (.loadWord _) fun _ => .call _
  | callSlot offset =>
    exact .get (fun _ _ _ => rfl) fun _ => .bind (.loadWord _) fun _ => .call _
  | enter slots => exact .enter rfl _
  | adjust count => exact .update (fun _ _ _ => rfl) fun _ _ => rfl
  | leave => exact .leave rfl
  | load width => exact .load _
  | store width => exact .store _
  | push => exact .get (fun _ _ _ => rfl) fun _ => .push _
  | binary op => exact .binary _
  | service s => exact .service rfl _ _ _

theorem reserve (size : Nat) : Composed r (Machine.reserve size) := by
  refine .bind (.askMemory _) fun address => ?_
  split
  · exact .bind (.throw _) fun _ => .pure _
  · exact .pure _

theorem storeWords (address : Word) (words : List Word) :
    Composed r (Machine.storeWords address words) := by
  induction words generalizing address with
  | nil => exact .pure ()
  | cons w words ih => exact .bind (.changeMemory _) fun _ => ih _

theorem start (symbols : SymbolTable) (exitIndex : Nat) (args : List String) :
    Composed r (Machine.start symbols exitIndex args) := by
  have hargument : ∀ arg, Composed r (Machine.placeArgument arg) := fun arg =>
    .bind (.reserve _) fun _ => .bind (.changeMemory _) fun _ => .pure _
  have harguments : Composed r (Machine.placeArguments args) :=
    .bind (.mapM hargument args) fun _ => .bind (.reserve _) fun _ =>
      .bind (.storeWords _ _) fun _ => .pure _
  exact .bind harguments fun _ => .bind (.push _) fun _ => .bind (.push _) fun _ =>
    .bind (.push _) fun _ => .jump _

/-! ### What is left alone -/

variable {x : Exec α} {s s' : Machine} {a : α}

theorem bp_eq (h : Composed r x) (hr : r.level = true) (hx : x s = .ok a s') : s'.bp = s.bp := by
  induction h generalizing s s' with
  | pure => cases hx; rfl
  | throw => cases hx
  | get _ _ ih => exact ih s hx
  | update _ hbp =>
    cases hx
    exact hbp hr s
  | bind _ _ ihx ihf =>
    obtain ⟨b, s₁, hfirst, hrest⟩ := bind_eq_ok.mp hx
    rw [ihf b hrest, ihx hfirst]
  | emit _ bytes =>
    rw [Machine.emit] at hx
    split at hx
    · cases hx
      rfl
    · cases hx
  | stackTrace _ loaded fuel =>
    rw [Machine.stackTrace] at hx
    split at hx
    · cases hx
      rfl
    · cases hx

theorem cycle_eq (h : Composed r x) (s : Machine) : (ended (x s)).cycle = s.cycle := by
  induction h generalizing s with
  | pure | throw => rfl
  | get _ _ ih => exact ih s s
  | update h => exact (congrArg Machine.cycle (h s.out s.cycle s) :)
  | @bind _ _ x f _ _ ihx ihf =>
    have hx := ihx s
    cases hfirst : x s with
    | ok a s' =>
      rw [hfirst] at hx
      rw [Setting.bind_ok hfirst, ihf a s']
      exact hx
    | error stop s' =>
      rw [hfirst] at hx
      rw [Setting.bind_error hfirst]
      exact hx
  | emit _ bytes =>
    rw [Machine.emit]
    cases s.out.accepts bytes <;> rfl
  | stackTrace _ loaded fuel =>
    rw [Machine.stackTrace]
    cases Backtrace.print loaded.symbols s.memory fuel s.pc s.bp s.out <;> rfl

end Composed

end Exec

end MiniC
