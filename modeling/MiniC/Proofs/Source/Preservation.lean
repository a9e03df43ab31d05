import MiniC.Proofs.Machine.Starting
import MiniC.Proofs.Source.Simulation

/-!
# Programs run as they mean

A program that compiles stops with the value that it evaluates to, or with a division by zero where
evaluation divides by zero, unless the stack is too small for it (`stops_of_eval`). Its entry point
is entered with all variables 0 (`Image.holds_main`), the code of its functions leads to what calls
of them mean, and the entry point returns to instructions that exit with its value (`ends_exit`).
-/

namespace MiniC

namespace Source

/-! ## The entry point -/

namespace Image

variable {S : Setting} {p : Parts} {I : Image S p} {count vector back acc : Word}

theorem cell_firstStack {i : Int} {n : Nat} (h : i < S.top - 4) :
    ((Program.firstStack S.top count vector back).enter n).cell i = 0 := by
  rw [Stack.cell_enter_of_ne (show i ≠ S.top - 1 - 1 - 1 - 1 by omega), Program.firstStack,
    Stack.cell_push_of_ne (show i ≠ S.top - 1 - 1 - 1 by omega),
    Stack.cell_push_of_ne (show i ≠ S.top - 1 - 1 by omega),
    Stack.cell_push_of_ne (show i ≠ S.top - 1 by omega)]

theorem holds_main (hroom : S.base ≤ S.top - 4 - p.main.locals.length) :
    I.Holds p.main ⟨zeros p.locals, zeros p.globals⟩
      ((Program.firstStack S.top count vector back).enter p.main.locals.length) := by
  have hbp : ((Program.firstStack S.top count vector back).enter p.main.locals.length).bp =
      S.top - 4 := by
    show S.top - 1 - 1 - 1 - 1 = _
    omega
  have hsp : ((Program.firstStack S.top count vector back).enter p.main.locals.length).sp =
      S.top - 4 - p.main.locals.length := by
    show S.top - 1 - 1 - 1 - 1 - (p.main.locals.length : Int) = _
    omega
  refine ⟨by omega, by omega, ?_, fun x => ?_, fun x => ?_⟩
  · rw [hbp]
    show S.top - 4 + 0 + 1 < S.top
    omega
  · show (if x ∈ p.main.locals then some 0 else none) = _
    cases ho : p.main.offset x with
    | none =>
      rw [if_neg (mt (List.mem_append_right p.main.params) (Function.offset_eq_none.mp ho))]
      rfl
    | some o =>
      rcases Function.offset_cases ho with ⟨k, -, hk, -⟩ | ⟨k, hk, -, rfl⟩
      · exact absurd hk (Nat.not_lt_zero k)
      · rw [if_pos (List.mem_of_getElem? hk), Option.map_some, hbp, cell_firstStack (by omega)]
  · show zeros p.globals x = _
    rw [zeros]
    refine ite_congr rfl (fun hx => ?_) fun _ => rfl
    have hbounds := I.cell_bounds hx
    rw [cell_firstStack (by omega)]

/-- A program leads from its entry point to the index that this returns to. -/
theorem leads_main (I : Image S p) (fuel : Nat) (hroom : S.base ≤ S.top - 3) :
    S.Leads (p.eval fuel) (fun w v => ∃ σ, v = ⟨w, back.toUnsigned, σ⟩ ∧ σ.sp = S.top - 2)
      ⟨acc, I.start p.main, Program.firstStack S.top count vector back⟩ := by
  have hsp : (Program.firstStack S.top count vector back).sp = S.top - 3 := by
    show S.top - 1 - 1 - 1 = _
    omega
  have heval : p.eval fuel = (runBody (p.calls fuel) fuel p.main.body
      ⟨zeros p.locals, zeros p.globals⟩ >>= fun r => .ok r.1) :=
    map_eq_pure_bind (m := Except Failure) Prod.fst _
  rw [heval]
  refine .bind (leads_body p.main_mem (I.answers_calls fuel) fuel (by omega)
    (by rw [hsp]; show S.top - 3 + 0 < S.top; omega) fun hroom' => holds_main (by omega)) ?_
  rintro ⟨w, s⟩ _ ⟨σ, rfl, hsp', -⟩
  have hback : (Program.firstStack S.top count vector back).cell
      (Program.firstStack S.top count vector back).sp = back := Stack.cell_push_self _ _
  have hsp' : σ.sp = (Program.firstStack S.top count vector back).sp + 1 := hsp'
  exact .ok ⟨σ, by rw [hback], by omega⟩

end Image

end Source

/-! ## Programs -/

open Source

/-- Nothing about a program with its source, limits and arguments is so large that its size or
address is a negative number, and the arguments fit the heap. -/
@[mk_iff]
structure Program.Fits (p : Program) (source : List UInt8) (limits : Limits) (args : List String) :
    Prop where
  source : source.length < 2 ^ 63
  code : p.code.size + 2 < 2 ^ 63
  space : dataBase + Memory.extent p.data limits + argumentsSize args ≤ 2 ^ 63
  heap : argumentsSize args ≤ limits.heap.toNat

instance (p : Program) (source : List UInt8) (limits : Limits) (args : List String) :
    Decidable (p.Fits source limits args) :=
  decidable_of_iff _ (p.fits_iff source limits args).symm

theorem Program.Fits.extent_lt {p : Program} {source : List UInt8} {limits : Limits}
    {args : List String} (h : p.Fits source limits args) :
    dataBase + Memory.extent p.data limits < 2 ^ 63 := by
  have hspace := h.space
  have hvector : 0 < alignUp ((args.length + 1) * wordSize) :=
    alignUp_pos (Nat.mul_pos (Nat.succ_pos _) (by decide))
  rw [argumentsSize] at hspace
  omega

theorem Program.Fits.room {p : Program} {source : List UInt8} {limits : Limits} {args : List String}
    (h : p.Fits source limits args) : (Memory.ofData p.data limits).Room (argumentsSize args) where
  heap := by
    have hsize := Memory.size_ofData p.data limits
    have hheap := h.heap
    rw [Memory.heapSize]
    show _ ≤ limits.heap.toNat
    omega
  space := by
    have hextent := h.extent_lt
    rw [Memory.size_ofData, Memory.stackTop_ofData (by omega)]
    exact h.space
  freed := rfl

/-- The instructions that the entry point returns to. -/
theorem Program.ends_exit {p : Program} {limits : Limits} {trace : Bool} {S : Setting} {w : Word}
    {σ : Stack} (hS : p.RunsIn limits trace S) (hsp : S.base ≤ σ.sp) (hsp' : σ.sp ≤ S.top)
    (h : S.allowed (.exited w)) : S.Ends ⟨w, p.code.size, σ⟩ := by
  have hcode : S.loaded.code.toList = p.code.toList ++ [.push, .service .exit] := by
    rw [hS.loaded, Program.load, Array.toList_append]
  have hfirst := S.first_le
  refine .push (by simp [hcode]) hsp hsp' fun hroom => ?_
  refine .exit (by simp [hcode]) (show firstCell ≤ σ.sp - 1 by omega)
    (show σ.sp - 1 < S.top by omega) ?_
  have htop : (σ.push w).cell (σ.push w).sp = w := Stack.cell_push_self σ w
  rwa [htop]

variable {p : Source.Program} {limits : Limits} {program : Program} {args : List String}
  {trace : Bool} {files : Descriptors} {out : Sink}

/-- A program that compiles is laid out in the memory that it runs in. -/
theorem exists_image {S : Setting}
    (hcompile : Program.compile (Utf8.encode p.text) limits = .ok program)
    (hfits : program.Fits (Utf8.encode p.text) limits args) (hS : program.RunsIn limits trace S) :
    program.data.toList = List.replicate (wordSize * p.globals.length) 0 ∧
      ∃ I : Image S p.toParts, (program.symbols.binding SymbolTable.entry).value.toUnsigned =
        I.start p.main := by
  obtain ⟨items, o, hbuilt⟩ := Program.built hcompile
  obtain ⟨start, env, cell, hlayout, hdata, hentry⟩ := hbuilt.layout
  have hcode : S.loaded.code.toList = program.code.toList ++ [.push, .service .exit] := by
    rw [hS.loaded, Program.load, Array.toList_append]
  have hcode_lt := hfits.code
  have hstart := (hlayout.code p.main p.main_mem).le_length
  have hlength := program.code.length_toList
  refine ⟨hdata, ⟨start, env, cell, hcode ▸ hlayout.extend _, ?_, ?_, fun f hf => ?_, p.nodup⟩, ?_⟩
  · rw [hS.loaded, Program.load, Array.size_append]
    exact hcode_lt
  · have hbase := hS.base
    have hle := le_alignUp (max limits.data.toNat program.data.size)
    have hsize : program.data.size = wordSize * p.globals.length := by
      rw [← Array.length_toList, hdata, List.length_replicate]
    have hextent := hfits.extent_lt
    rw [Memory.stackBase_cells (by omega)] at hbase
    rw [alignUp_eq] at hle
    rw [wordSize] at hsize
    omega
  · have hsource := hfits.source
    have hle := Parts.wordSize_mul_le hf
    rw [wordSize] at hle
    omega
  · rw [hentry, Word.toUnsigned_ofNat (by omega)]

/-- The ways in which a program may stop that evaluates to a result. -/
def Outcome (r : Except Failure Word) (stop : Stop) : Prop :=
  (match r with
    | .ok v => stop = .exited v
    | .error .divisionByZero => ∃ i, stop = .faulted (.divisionByZero i)
    | .error _ => False) ∨
  ∃ size, stop = .faulted (.stackOverflow size)

theorem stops_of_eval (hcompile : Program.compile (Utf8.encode p.text) limits = .ok program)
    (hfits : program.Fits (Utf8.encode p.text) limits args)
    (hquiet : trace = true → out.capacity = none) {fuel : Nat} {r : Except Failure Word}
    (heval : p.eval fuel = r) (hr : ∀ e, r = .error e → e = .divisionByZero) :
    ∃ N, ∀ steps, N ≤ steps → Outcome r (program.run limits args trace files out steps).1 := by
  obtain ⟨S, hS, hallowed⟩ := program.exists_setting trace
    hfits.extent_lt (Outcome r) fun size => .inr ⟨size, rfl⟩
  obtain ⟨hdata, I, hstart⟩ := exists_image hcompile hfits hS
  rw [← hallowed]
  refine program.run_of_ends hS hdata hfits.room hquiet fun vector hroom => ?_
  rw [hstart]
  have hleads : S.Leads (p.eval fuel) _ ⟨0, I.start p.main, Program.firstStack S.top
    (Word.ofNat args.length) vector (Word.ofNat program.code.size)⟩ := I.leads_main fuel hroom
  have hcode := hfits.code
  rw [heval, Word.toUnsigned_ofNat (by omega)] at hleads
  cases r with
  | ok w =>
    refine hleads ?_
    rintro _ ⟨σ, rfl, hsp⟩
    exact program.ends_exit hS (by omega) (by omega) (by rw [hallowed]; exact .inl rfl)
  | error e =>
    obtain rfl := hr e rfl
    exact hleads fun i => by rw [hallowed]; exact .inl ⟨i, rfl⟩

theorem exists_fits (source : List UInt8) (limits : Limits) (args : List String)
    (h : (Program.compile source limits).toOption.any (·.Fits source limits args) = true) :
    ∃ program, Program.compile source limits = .ok program ∧ program.Fits source limits args := by
  cases hcompile : Program.compile source limits with
  | error e => simp [hcompile, Except.toOption] at h
  | ok program => exact ⟨program, rfl, by simpa [hcompile, Except.toOption] using h⟩

section Calls

/-- Programs with functions that call each other and themselves. -/
theorem run_of_program_eval
    (hcompile : Program.compile (Utf8.encode p.text) limits = .ok program)
    (hfits : program.Fits (Utf8.encode p.text) limits args)
    (hquiet : trace = true → out.capacity = none) (fuel : Nat) :
    (∀ v, p.eval fuel = .ok v → ∃ N, ∀ steps, N ≤ steps →
      (program.run limits args trace files out steps).1 = .exited v ∨
        ∃ size, (program.run limits args trace files out steps).1 =
          .faulted (.stackOverflow size)) ∧
    (p.eval fuel = .error .divisionByZero → ∃ N, ∀ steps, N ≤ steps →
      (∃ i, (program.run limits args trace files out steps).1 = .faulted (.divisionByZero i)) ∨
        ∃ size, (program.run limits args trace files out steps).1 =
          .faulted (.stackOverflow size)) :=
  ⟨fun _ heval => stops_of_eval hcompile hfits hquiet heval (by simp),
    fun heval => stops_of_eval hcompile hfits hquiet heval (by simp)⟩

/-- `power(n, e)` returns `e ? n * power(n, e - 1) : 1`, and `main` returns
`power(2, power(3, 2)) / power(-5, 3)`. -/
def powerProgram : Source.Program :=
  let n : Name := ⟨"n", by decide +kernel⟩
  let e : Name := ⟨"e", by decide +kernel⟩
  let power : Name := ⟨"power", by decide +kernel⟩
  { globals := []
    functions :=
      [⟨power, [n, e], [],
        [.ret (some (.cond (.var e)
          (.binary .mul (.var n) (.call power [.var n, .binary .sub (.var e) (.literal 1)]))
          (.literal 1)))]⟩]
    locals := []
    body :=
      [.ret (some (.binary .div (.call power [.literal 2, .call power [.literal 3, .literal 2]])
        (.call power [.unary .negate (.literal 5), .literal 3])))]
    nodup := by decide +kernel
    not_global := by decide +kernel
    not_service := by decide +kernel }

theorem run_of_power_eval :
    ∃ program, Program.compile (Utf8.encode powerProgram.text)
        (.ofPoolSize Limits.defaultPoolSize) = .ok program ∧
      program.Fits (Utf8.encode powerProgram.text) (.ofPoolSize Limits.defaultPoolSize) ["power"] ∧
      powerProgram.eval 11 = .ok (-4) ∧
      ∃ N, ∀ steps, N ≤ steps →
        (program.run (.ofPoolSize Limits.defaultPoolSize) ["power"] true (.start ⟨[], []⟩ [])
          (.empty none) steps).1 = .exited (-4) ∨
        ∃ size, (program.run (.ofPoolSize Limits.defaultPoolSize) ["power"] true
          (.start ⟨[], []⟩ []) (.empty none) steps).1 = .faulted (.stackOverflow size) := by
  obtain ⟨program, hcompile, hfits⟩ := exists_fits (Utf8.encode powerProgram.text)
    (.ofPoolSize Limits.defaultPoolSize) ["power"] (by decide +kernel)
  have heval : powerProgram.eval 11 = .ok (-4) := by decide +kernel
  exact ⟨program, hcompile, hfits, heval,
    (run_of_program_eval hcompile hfits (fun _ => rfl) 11).1 (-4) heval⟩

end Calls

section Statements

variable {parts : Parts}

/-- Programs in which `main` is the only function. It must not be a global as well: the definition
of the function takes the name over from the variable, which evaluation would still find. -/
theorem run_of_main_eval (hfunctions : parts.functions = []) (hglobals : Name.main ∉ parts.globals)
    (hcompile : Program.compile (Utf8.encode parts.text) limits = .ok program)
    (hfits : program.Fits (Utf8.encode parts.text) limits args)
    (hquiet : trace = true → out.capacity = none) (fuel : Nat) :
    (∀ v, parts.eval fuel = .ok v → ∃ N, ∀ steps, N ≤ steps →
      (program.run limits args trace files out steps).1 = .exited v ∨
        ∃ size, (program.run limits args trace files out steps).1 =
          .faulted (.stackOverflow size)) ∧
    (parts.eval fuel = .error .divisionByZero → ∃ N, ∀ steps, N ≤ steps →
      (∃ i, (program.run limits args trace files out steps).1 = .faulted (.divisionByZero i)) ∨
        ∃ size, (program.run limits args trace files out steps).1 =
          .faulted (.stackOverflow size)) := by
  have hdefinitions : parts.definitions = [parts.main] := by rw [Parts.definitions, hfunctions]; rfl
  let p : Source.Program :=
    { parts with
      nodup := by simp [hdefinitions]
      not_global := by simpa [hdefinitions, Parts.main] using hglobals
      not_service := by
        rw [hdefinitions]
        intro f hf
        rw [List.mem_singleton.mp hf]
        show ∀ s ∈ Service.all, s.name ≠ Name.main.text
        decide +kernel }
  exact ⟨fun _ heval => stops_of_eval (p := p) hcompile hfits hquiet heval (by simp),
    fun heval => stops_of_eval (p := p) hcompile hfits hquiet heval (by simp)⟩

/-- `main` adds up the odd numbers up to 5 and returns `total || 7 ? -total : 0`. -/
def loopParts : Parts :=
  let total : Name := ⟨"total", by decide +kernel⟩
  let i : Name := ⟨"i", by decide +kernel⟩
  { globals := [total]
    functions := []
    locals := [i]
    body :=
      [.expr (.assign i (.literal 5)),
        .whileLoop (.var i)
          [.ifElse (.binary .mod (.var i) (.literal 2))
            [.expr (.assign total (.binary .add (.var total) (.var i)))] [.skip],
            .expr (.postStep .decrement i)],
        .ret (some (.cond (.logic .or (.var total) (.literal 7)) (.unary .negate (.var total))
          (.literal 0)))] }

theorem run_of_loop_eval :
    ∃ program, Program.compile (Utf8.encode loopParts.text)
        (.ofPoolSize Limits.defaultPoolSize) = .ok program ∧
      program.Fits (Utf8.encode loopParts.text) (.ofPoolSize Limits.defaultPoolSize)
        ["loop", "5"] ∧
      loopParts.eval 7 = .ok (-9) ∧
      ∃ N, ∀ steps, N ≤ steps →
        (program.run (.ofPoolSize Limits.defaultPoolSize) ["loop", "5"] false (.start ⟨[], []⟩ [])
          (.empty (some 0)) steps).1 = .exited (-9) ∨
        ∃ size, (program.run (.ofPoolSize Limits.defaultPoolSize) ["loop", "5"] false
          (.start ⟨[], []⟩ []) (.empty (some 0)) steps).1 = .faulted (.stackOverflow size) := by
  obtain ⟨program, hcompile, hfits⟩ := exists_fits (Utf8.encode loopParts.text)
    (.ofPoolSize Limits.defaultPoolSize) ["loop", "5"] (by decide +kernel)
  have heval : loopParts.eval 7 = .ok (-9) := by decide +kernel
  exact ⟨program, hcompile, hfits, heval,
    (run_of_main_eval rfl (by decide +kernel) hcompile hfits (fun h => absurd h Bool.false_ne_true)
      7).1 (-9) heval⟩

end Statements

end MiniC
