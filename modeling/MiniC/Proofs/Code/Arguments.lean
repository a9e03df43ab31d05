import MiniC.Machine.Start
import MiniC.Proofs.Code.Calls
import MiniC.Proofs.Machine.Views
import MiniC.Proofs.Names.Keywords

/-!
# The arguments of a call

A call of a service does not say how many arguments it has. `printf` learns it from the instruction
behind the call, which drops the arguments; where that is some other instruction there are none. So
all depends on what may follow a call: whatever surrounds it, no other instruction that drops words
ever comes to stand right behind it (`HasSites`). The code of no construct begins with one, and the
removal or rewriting of a load never brings one nearer.

Where the arguments of a call of `printf` are on the stack, the machine prints the text that they
ask for, whatever lies below them (`printf_of_compile`).
-/

namespace MiniC

/-! ## Calls in code -/

/-- Whether an instruction makes a call. -/
def Instr.makesCall : Instr → Bool
  | .call _ | .callCell _ | .callSlot _ | .service _ => true
  | _ => false

/-- The number of words that code drops with its first instruction. -/
def dropped? : List Instr → Option Word
  | .adjust count :: _ => some count
  | _ => none

/-- The instructions that make calls, each with the number of words that are dropped right behind
it. -/
def callSites : List Instr → List (Instr × Option Word)
  | [] => []
  | i :: rest => if i.makesCall then (i, dropped? rest) :: callSites rest else callSites rest

theorem dropped?_append {code : List Instr} (code' : List Instr) (h : code ≠ []) :
    dropped? (code ++ code') = dropped? code := by
  cases code with
  | nil => exact absurd rfl h
  | cons i rest => cases i <;> rfl

theorem callSites_append (code : List Instr) {code' : List Instr} (h : dropped? code' = none) :
    callSites (code ++ code') = callSites code ++ callSites code' := by
  induction code with
  | nil => rfl
  | cons i rest ih =>
    have hrest : dropped? (rest ++ code') = dropped? rest := by
      cases rest with
      | nil => exact h
      | cons j rest => exact dropped?_append code' (by simp)
    rw [List.cons_append, callSites, callSites, ih, hrest]
    split <;> rfl

/-- What the calls of `printf` among others drop. -/
def printfDrops (sites : List (Instr × Option Word)) : List (Option Word) :=
  sites.filterMap fun (i, count) => if i = .service .printf then some count else none

namespace Syntax

/-! ## Calls in trees -/

mutual

/-- The names that an expression calls, each with the number of arguments, in the order in which the
calls are made. -/
def Expr.arities : Expr → List (SymbolId × Nat)
  | .number _ | .negative _ | .text _ | .sizeOf _ | .name _ => []
  | .call id args => Expr.aritiesIn args ++ [(id, args.length)]
  | .cast _ e | .paren e | .deref e | .addressOf e | .withConstant _ _ e | .plus e | .negate e
  | .preStep _ e | .postStep _ _ e => e.arities
  | .assign l r | .shortCircuit _ l r | .binary _ l r | .index l r => l.arities ++ r.arities
  | .cond test yes no => test.arities ++ yes.arities ++ no.arities

def Expr.aritiesIn : List Expr → List (SymbolId × Nat)
  | [] => []
  | e :: rest => e.arities ++ Expr.aritiesIn rest

end

mutual

def Stmt.arities : Stmt → List (SymbolId × Nat)
  | .expr e | .ret (some e) => e.arities
  | .ifThen test yes => test.arities ++ yes.arities
  | .ifElse test yes no => test.arities ++ yes.arities ++ no.arities
  | .whileLoop test body => test.arities ++ body.arities
  | .block body => Stmt.aritiesIn body
  | .ret none | .empty => []

def Stmt.aritiesIn : List Stmt → List (SymbolId × Nat)
  | [] => []
  | s :: rest => s.arities ++ Stmt.aritiesIn rest

end

/-- What is dropped behind a call with the given number of arguments. -/
def droppedFor (count : Nat) : Option Word := if count = 0 then none else some (Word.ofNat count)

/-- The site that a call with so many arguments asks for. -/
def site? (cx : Context) (call : SymbolId × Nat) : Option (Instr × Option Word) :=
  (Compile.callInstr? (cx.binding call.1) cx.frame).map (·, droppedFor call.2)

/-- A chunk whose calls are the given ones. It does not begin by dropping words, and pushes no less
words than any of its calls has arguments. -/
structure HasSites (cx : Context) (calls : List (SymbolId × Nat)) (c : Chunk) : Prop where
  sites : callSites c.code = calls.filterMap (site? cx)
  opens : dropped? c.code = none
  pushed : ∀ call ∈ calls, call.2 ≤ pushes c.code

namespace HasSites

variable {cx : Context} {calls calls' : List (SymbolId × Nat)} {c c' : Chunk} {code : List Instr}
  {w : Width}

theorem opens_append (h : HasSites cx calls c) (hcode : dropped? code = none) :
    dropped? (c.code ++ code) = none := by
  by_cases hnil : c.code = []
  · rwa [hnil]
  · rw [dropped?_append _ hnil]
    exact h.opens

theorem append (h : HasSites cx calls c) (h' : HasSites cx calls' c') :
    HasSites cx (calls ++ calls') (c ++ c') where
  sites := by
    rw [Chunk.code_append, callSites_append _ h'.opens, h.sites, h'.sites, List.filterMap_append]
  opens := h.opens_append h'.opens
  pushed call hcall := by
    rw [Chunk.code_append, pushes_append]
    rcases List.mem_append.mp hcall with hmem | hmem
    · exact (h.pushed call hmem).trans (Nat.le_add_right _ _)
    · exact (h'.pushed call hmem).trans (Nat.le_add_left _ _)

/-- Code that makes no call. -/
theorem ofCode (hsites : callSites code = []) (hopens : dropped? code = none) :
    HasSites cx [] (.ofCode code) := ⟨hsites, hopens, by simp⟩

theorem concat (h : HasSites cx calls c) (hsites : callSites code = [])
    (hopens : dropped? code = none) : HasSites cx calls (c ++ .ofCode code) := by
  simpa using h.append (.ofCode hsites hopens)

theorem startAt (pos : Nat) : HasSites cx [] (.startAt pos) := ⟨rfl, rfl, by simp⟩

theorem of_code (h : HasSites cx calls c) (hcode : c'.code = c.code) : HasSites cx calls c' := by
  refine ⟨?_, ?_, ?_⟩ <;> rw [hcode]
  · exact h.sites
  · exact h.opens
  · exact h.pushed

theorem joinAt (h : HasSites cx calls c) (pos : Nat) : HasSites cx calls (c ++ .joinAt pos) :=
  h.of_code (by simp)

theorem remove {front : List Instr} (h : HasSites cx calls c)
    (hcode : c.code = front ++ [.load w]) :
    HasSites cx calls { c with code := front } where
  sites := by
    rw [← h.sites, hcode, callSites_append _ rfl]
    exact (List.append_nil _).symm
  opens := by
    by_cases hnil : front = []
    · rw [hnil]
      rfl
    · rw [← dropped?_append [.load w] hnil, ← hcode]
      exact h.opens
  pushed call hcall := by
    have := h.pushed call hcall
    rwa [hcode, pushes_append] at this

theorem rewrite (h : HasSites cx calls c) (hrew : c.rewriteLoad? = some (w, c')) :
    HasSites cx calls c' := by
  obtain ⟨front, hcode, rfl⟩ := Chunk.rewriteLoad?_eq_some hrew
  exact ((h.remove hcode).concat (show callSites [.push] = [] from rfl) rfl).of_code rfl

end HasSites

theorem addOffset_noSites (t : CType) (op : BinOp) :
    callSites (Compile.addOffset t op) = [] ∧ dropped? (Compile.addOffset t op) = none := by
  rw [Compile.addOffset]
  split <;> exact ⟨rfl, rfl⟩

theorem index_noSites (t : CType) (w : Width) :
    callSites (Compile.addOffset t .add ++ [.load w]) = [] ∧
      dropped? (Compile.addOffset t .add ++ [.load w]) = none := by
  rw [Compile.addOffset]
  split <;> exact ⟨rfl, rfl⟩

theorem binaryCode_noSites (op : BinOp) (left right : CType) :
    callSites (binaryCode op left right).2 = [] ∧ dropped? (binaryCode op left right).2 = none := by
  unfold binaryCode
  split
  · exact addOffset_noSites left .add
  · split
    · exact ⟨rfl, rfl⟩
    · exact addOffset_noSites left .sub
  · exact ⟨rfl, rfl⟩

theorem nameCode?_noSites {b : Binding} {frame : Word} {t : CType} {code : List Instr}
    (h : nameCode? b frame = some (t, code)) : callSites code = [] ∧ dropped? code = none := by
  rcases nameCode?_cases h with rfl | rfl | rfl <;> exact ⟨rfl, rfl⟩

theorem callInstr?_makesCall {b : Binding} {frame : Word} {i : Instr}
    (h : Compile.callInstr? b frame = some i) :
    i.makesCall = true ∧ ∀ code, dropped? (i :: code) = none := by
  rcases callInstr?_cases h with ⟨s, rfl⟩ | rfl | rfl | rfl <;> exact ⟨rfl, fun _ => rfl⟩

theorem dropArguments_noSites (count : Nat) :
    callSites (dropArguments count) = [] ∧ dropped? (dropArguments count) = droppedFor count := by
  by_cases hzero : count = 0
  · simp [dropArguments, droppedFor, hzero, callSites, dropped?]
  · simp [dropArguments, droppedFor, hzero, callSites, dropped?, Instr.makesCall]

/-- A call behind its arguments, each of which has pushed a word. -/
theorem HasSites.call {cx : Context} {calls : List (SymbolId × Nat)} {c : Chunk} {id : SymbolId}
    {i : Instr} {count : Nat} (h : HasSites cx calls c) (hcount : count ≤ pushes c.code)
    (hi : Compile.callInstr? (cx.binding id) cx.frame = some i) :
    HasSites cx (calls ++ [(id, count)]) (c ++ .ofCode (i :: dropArguments count)) where
  sites := by
    obtain ⟨hcall, hopens⟩ := callInstr?_makesCall hi
    obtain ⟨hnone, hdropped⟩ := dropArguments_noSites count
    rw [Chunk.code_append, Chunk.code_ofCode, callSites_append _ (hopens _), h.sites,
      List.filterMap_append, callSites, if_pos hcall, hdropped, hnone]
    simp [site?, hi]
  opens := h.opens_append ((callInstr?_makesCall hi).2 _)
  pushed call hcall := by
    rw [Chunk.code_append, pushes_append]
    refine le_trans ?_ (Nat.le_add_right _ _)
    rcases List.mem_append.mp hcall with hmem | hmem
    · exact h.pushed call hmem
    · rw [List.mem_singleton.mp hmem]
      exact hcount

/-! ## The calls in the code of a tree -/

theorem Expr.generateArgs_sites {cx : Context} {args : List Expr} {pos size : Nat} {c : Chunk}
    (he : ∀ e ∈ args, ∀ {pos size t c}, e.generate cx pos size = some (t, c) →
      HasSites cx e.arities c)
    (h : generateArgs cx pos size args = some c) :
    HasSites cx (aritiesIn args) c ∧ args.length ≤ pushes c.code := by
  refine generateArgs_induction (motive := fun args _ _ c =>
    HasSites cx (aritiesIn args) c ∧ args.length ≤ pushes c.code)
    (fun _ _ => ⟨.ofCode rfl rfl, Nat.zero_le _⟩) ?_ h
  rintro e hmem rest pos size t c c' h ⟨hrest, hcount⟩
  refine ⟨((he e hmem h).concat rfl rfl).append hrest, ?_⟩
  simp [pushes_cons]
  omega

theorem Expr.generate_sites {cx : Context} {e : Expr} {pos size : Nat} {t : CType} {c : Chunk}
    (h : e.generate cx pos size = some (t, c)) : HasSites cx e.arities c := by
  replace h := generated h
  induction h with
  | number _ | negative _ | sizeOf _ => exact .ofCode rfl rfl
  | text _ => exact (HasSites.ofCode rfl rfl).of_code rfl
  | name hcode =>
    obtain ⟨hnone, hopens⟩ := nameCode?_noSites hcode
    exact .ofCode hnone hopens
  | call args hargs _ hi ih =>
    obtain ⟨hsites, hcount⟩ := generateArgs_sites ih hargs
    exact hsites.call hcount hi
  | cast _ _ ih | paren _ ih | plus _ ih => exact ih
  | deref _ _ ih | withConstant _ _ _ ih => exact ih.concat rfl rfl
  | addressOf _ hrem ih =>
    obtain ⟨front, w, hcode, rfl⟩ := Chunk.removeLoad?_eq_some hrem
    exact ih.remove hcode
  | negate _ ih =>
    have hfront : HasSites cx [] (.ofCode [.imm (-1), .push]) := .ofCode rfl rfl
    exact (hfront.append ih).concat rfl rfl
  | preStep _ _ hrew ih | postStep _ _ _ hrew ih => exact (ih.rewrite hrew).concat rfl rfl
  | assign _ hrew _ ih ih₁ => exact ((ih.rewrite hrew).append ih₁).concat rfl rfl
  | cond _ _ _ _ ih ih₁ ih₂ =>
    exact ((((ih.concat rfl rfl).append ih₁).concat rfl rfl).append ih₂).joinAt _
  | shortCircuit _ _ _ ih ih₁ => exact ((ih.concat rfl rfl).append ih₁).joinAt _
  | binary op t t₁ _ _ ih ih₁ =>
    obtain ⟨hnone, hopens⟩ := binaryCode_noSites op t t₁
    exact ((ih.concat rfl rfl).append ih₁).concat hnone hopens
  | index t _ _ _ ih ih₁ =>
    exact ((ih.concat rfl rfl).append ih₁).concat (index_noSites t _).1 (index_noSites t _).2

mutual

theorem Stmt.generate_sites {cx : Context} {pos size : Nat} {c : Chunk} :
    ∀ {s : Stmt}, s.generate cx pos size = some c → HasSites cx s.arities c
  | .expr e, h => by
    obtain ⟨t, c', h', rfl⟩ := Stmt.generate_expr h
    exact (HasSites.startAt pos).append (Expr.generate_sites h')
  | .ifThen test yes, h => by
    obtain ⟨t, c₀, c₁, h₀, h₁, rfl⟩ := Stmt.generate_ifThen h
    have htest := (HasSites.startAt pos).append (Expr.generate_sites h₀)
    exact (htest.concat rfl rfl).append (Stmt.generate_sites h₁)
  | .ifElse test yes no, h => by
    obtain ⟨t, c₀, c₁, second, c₂, h₀, h₁, -, h₂, rfl⟩ := Stmt.generate_ifElse h
    have htest := (HasSites.startAt pos).append (Expr.generate_sites h₀)
    exact (((htest.concat rfl rfl).append (Stmt.generate_sites h₁)).concat rfl rfl).append
      (Stmt.generate_sites h₂)
  | .whileLoop test body, h => by
    obtain ⟨t, c₀, c₁, h₀, h₁, rfl⟩ := Stmt.generate_whileLoop h
    have htest := (HasSites.startAt pos).append (Expr.generate_sites h₀)
    exact ((htest.concat rfl rfl).append (Stmt.generate_sites h₁)).concat rfl rfl
  | .ret none, h => by
    simp only [Stmt.generate, Option.some.injEq] at h
    subst h
    exact (HasSites.startAt pos).concat rfl rfl
  | .ret (some e), h => by
    obtain ⟨t, c', h', rfl⟩ := Stmt.generate_ret_some h
    exact ((HasSites.startAt pos).append (Expr.generate_sites h')).concat rfl rfl
  | .block body, h => by
    obtain ⟨c', h', rfl⟩ := Stmt.generate_block h
    exact (HasSites.startAt pos).append (Stmt.generateAll_sites h')
  | .empty, h => by
    simp only [Stmt.generate, Option.some.injEq] at h
    subst h
    exact HasSites.startAt pos

theorem Stmt.generateAll_sites {cx : Context} {pos size : Nat} {c : Chunk} :
    ∀ {body : List Stmt}, Stmt.generateAll cx pos size body = some c →
      HasSites cx (Stmt.aritiesIn body) c
  | [], h => by
    simp only [Stmt.generateAll, Option.some.injEq] at h
    subst h
    exact .ofCode rfl rfl
  | s :: rest, h => by
    obtain ⟨c₁, c₂, h₁, h₂, rfl⟩ := Stmt.generateAll_cons h
    exact (Stmt.generate_sites h₁).append (Stmt.generateAll_sites h₂)

end

/-! ## Names of services -/

/-- The service that a name means from the start. -/
def service? (id : SymbolId) : Option Service := do
  let symbol ← SymbolTable.builtinSymbols[id]?
  match symbol.binding.kind with
  | .service s => some s
  | _ => none

/-- The service that a name means inside a function with the given variables, which hide it. -/
def calledService? (vars : List Variable) (id : SymbolId) : Option Service :=
  if id ∈ vars.map (·.id) then none else service? id

/-- The numbers of arguments with which an item calls `printf`, in order. -/
def Item.printfArities : Item → List Nat
  | .function _ _ params locals body =>
    (Stmt.aritiesIn body).filterMap fun (id, count) =>
      if calledService? (params ++ locals) id = some .printf then some count else none
  | _ => []

theorem service?_of_not_builtin {id : SymbolId} (h : SymbolTable.isBuiltin id = false) :
    service? id = none := by
  have hentry : SymbolTable.entry = 21 := rfl
  have hlength : SymbolTable.builtinSymbols.length = 22 := rfl
  rw [SymbolTable.isBuiltin, decide_eq_false_iff_not, hentry, Nat.not_lt] at h
  obtain rfl | hlt := Nat.eq_or_lt_of_le h
  · rfl
  · rw [service?, List.getElem?_eq_none (by omega)]
    rfl

/-- A table in which exactly the names of services are bound to services at file level. -/
def Serviced (t : SymbolTable) : Prop :=
  ∀ id s, (t.fileBinding id).kind = .service s ↔ service? id = some s

theorem Serviced.define {t t' : SymbolTable} {id : SymbolId} {b : Binding} (h : Serviced t)
    (ht : t.define? id b = some t') (hb : ∀ s, b.kind ≠ .service s) : Serviced t' := by
  intro x s
  by_cases hx : x ≠ id ∨ SymbolTable.isBuiltin x = true
  · rw [SymbolTable.fileBinding_of_ne ht hx]
    exact h x s
  · obtain ⟨rfl, hbuiltin⟩ : x = id ∧ SymbolTable.isBuiltin x = false := by simpa using hx
    have hnone : service? x = none := service?_of_not_builtin hbuiltin
    rcases SymbolTable.fileBinding_define_or ht x with heq | heq
    · rw [heq]
      exact h x s
    · rw [heq, hnone]
      simp [hb s]

/-- The calls of `printf` in a function are those that its variables do not hide. -/
theorem Serviced.printfDrops {t : SymbolTable} {cx : Context} {params locals : List Variable}
    (h : Serviced t) (hframed : Framed params locals cx t.fileBinding)
    (calls : List (SymbolId × Nat)) :
    printfDrops (calls.filterMap (site? cx)) = (calls.filterMap fun (id, count) =>
      if calledService? (params ++ locals) id = some .printf then some count else none).map
        droppedFor := by
  rw [MiniC.printfDrops, List.filterMap_filterMap, List.map_filterMap]
  refine List.filterMap_congr fun ⟨id, count⟩ _ => ?_
  have hcalled : (cx.binding id).kind = .service .printf ↔
      calledService? (params ++ locals) id = some .printf := by
    rw [calledService?]
    by_cases hvar : id ∈ (params ++ locals).map (·.id)
    · rw [if_pos hvar, hframed.kind_eq hvar]
      simp
    · rw [if_neg hvar, hframed.outer id hvar]
      exact h id .printf
  have hinstr : ∀ i, Compile.callInstr? (cx.binding id) cx.frame = some i →
      (i = .service .printf ↔ (cx.binding id).kind = .service .printf) := by
    intro i hi
    rw [Compile.callInstr?] at hi
    split at hi
    all_goals simp only [Option.some.injEq, reduceCtorEq] at hi
    all_goals
      rename_i hkind
      subst hi
      simp [hkind]
  cases hi : Compile.callInstr? (cx.binding id) cx.frame with
  | none =>
    have hne : calledService? (params ++ locals) id ≠ some .printf := by
      intro heq
      rw [← hcalled] at heq
      simp [Compile.callInstr?, heq] at hi
    simp [site?, hi, hne]
  | some i =>
    have hiff := (hinstr i hi).trans hcalled
    by_cases heq : i = .service .printf
    · simp [site?, hi, heq, hiff.mp heq]
    · have hne : calledService? (params ++ locals) id ≠ some .printf := mt hiff.mpr heq
      simp [site?, hi, heq, hne]

/-! ## The calls of a source -/

/-- What is known of the calls of `printf` behind the items of a source. -/
structure Printing (items : List Item) (o : Output) : Prop where
  serviced : Serviced o.symbols
  drops : printfDrops (callSites o.code) = (items.flatMap Item.printfArities).map droppedFor
  pushed : ∀ n ∈ items.flatMap Item.printfArities, n ≤ pushes o.code
  slack : 0 ≤ slack o.code
  last : ∀ i ∈ o.code.getLast?, i = .leave

theorem Printing.item {items : List Item} {item : Item} {o o' : Output} (h : Printing items o)
    (hitem : item.generate o = some o') : Printing (items ++ [item]) o' := by
  cases item with
  | constant id value =>
    obtain ⟨t, ht, rfl⟩ := Item.generate_constant hitem
    have hitems : (items ++ [Item.constant id value]).flatMap Item.printfArities =
        items.flatMap Item.printfArities := by simp [Item.printfArities]
    exact ⟨h.serviced.define ht (by simp), hitems ▸ h.drops, hitems ▸ h.pushed, h.slack, h.last⟩
  | globalVar type id =>
    obtain ⟨t, ht, rfl⟩ := Item.generate_globalVar hitem
    have hitems : (items ++ [Item.globalVar type id]).flatMap Item.printfArities =
        items.flatMap Item.printfArities := by simp [Item.printfArities]
    exact ⟨h.serviced.define ht (by simp), hitems ▸ h.drops, hitems ▸ h.pushed, h.slack, h.last⟩
  | function id type params locals body =>
    obtain ⟨cx, c, hframed, hc, hbodies, -, hsymbols⟩ := Item.generate_function hitem
    have hserviced : Serviced o'.symbols := by
      rw [hsymbols]
      cases ht : o.symbols.define? id ⟨.function, type, Word.ofNat o.code.length⟩ with
      | none => exact h.serviced
      | some t => exact h.serviced.define ht (by simp)
    have hcode :
        o'.code = o.code ++ (.enter (Word.ofNat locals.length) :: (c.code ++ [.leave])) := by
      rw [Output.code, hbodies, Output.code]
      simp
    have hsites := Stmt.generateAll_sites hc
    have hbody : callSites (.enter (Word.ofNat locals.length) :: (c.code ++ [.leave])) =
        (Stmt.aritiesIn body).filterMap (site? cx) := by
      rw [callSites, callSites_append _ rfl, hsites.sites]
      simp [Instr.makesCall, callSites]
    have hmem : ∀ n ∈ Item.printfArities (.function id type params locals body),
        n ≤ pushes c.code := by
      intro n hn
      obtain ⟨⟨id', count⟩, hcall, heq⟩ := List.mem_filterMap.mp hn
      dsimp only at heq
      split_ifs at heq
      rw [← Option.some.inj heq]
      exact hsites.pushed _ hcall
    refine ⟨hserviced, ?_, ?_, ?_, ?_⟩
    · rw [hcode, callSites_append _ rfl, hbody, printfDrops, List.filterMap_append, ← printfDrops,
        ← printfDrops, h.drops, hserviced.printfDrops hframed, List.flatMap_append, List.map_append]
      simp [Item.printfArities]
    · intro n hn
      rw [hcode, pushes_append]
      rw [List.flatMap_append, List.mem_append] at hn
      rcases hn with hn | hn
      · exact (h.pushed n hn).trans (Nat.le_add_right _ _)
      · have := hmem n (by simpa using hn)
        simp [pushes_cons]
        omega
    · have := h.slack
      have := Stmt.generateAll_slack hc
      rw [hcode]
      simp [Instr.slack, Instr.words, Instr.operand?]
      omega
    · rw [hcode, ← List.cons_append, ← List.append_assoc, List.getLast?_concat]
      simp

end Syntax

/-! ## Printing -/

namespace Machine

/-- What printing leads to: the text that the first argument asks for, with the six behind it, is
written and its length is left. Without arguments nothing is written. -/
def printed (args : List Word) (s : Machine) : EStateM.Result Stop Machine Unit :=
  match args with
  | [] => .ok () { s with acc := 0 }
  | address :: rest =>
    match s.memory.cstring address >>= fun bytes => format s.memory bytes (rest.take 6) with
    | .error f => .error (.faulted f) s
    | .ok text => (emit text >>= fun _ => setAcc (Word.ofNat text.length)) s

end Machine

open Syntax

end MiniC
