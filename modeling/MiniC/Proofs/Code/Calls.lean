import MiniC.Proofs.Code.Bodies
import MiniC.Proofs.Code.Uses
import MiniC.Proofs.Machine.Cells
import MiniC.Proofs.Syntax.Bindings

/-!
# Bodies and the calls between them

The code of a program is the bodies of its functions one behind the other, in the order in which the
functions are defined. A direct call leads to the body of the latest definition of the name called
that stands above the call, the definition that the call is part of included
(`bodies_of_compile`).

What a name is bound to is followed through the items of a source (`Resolved`): a definition binds
its name to the index at which its body is going to begin, before anything of the body is generated,
and neither the removal nor the rewriting of loads touches a call (`Calls`, a case of `Refers`).
-/

namespace MiniC

namespace Syntax

/-! ## The calls in a tree -/

mutual

/-- The names that an expression calls, in the order in which the calls are made. -/
def Expr.calls : Expr → List SymbolId
  | .number _ | .negative _ | .text _ | .sizeOf _ | .name _ => []
  | .call id args => Expr.callsIn args ++ [id]
  | .cast _ e | .paren e | .deref e | .addressOf e | .withConstant _ _ e | .plus e | .negate e
  | .preStep _ e | .postStep _ _ e => e.calls
  | .assign l r | .shortCircuit _ l r | .binary _ l r | .index l r => l.calls ++ r.calls
  | .cond test yes no => test.calls ++ yes.calls ++ no.calls

def Expr.callsIn : List Expr → List SymbolId
  | [] => []
  | e :: rest => e.calls ++ Expr.callsIn rest

end

mutual

def Stmt.calls : Stmt → List SymbolId
  | .expr e | .ret (some e) => e.calls
  | .ifThen test yes => test.calls ++ yes.calls
  | .ifElse test yes no => test.calls ++ yes.calls ++ no.calls
  | .whileLoop test body => test.calls ++ body.calls
  | .block body => Stmt.callsIn body
  | .ret none | .empty => []

def Stmt.callsIn : List Stmt → List SymbolId
  | [] => []
  | s :: rest => s.calls ++ Stmt.callsIn rest

end

/-! ## The calls in code -/

end Syntax

/-- The index that a direct call leads to. -/
def Instr.callTarget? : Instr → Option Nat
  | .call t => some t.toNat
  | _ => none

/-- Where the direct calls in code lead, in order. -/
def directCalls (code : List Instr) : List Nat := code.filterMap Instr.callTarget?

@[simp] theorem directCalls_append (code code' : List Instr) :
    directCalls (code ++ code') = directCalls code ++ directCalls code' :=
  List.filterMap_append

/-- The index that a name is bound to as a function. -/
def Binding.start? (b : Binding) : Option Word := if b.kind = .function then some b.value else none

namespace Syntax

/-- A chunk whose direct calls are those of the given names, all of which are bound. -/
structure Calls (cx : Context) (ids : List SymbolId) (c : Chunk) : Prop where
  direct : directCalls c.code =
    ids.filterMap fun id => (cx.binding id).start?.map Word.toUnsigned
  bound : ∀ id ∈ ids, (cx.binding id).kind ≠ .unbound

/-- The instruction that makes a call is a direct call exactly where the name is a function. -/
theorem callTarget?_callInstr? {b : Binding} {frame : Word} {i : Instr}
    (h : Compile.callInstr? b frame = some i) :
    i.callTarget? = b.start?.map Word.toUnsigned ∧ b.kind ≠ .unbound := by
  rw [Compile.callInstr?] at h
  split at h
  all_goals simp only [Option.some.injEq, reduceCtorEq] at h
  all_goals
    rename_i hkind
    subst h
    simp [Instr.callTarget?, Binding.start?, hkind, Word.toUnsigned]

/-- The name that a use calls. -/
def Use.called? : Use → Option SymbolId
  | .value _ => none
  | .call id => some id

theorem Expr.calls_eq (e : Expr) : e.calls = e.uses.filterMap Use.called? := by
  induction e with
  | number _ | negative _ | text _ | sizeOf _ | name _ => rfl
  | call id args ih =>
    have hargs : callsIn args = (usesIn args).filterMap Use.called? := by
      induction args with
      | nil => rfl
      | cons e rest ih' =>
        rw [callsIn, usesIn, List.filterMap_append, ih e (by simp),
          ih' fun e he => ih e (by simp [he])]
    rw [calls, uses, List.filterMap_append, hargs]
    rfl
  | cast _ e ih | paren e ih | deref e ih | addressOf e ih | withConstant _ _ e ih | plus e ih
  | negate e ih | preStep _ e ih | postStep _ _ e ih => exact ih
  | assign l r ihl ihr | shortCircuit _ l r ihl ihr | binary _ l r ihl ihr | index l r ihl ihr =>
    rw [calls, uses, List.filterMap_append, ihl, ihr]
  | cond test yes no iht ihy ihn =>
    rw [calls, uses, List.filterMap_append, List.filterMap_append, iht, ihy, ihn]

mutual

theorem Stmt.calls_eq : ∀ s : Stmt, s.calls = s.uses.filterMap Use.called?
  | .expr e | .ret (some e) => e.calls_eq
  | .ifThen test yes => by
    rw [calls, uses, List.filterMap_append, test.calls_eq, Stmt.calls_eq yes]
  | .ifElse test yes no => by
    rw [calls, uses, List.filterMap_append, List.filterMap_append, test.calls_eq,
      Stmt.calls_eq yes, Stmt.calls_eq no]
  | .whileLoop test body => by
    rw [calls, uses, List.filterMap_append, test.calls_eq, Stmt.calls_eq body]
  | .block body => Stmt.callsIn_eq body
  | .ret none | .empty => rfl

theorem Stmt.callsIn_eq : ∀ body : List Stmt,
    Stmt.callsIn body = (Stmt.usesIn body).filterMap Use.called?
  | [] => rfl
  | s :: rest => by
    rw [callsIn, usesIn, List.filterMap_append, Stmt.calls_eq s, Stmt.callsIn_eq rest]

end

/-- What a use makes into a direct call. -/
theorem Use.callTarget?_instr? {cx : Context} {u : Use} (h : (u.instr? cx).isSome) :
    (u.instr? cx).bind Instr.callTarget? =
      u.called?.bind fun id => (cx.binding id).start?.map Word.toUnsigned := by
  cases u with
  | value id =>
    rw [instr?, nameCode?]
    split <;> rfl
  | call id =>
    obtain ⟨i, hi⟩ := Option.isSome_iff_exists.mp h
    rw [hi]
    exact (callTarget?_callInstr? hi).1

theorem Stmt.generateAll_calls {cx : Context} {pos size : Nat} {c : Chunk} {body : List Stmt}
    (h : Stmt.generateAll cx pos size body = some c) : Calls cx (Stmt.callsIn body) c := by
  have hrefers := Stmt.generateAll_refers h
  rw [Stmt.callsIn_eq]
  constructor
  · rw [directCalls, hrefers.filterMap_eq (fun i hi => by cases i <;> first | rfl | cases hi),
      List.filterMap_filterMap]
    exact List.filterMap_congr fun u hu => Use.callTarget?_instr? (hrefers.bound u hu)
  · intro id hid
    obtain ⟨u, hu, hcalled⟩ := List.mem_filterMap.mp hid
    cases u with
    | value _ => cases hcalled
    | call id' =>
      obtain rfl := Option.some.inj hcalled
      obtain ⟨i, hi⟩ := Option.isSome_iff_exists.mp (hrefers.bound _ hu)
      exact (callTarget?_callInstr? hi).2

/-! ## What is known behind items -/

/-- The name that an item declares. -/
def Item.id : Item → SymbolId
  | .constant id _ | .globalVar _ id | .function id _ _ _ _ => id

def Item.isFunction : Item → Bool
  | .function .. => true
  | _ => false

/-- The index at which a body begins, by its number. -/
def startOf (bodies : List (List Instr)) (k : Nat) : Nat := (bodies.take k).flatten.length

/-- Where the body of a name begins by the latest item that declares it, if that is a function. The
latest item comes first. -/
def bodyStart? (bodies : List (List Instr)) (id : SymbolId) : List Item → Option Nat
  | [] => none
  | item :: earlier =>
    if item.id = id then
      if item.isFunction then some (startOf bodies (earlier.countP Item.isFunction)) else none
    else bodyStart? bodies id earlier

/-- Where a call by name leads inside a function with the given variables, behind items of which the
latest comes first. Services and variables of the function are not called directly. -/
def callee? (bodies : List (List Instr)) (items : List Item) (vars : List Variable)
    (id : SymbolId) : Option Nat :=
  if SymbolTable.isBuiltin id = true ∨ id ∈ vars.map (·.id) then none
  else bodyStart? bodies id items

theorem startOf_append {bodies : List (List Instr)} {k : Nat} (h : k ≤ bodies.length)
    (more : List (List Instr)) : startOf (bodies ++ more) k = startOf bodies k := by
  rw [startOf, List.take_append_of_le_length h, startOf]

theorem startOf_length (bodies : List (List Instr)) :
    startOf bodies bodies.length = bodies.flatten.length := by
  rw [startOf, List.take_length]

theorem startOf_mono {bodies : List (List Instr)} {j k : Nat} (h : j ≤ k) :
    startOf bodies j ≤ startOf bodies k := by
  obtain ⟨d, rfl⟩ := Nat.exists_eq_add_of_le h
  rw [startOf, startOf, List.take_add, List.flatten_append, List.length_append]
  omega

theorem bodyStart?_append {bodies : List (List Instr)} {id : SymbolId} {items : List Item}
    (h : items.countP Item.isFunction ≤ bodies.length) (more : List (List Instr)) :
    bodyStart? (bodies ++ more) id items = bodyStart? bodies id items := by
  induction items with
  | nil => rfl
  | cons item earlier ih =>
    rw [List.countP_cons] at h
    rw [bodyStart?, bodyStart?, ih (by omega), startOf_append (by omega)]

theorem bodyStart?_eq_some {bodies : List (List Instr)} {id : SymbolId} {items : List Item}
    {start : Nat} (h : bodyStart? bodies id items = some start) :
    ∃ k < items.countP Item.isFunction, start = startOf bodies k := by
  induction items with
  | nil => simp [bodyStart?] at h
  | cons item earlier ih =>
    rw [bodyStart?] at h
    rw [List.countP_cons]
    split_ifs at h with hid hfun
    · exact ⟨_, by simp [hfun], (Option.some.inj h).symm⟩
    · obtain ⟨k, hk, hstart⟩ := ih h
      exact ⟨k, by omega, hstart⟩

/-- What the names stand for behind the items of a source. -/
structure Resolved (items : List Item) (o : Output) : Prop where
  scopes : o.symbols.scopes = []
  count : o.bodies.length = items.countP Item.isFunction
  builtin : ∀ id, SymbolTable.isBuiltin id = true → (o.symbols.fileBinding id).start? = none
  start : ∀ id < o.symbols.size, SymbolTable.isBuiltin id = false →
    (o.symbols.fileBinding id).start? =
      (bodyStart? (o.bodies.map Chunk.code) id items.reverse).map Word.ofNat

theorem Binding.start?_of_kind {b : Binding} (h : b.kind ≠ .function) : b.start? = none := if_neg h

theorem resolved_names (source : List UInt8) (limits : Limits) :
    Resolved [] ⟨names source limits, [], []⟩ := by
  have hnone : ∀ id, ((names source limits).fileBinding id).start? = none := by
    intro id
    refine Binding.start?_of_kind ?_
    rcases (names_fresh source limits).fileBinding_cases id with ⟨s, hs, heq⟩ | heq
    · have hall : ∀ s ∈ SymbolTable.builtinSymbols, s.binding.kind ≠ .function := by decide +kernel
      rw [heq]
      exact hall s hs
    · rw [heq]
      simp [Binding.unbound]
  exact ⟨(names_fresh source limits).scopes_eq, rfl, fun id _ => hnone id, fun id _ _ => hnone id⟩

/-- One more item: it binds its name, as far as the name is no builtin, and nothing else. -/
theorem Resolved.concat {items : List Item} {item : Item} {o o' : Output} (h : Resolved items o)
    (hscopes : o'.symbols.scopes = o.symbols.scopes) (hsize : o'.symbols.size = o.symbols.size)
    (hbodies : o.bodies <+: o'.bodies)
    (hcount : o'.bodies.length = o.bodies.length + if item.isFunction then 1 else 0)
    (hother : ∀ id, id ≠ item.id ∨ SymbolTable.isBuiltin id = true →
      o'.symbols.fileBinding id = o.symbols.fileBinding id)
    (hself : item.id < o.symbols.size → SymbolTable.isBuiltin item.id = false →
      (o'.symbols.fileBinding item.id).start? =
        if item.isFunction then some (Word.ofNat o.code.length) else none) :
    Resolved (items ++ [item]) o' where
  scopes := hscopes.trans h.scopes
  count := by rw [hcount, h.count, List.countP_append, List.countP_singleton]
  builtin id hid := by rw [hother id (.inr hid), h.builtin id hid]
  start id hid hbuiltin := by
    obtain ⟨more, hmore⟩ := hbodies
    have hle : items.reverse.countP Item.isFunction ≤ (o.bodies.map Chunk.code).length := by
      rw [List.countP_reverse, List.length_map, h.count]
    rw [hsize] at hid
    rw [← hmore, List.map_append, List.reverse_append, List.reverse_singleton,
      List.singleton_append, bodyStart?, bodyStart?_append hle, startOf_append hle]
    by_cases heq : item.id = id
    · subst heq
      have hstart : startOf (o.bodies.map Chunk.code) (items.reverse.countP Item.isFunction) =
          o.code.length := by
        have hcode : (o.bodies.map Chunk.code).flatten = o.code := by
          rw [Output.code, List.flatMap_def]
        rw [List.countP_reverse, ← h.count, ← hcode, ← startOf_length, List.length_map]
      rw [hself hid hbuiltin, if_pos rfl, hstart]
      split <;> rfl
    · rw [hother id (.inl (Ne.symm heq)), if_neg heq, h.start id hid hbuiltin]

theorem Resolved.item {items : List Item} {item : Item} {o o' : Output} (h : Resolved items o)
    (hitem : item.generate o = some o') : Resolved (items ++ [item]) o' := by
  cases item with
  | constant id value =>
    obtain ⟨t, ht, rfl⟩ := Item.generate_constant hitem
    refine h.concat (SymbolTable.scopes_define ht) (SymbolTable.size_define ht)
      (List.prefix_refl _) rfl (fun _ => SymbolTable.fileBinding_of_ne ht) ?_
    intro hid _
    exact congrArg Binding.start? (SymbolTable.fileBinding_define_self ht hid)
  | globalVar type id =>
    obtain ⟨t, ht, rfl⟩ := Item.generate_globalVar hitem
    refine h.concat (SymbolTable.scopes_define ht) (SymbolTable.size_define ht)
      (List.prefix_refl _) rfl (fun _ => SymbolTable.fileBinding_of_ne ht) ?_
    intro hid _
    exact congrArg Binding.start? (SymbolTable.fileBinding_define_self ht hid)
  | function id type params locals body =>
    obtain ⟨cx, c, -, -, hbodies, -, hsymbols⟩ := Item.generate_function hitem
    have hprefix : o.bodies <+: o'.bodies := by rw [hbodies]; exact List.prefix_append _ _
    have hcount : o'.bodies.length = o.bodies.length + 1 := by rw [hbodies, List.length_append]; rfl
    cases hbuiltin : SymbolTable.isBuiltin id with
    | true =>
      have hkeep : o'.symbols = o.symbols := by
        rw [hsymbols, SymbolTable.define?, if_pos hbuiltin, Option.getD_none]
      refine h.concat (by rw [hkeep]) (by rw [hkeep]) hprefix hcount (fun _ _ => by rw [hkeep])
        fun _ hfalse => ?_
      exact absurd (hbuiltin.symm.trans hfalse) (by simp)
    | false =>
      rw [SymbolTable.define?_eq hbuiltin, Option.getD_some] at hsymbols
      have ht := hsymbols ▸ SymbolTable.define?_eq (t := o.symbols)
        (b := ⟨.function, type, Word.ofNat o.code.length⟩) hbuiltin
      refine h.concat (SymbolTable.scopes_define ht) (SymbolTable.size_define ht) hprefix hcount
        (fun _ => SymbolTable.fileBinding_of_ne ht) fun hid _ => ?_
      exact congrArg Binding.start? (SymbolTable.fileBinding_define_self ht hid)

theorem Resolved.items {items more : List Item} {o o' : Output} (h : Resolved items o)
    (hmore : more.foldlM Item.generate o = some o') : Resolved (items ++ more) o' := by
  induction more generalizing items o with
  | nil =>
    rw [List.foldlM_nil] at hmore
    obtain rfl := Option.some.inj hmore
    rwa [List.append_nil]
  | cons item more ih =>
    rw [List.foldlM_cons, Option.bind_eq_bind, Option.bind_eq_some_iff] at hmore
    obtain ⟨o₁, hitem, hmore⟩ := hmore
    rw [List.append_cons]
    exact ih (h.item hitem) hmore

/-- Bodies and data are only added to. -/
structure Output.Extends (o o' : Output) : Prop where
  bodies : o.bodies <+: o'.bodies
  data : o.data <+: o'.data

theorem Item.generate_extends {item : Item} {o o' : Output} (h : item.generate o = some o') :
    o.Extends o' := by
  cases item with
  | constant id value =>
    obtain ⟨_, -, rfl⟩ := Item.generate_constant h
    exact ⟨List.prefix_refl _, List.prefix_refl _⟩
  | globalVar type id =>
    obtain ⟨_, -, rfl⟩ := Item.generate_globalVar h
    exact ⟨List.prefix_refl _, List.prefix_append _ _⟩
  | function id type params locals body =>
    obtain ⟨_, _, -, -, hbodies, hdata, -⟩ := Item.generate_function h
    exact ⟨hbodies ▸ List.prefix_append _ _, hdata ▸ List.prefix_append _ _⟩

theorem extends_of_foldlM {items : List Item} {o o' : Output}
    (h : items.foldlM Item.generate o = some o') : o.Extends o' := by
  induction items generalizing o with
  | nil =>
    rw [List.foldlM_nil] at h
    obtain rfl := Option.some.inj h
    exact ⟨List.prefix_refl _, List.prefix_refl _⟩
  | cons item items ih =>
    rw [List.foldlM_cons, Option.bind_eq_bind, Option.bind_eq_some_iff] at h
    obtain ⟨o₁, hitem, h⟩ := h
    have hfirst := Item.generate_extends hitem
    have hrest := ih h
    exact ⟨hfirst.bodies.trans hrest.bodies, hfirst.data.trans hrest.data⟩

/-! ## Bodies by their numbers -/

theorem exists_function {items : List Item} {k : Nat} (h : k < items.countP Item.isFunction) :
    ∃ before id type params locals body after,
      items = before ++ .function id type params locals body :: after ∧
      before.countP Item.isFunction = k := by
  induction items generalizing k with
  | nil => simp at h
  | cons item items ih =>
    cases item with
    | constant _ _ | globalVar _ _ =>
      obtain ⟨before, id, type, params, locals, body, after, rfl, hcount⟩ :=
        ih (k := k) (by simpa [List.countP_cons, Item.isFunction] using h)
      exact ⟨_ :: before, id, type, params, locals, body, after, rfl,
        by simpa [List.countP_cons, Item.isFunction] using hcount⟩
    | function id type params locals body =>
      cases k with
      | zero => exact ⟨[], id, type, params, locals, body, items, rfl, rfl⟩
      | succ k =>
        obtain ⟨before, id', type', params', locals', body', after, rfl, hcount⟩ :=
          ih (k := k) (by simpa [List.countP_cons, Item.isFunction] using h)
        exact ⟨_ :: before, id', type', params', locals', body', after, rfl,
          by simp [List.countP_cons, Item.isFunction, hcount]⟩

theorem exists_body {bodies : List (List Instr)} {i : Nat} {x : Instr}
    (h : bodies.flatten[i]? = some x) :
    ∃ k b, bodies[k]? = some b ∧ startOf bodies k ≤ i ∧ x ∈ b := by
  induction bodies generalizing i with
  | nil => simp at h
  | cons b bodies ih =>
    rw [List.flatten_cons] at h
    by_cases hi : i < b.length
    · rw [List.getElem?_append_left hi] at h
      exact ⟨0, b, rfl, Nat.zero_le i, List.mem_of_getElem? h⟩
    · rw [List.getElem?_append_right (by omega)] at h
      obtain ⟨k, b', hb', hle, hx⟩ := ih h
      refine ⟨k + 1, b', hb', ?_, hx⟩
      rw [startOf] at hle ⊢
      rw [List.take_succ_cons, List.flatten_cons, List.length_append]
      omega

end Syntax

open Syntax

/-- Whether code begins with `ENT`, ends with `LEV` and contains no other `ENT`. -/
def IsFunctionBody (code : List Instr) : Prop :=
  ∃ n inner, code = .enter n :: (inner ++ [.leave]) ∧ ∀ i ∈ inner, i.isEnter = false

namespace Program.Built

variable {source : List UInt8} {limits : Limits} {p : Program} {items : List Item} {o : Output}

theorem resolved (hb : p.Built source limits items o) : Resolved items o :=
  (resolved_names source limits).items hb.generated

theorem isFunctionBody (hb : p.Built source limits items o) :
    ∀ b ∈ o.bodies.map Chunk.code, IsFunctionBody b := by
  intro b hmem
  obtain ⟨chunk, hchunk, rfl⟩ := List.mem_map.mp hmem
  obtain ⟨front, back, hbodies⟩ := List.append_of_mem hchunk
  have hlaid : Laid (fun _ => True) 0 o.bodies :=
    generate_laid (fun _ _ _ _ _ _ => trivial) hb.generated trivial
  rw [hbodies] at hlaid
  obtain ⟨cx, size, body, c, n, -, hc, rfl⟩ := hlaid.split.1
  exact ⟨n, c.code, by simp, (Stmt.generateAll_confined hc).no_enter⟩

theorem code_eq_flatten (hb : p.Built source limits items o) :
    p.code.toList = (o.bodies.map Chunk.code).flatten := by
  rw [hb.code_eq, Output.code, List.flatMap_def]

theorem startOf_lt (hb : p.Built source limits items o) (k : Nat) :
    startOf (o.bodies.map Chunk.code) k < 2 ^ 64 := by
  have hle : startOf (o.bodies.map Chunk.code) k ≤ p.code.toList.length := by
    rw [hb.code_eq_flatten, startOf]
    conv_rhs => rw [← List.take_append_drop k (o.bodies.map Chunk.code), List.flatten_append,
      List.length_append]
    omega
  exact Nat.lt_of_le_of_lt (hle.trans (Compile.length_le_wordCount _)) hb.wordCount_lt

/-- The body of a function in its place, with what it was generated from. -/
theorem exists_function_body (hb : p.Built source limits items o) {before after : List Item}
    {id : SymbolId} {type : CType} {params locals : List Variable} {body : List Stmt}
    (hitems : items = before ++ .function id type params locals body :: after) :
    ∃ o₁ o₂ cx c, generate (names source limits) before = some o₁ ∧
      Item.generate o₁ (.function id type params locals body) = some o₂ ∧
      o₂.bodies <+: o.bodies ∧ Framed params locals cx o₂.symbols.fileBinding ∧
      Stmt.generateAll cx (o₁.code.length + 1) o₁.data.length body = some c ∧
      (o.bodies.map Chunk.code)[before.countP Item.isFunction]? =
        some (.enter (Word.ofNat locals.length) :: (c.code ++ [.leave])) := by
  obtain ⟨o₁, o₂, hbefore, hitem, hafter⟩ := generate_split (hitems ▸ hb.generated)
  obtain ⟨cx, c, hframed, hc, hbodies, -, -⟩ := Item.generate_function hitem
  have hprefix := (extends_of_foldlM hafter).bodies
  refine ⟨o₁, o₂, cx, c, hbefore, hitem, hprefix, hframed, hc, ?_⟩
  obtain ⟨more, hmore⟩ := hprefix
  have hcount : o₁.bodies.length = before.countP Item.isFunction :=
    ((resolved_names source limits).items hbefore).count
  rw [← hmore, hbodies, ← hcount]
  simp

/-- The calls of a function, which know the items up to the function itself. -/
theorem directCalls_eq (hb : p.Built source limits items o) {before after : List Item}
    {id : SymbolId} {type : CType} {params locals : List Variable} {body : List Stmt}
    (hitems : items = before ++ .function id type params locals body :: after) :
    ∃ b, (o.bodies.map Chunk.code)[before.countP Item.isFunction]? = some b ∧
      directCalls b = (Stmt.callsIn body).filterMap (callee? (o.bodies.map Chunk.code)
        (.function id type params locals body :: before.reverse) (params ++ locals)) := by
  obtain ⟨o₁, o₂, cx, c, hbefore, hitem, ⟨more, hmore⟩, hframed, hc, hbody⟩ :=
    hb.exists_function_body hitems
  have hres₂ := ((resolved_names source limits).items hbefore).item hitem
  have houter := hframed.outer
  have hcalls := Stmt.generateAll_calls hc
  refine ⟨_, hbody, ?_⟩
  have hcode : directCalls (.enter (Word.ofNat locals.length) :: (c.code ++ [.leave])) =
      directCalls c.code := by
    rw [← List.singleton_append, directCalls_append, directCalls_append]
    exact List.append_nil _
  rw [hcode, hcalls.direct]
  refine List.filterMap_congr fun x hx => ?_
  rw [callee?]
  by_cases hvar : x ∈ (params ++ locals).map (·.id)
  · rw [if_pos (.inr hvar), Binding.start?_of_kind (by rw [hframed.kind_eq hvar]; simp),
      Option.map_none]
  cases hbuiltin : SymbolTable.isBuiltin x with
  | true => rw [if_pos (.inl rfl), houter x hvar, hres₂.builtin x hbuiltin, Option.map_none]
  | false =>
    have hlt : x < o₂.symbols.size := by
      by_contra hge
      have hunbound := SymbolTable.fileBinding_of_size_le (Nat.le_of_not_lt hge)
      rw [← houter x hvar] at hunbound
      exact hcalls.bound x hx (by rw [hunbound]; rfl)
    have hle : (before ++ [Item.function id type params locals body]).reverse.countP
        Item.isFunction ≤
          (o₂.bodies.map Chunk.code).length := by
      rw [List.countP_reverse, List.length_map, hres₂.count, List.nil_append]
    have hstart := hres₂.start x hlt hbuiltin
    rw [List.nil_append, ← bodyStart?_append hle (more.map Chunk.code), ← List.map_append, hmore,
      List.reverse_append, List.reverse_singleton, List.singleton_append] at hstart
    rw [if_neg (not_or.mpr ⟨by simp, hvar⟩), houter x hvar, hstart, Option.map_map]
    cases hbody : bodyStart? (o.bodies.map Chunk.code) x
        (.function id type params locals body :: before.reverse) with
    | none => rfl
    | some start =>
      obtain ⟨k, -, rfl⟩ := bodyStart?_eq_some hbody
      exact congrArg some (Word.toUnsigned_ofNat (hb.startOf_lt k))

/-- Where direct calls lead: to the bodies of functions that are defined above the call, the
function that makes the call included. -/
theorem call_le (hb : p.Built source limits items o) {i : Nat} {t : UInt64}
    (h : p.code.toList[i]? = some (.call t)) :
    ∃ k < o.bodies.length, t.toNat = startOf (o.bodies.map Chunk.code) k ∧ t.toNat ≤ i := by
  rw [hb.code_eq_flatten] at h
  obtain ⟨k, b, hk, hle, hmem⟩ := exists_body h
  have hlt : k < items.countP Item.isFunction := by
    rw [← hb.resolved.count, ← List.length_map (f := Chunk.code)]
    exact (List.getElem?_eq_some_iff.mp hk).1
  obtain ⟨before, id, type, params, locals, body, after, hitems, rfl⟩ := exists_function hlt
  obtain ⟨b', hb', hcalls⟩ := hb.directCalls_eq hitems
  obtain rfl : b = b' := Option.some.inj (hk.symm.trans hb')
  have htarget : t.toNat ∈ directCalls b := List.mem_filterMap.mpr ⟨_, hmem, rfl⟩
  rw [hcalls, List.mem_filterMap] at htarget
  obtain ⟨x, -, hx⟩ := htarget
  rw [callee?] at hx
  split at hx
  · simp at hx
  · obtain ⟨j, hj, hstart⟩ := bodyStart?_eq_some hx
    rw [List.countP_cons_of_pos rfl, List.countP_reverse] at hj
    refine ⟨j, ?_, hstart, hstart ▸ (startOf_mono (Nat.le_of_lt_succ hj)).trans hle⟩
    rw [hb.resolved.count]
    exact Nat.lt_of_le_of_lt (Nat.le_of_lt_succ hj) hlt

theorem scopes_eq (hb : p.Built source limits items o) : p.symbols.scopes = [] := by
  rw [hb.symbols_eq, hb.resolved.scopes]

/-- A name that is a function in the end has as its value the index at which the body of its latest
definition begins. -/
theorem exists_start (hb : p.Built source limits items o) {id : SymbolId}
    (h : (p.symbols.fileBinding id).kind = .function) :
    ∃ k < o.bodies.length, bodyStart? (o.bodies.map Chunk.code) id items.reverse =
        some (startOf (o.bodies.map Chunk.code) k) ∧
      (p.symbols.fileBinding id).value = Word.ofNat (startOf (o.bodies.map Chunk.code) k) := by
  have hres := hb.resolved
  rw [hb.symbols_eq] at h ⊢
  have hstart : (o.symbols.fileBinding id).start? = some (o.symbols.fileBinding id).value :=
    if_pos h
  cases hbuiltin : SymbolTable.isBuiltin id with
  | true => rw [hres.builtin id hbuiltin] at hstart; simp at hstart
  | false =>
    have hlt : id < o.symbols.size := by
      by_contra hge
      rw [SymbolTable.fileBinding_of_size_le (Nat.le_of_not_lt hge)] at h
      simp [Binding.unbound] at h
    rw [hres.start id hlt hbuiltin, Option.map_eq_some_iff] at hstart
    obtain ⟨start, hbody, hvalue⟩ := hstart
    obtain ⟨k, hk, rfl⟩ := bodyStart?_eq_some hbody
    exact ⟨k, by rwa [hres.count, ← List.countP_reverse], hbody, hvalue.symm⟩

end Program.Built

/-- The shape of a program and its direct calls. The code is the bodies of the functions in the
order of their definitions. A name that is a function in the end, as the entry point is, has as its
value the index at which the body of its latest definition begins. The direct calls of a body are,
in order, those calls of its function that find a function under the name called, and lead to the
body of the latest definition of that name up to the function itself. -/
theorem bodies_of_compile {source : List UInt8} {limits : Limits} {p : Program}
    (h : Program.compile source limits = .ok p) :
    ∃ items bodies, Syntax.ofSource source limits = some items ∧
      p.code.toList = bodies.flatten ∧ bodies.length = items.countP Item.isFunction ∧
      (∀ b ∈ bodies, IsFunctionBody b) ∧
      (p.symbols.fileBinding SymbolTable.entry).kind = .function ∧
      (∀ id, (p.symbols.fileBinding id).kind = .function →
        ∃ k < bodies.length, bodyStart? bodies id items.reverse = some (startOf bodies k) ∧
          (p.symbols.fileBinding id).value = Word.ofNat (startOf bodies k)) ∧
      (∀ before id type params locals body after,
        items = before ++ .function id type params locals body :: after →
          ∃ b, bodies[before.countP Item.isFunction]? = some b ∧
            directCalls b = (Stmt.callsIn body).filterMap (callee? bodies
              (.function id type params locals body :: before.reverse) (params ++ locals))) ∧
      ∀ (i : Nat) (t : UInt64), p.code.toList[i]? = some (.call t) →
        ∃ k < bodies.length, t.toNat = startOf bodies k ∧ t.toNat ≤ i := by
  obtain ⟨items, o, hb⟩ := Program.built h
  have hres := hb.resolved
  have hcount : (o.bodies.map Chunk.code).length = items.countP Item.isFunction := by
    rw [List.length_map, hres.count]
  refine ⟨items, o.bodies.map Chunk.code, hb.parsed, hb.code_eq_flatten, hcount, hb.isFunctionBody,
    ?_, ?_, fun _ _ _ _ _ _ _ => hb.directCalls_eq, fun i t hi => ?_⟩
  · have hentry := hb.entry
    rwa [SymbolTable.binding_of_scopes_nil hb.scopes_eq] at hentry
  · intro id hkind
    rw [List.length_map]
    exact hb.exists_start hkind
  · rw [List.length_map]
    exact hb.call_le hi

/-- A function that is defined twice, a parameter that hides it, and a function with the name of a
service. -/
def redefinedSource : List UInt8 := Utf8.encode
  "int f() { return 1; } int g(int f) { return f(); } int f() { int a; return *&a + g(f()); }
   int printf() { return f(); } int main() { return f(printf(0)); }"

theorem bodies_of_redefined :
    ∃ p items bodies,
      Program.compile redefinedSource (.ofPoolSize Limits.defaultPoolSize) = .ok p ∧
      Syntax.ofSource redefinedSource (.ofPoolSize Limits.defaultPoolSize) = some items ∧
      p.code.toList = bodies.flatten ∧ bodies.length = items.countP Item.isFunction ∧
      (∀ b ∈ bodies, IsFunctionBody b) ∧ directCalls bodies.flatten = [8, 4, 8, 8] ∧
      ∃ k < bodies.length,
        (p.symbols.fileBinding SymbolTable.entry).value = Word.ofNat (startOf bodies k) := by
  have hcalls : (Program.compile redefinedSource (.ofPoolSize Limits.defaultPoolSize)).toOption.map
      (fun p => directCalls p.code.toList) = some [8, 4, 8, 8] := by
    decide +kernel
  cases h : Program.compile redefinedSource (.ofPoolSize Limits.defaultPoolSize) with
  | error e => simp [h, Except.toOption] at hcalls
  | ok p =>
    simp only [h, Except.toOption, Option.map_some, Option.some.injEq] at hcalls
    obtain ⟨items, bodies, hparsed, hcode, hcount, hbodies, hentry, hvalues, -⟩ :=
      bodies_of_compile h
    obtain ⟨k, hk, -, hvalue⟩ := hvalues SymbolTable.entry hentry
    exact ⟨p, items, bodies, rfl, hparsed, hcode, hcount, hbodies, hcode ▸ hcalls, k, hk, hvalue⟩

end MiniC
