import MiniC.Proofs.Code.Calls
import MiniC.Proofs.Syntax.Extent

/-!
# Frame slots

The variables of a function live in its frame, at fixed distances from the frame pointer: the
parameters above the return address, the last of them lowest, and the local variables below the
saved frame pointer. What the code of a function addresses relative to the frame pointer is, in
order, the slots of the variables that its body uses (`slots_of_compile`).
-/

namespace MiniC

/-- The frame slot that an instruction addresses, in words from the frame pointer. -/
def Instr.slot? : Instr → Option Int
  | .lea offset | .callSlot offset => some offset.toInt
  | _ => none

/-- The frame slots that code addresses, in order. -/
def slots (code : List Instr) : List Int := code.filterMap Instr.slot?

namespace Syntax

/-! ## The slots of variables -/

/-- The slot of a variable of a function. The return address is in slot 1 and the saved frame
pointer in slot 0. -/
def slotOf? (params locals : List Variable) (id : SymbolId) : Option Int :=
  match (params.map (·.id)).idxOf? id, (locals.map (·.id)).idxOf? id with
  | some k, _ => some (params.length + 1 - k)
  | none, some k => some (-(k + 1))
  | none, none => none

section

variable {params locals vars : List Variable} {id : SymbolId} {v : Variable} {k : Nat} {z : Int}

theorem getElem?_of_idxOf?_id (h : (vars.map (·.id)).idxOf? id = some k) :
    ∃ v, vars[k]? = some v ∧ v.id = id := by
  obtain ⟨hk, heq, -⟩ := List.idxOf?_eq_some_iff.mp h
  rw [List.length_map] at hk
  rw [List.getElem_map] at heq
  exact ⟨vars[k], List.getElem?_eq_getElem hk, by simpa using heq⟩

theorem idxOf?_id (hnodup : (vars.map (·.id)).Nodup) (h : vars[k]? = some v) :
    (vars.map (·.id)).idxOf? v.id = some k := by
  cases hidx : (vars.map (·.id)).idxOf? v.id with
  | none =>
    rw [List.idxOf?_eq_none_iff] at hidx
    exact absurd (List.mem_map_of_mem (List.mem_of_getElem? h)) hidx
  | some j =>
    obtain ⟨w, hw, heq⟩ := getElem?_of_idxOf?_id hidx
    have hj : (vars.map (·.id))[j]? = (vars.map (·.id))[k]? := by
      rw [List.getElem?_map, List.getElem?_map, hw, h, Option.map_some, Option.map_some, heq]
    have hlt : j < (vars.map (·.id)).length := (List.idxOf?_eq_some_iff.mp hidx).1
    rw [(List.getElem?_inj hlt hnodup).mp hj]

theorem slotOf?_param (hnodup : ((params ++ locals).map (·.id)).Nodup) (h : params[k]? = some v) :
    slotOf? params locals v.id = some (params.length + 1 - k : Int) := by
  rw [List.map_append] at hnodup
  rw [slotOf?, idxOf?_id (List.Nodup.of_append_left hnodup) h]

theorem slotOf?_local (hnodup : ((params ++ locals).map (·.id)).Nodup) (h : locals[k]? = some v) :
    slotOf? params locals v.id = some (-(k + 1) : Int) := by
  rw [List.map_append] at hnodup
  have hnone : (params.map (·.id)).idxOf? v.id = none := by
    rw [List.idxOf?_eq_none_iff]
    intro hmem
    exact List.disjoint_of_nodup_append hnodup hmem (List.mem_map_of_mem (List.mem_of_getElem? h))
  rw [slotOf?, hnone, idxOf?_id (List.Nodup.of_append_right hnodup) h]

/-- Names that are no variables have no slot. -/
theorem slotOf?_of_notMem (h : id ∉ (params ++ locals).map (·.id)) :
    slotOf? params locals id = none := by
  rw [List.map_append, List.mem_append, not_or] at h
  rw [slotOf?, List.idxOf?_eq_none_iff.mpr h.1, List.idxOf?_eq_none_iff.mpr h.2]

theorem slotOf?_eq_some (h : slotOf? params locals id = some z) :
    (∃ (k : Nat) (v : Variable), params[k]? = some v ∧ v.id = id ∧ z = params.length + 1 - k) ∨
      ∃ (k : Nat) (v : Variable), locals[k]? = some v ∧ v.id = id ∧ z = -(k + 1) := by
  rw [slotOf?] at h
  split at h
  · rename_i k hk
    obtain ⟨v, hv, hid⟩ := getElem?_of_idxOf?_id hk
    exact .inl ⟨k, v, hv, hid, (Option.some.inj h).symm⟩
  · rename_i k _ hk
    obtain ⟨v, hv, hid⟩ := getElem?_of_idxOf?_id hk
    exact .inr ⟨k, v, hv, hid, (Option.some.inj h).symm⟩
  · cases h

/-- No variable has the slot of the return address or of the saved frame pointer. -/
theorem slotOf?_bounds (h : slotOf? params locals id = some z) :
    2 ≤ z ∧ z ≤ params.length + 1 ∨ -locals.length ≤ z ∧ z ≤ -1 := by
  obtain ⟨k, v, hv, -, rfl⟩ | ⟨k, v, hv, -, rfl⟩ := slotOf?_eq_some h
  · have hlt := (List.getElem?_eq_some_iff.mp hv).1
    omega
  · have hlt := (List.getElem?_eq_some_iff.mp hv).1
    omega

theorem slotOf?_inj {id' : SymbolId} (h : slotOf? params locals id = some z)
    (h' : slotOf? params locals id' = some z) : id = id' := by
  have hbounds := slotOf?_bounds h
  obtain ⟨k, v, hv, rfl, hz⟩ | ⟨k, v, hv, rfl, hz⟩ := slotOf?_eq_some h <;>
  obtain ⟨k', v', hv', rfl, hz'⟩ | ⟨k', v', hv', rfl, hz'⟩ := slotOf?_eq_some h'
  · obtain rfl : k = k' := by omega
    rw [Option.some.inj (hv.symm.trans hv')]
  · have hlt := (List.getElem?_eq_some_iff.mp hv).1
    omega
  · have hlt := (List.getElem?_eq_some_iff.mp hv').1
    omega
  · obtain rfl : k = k' := by omega
    rw [Option.some.inj (hv.symm.trans hv')]

end

/-! ## The slots that code addresses -/

/-- A use of a variable addresses its slot, in whatever way the variable is used. -/
theorem Use.slot?_of_localVar {cx : Context} {u : Use} (h : (cx.binding u.id).kind = .localVar) :
    (u.instr? cx).bind Instr.slot? = some (cx.frame - (cx.binding u.id).value).toInt := by
  cases u with
  | value id =>
    rw [Use.id] at h
    simp [instr?, nameCode?, h, Instr.slot?, Use.id]
  | call id =>
    rw [Use.id] at h
    simp [instr?, Compile.callInstr?, h, Instr.slot?, Use.id]

theorem Use.slot?_of_ne {cx : Context} {u : Use} (h : (cx.binding u.id).kind ≠ .localVar) :
    (u.instr? cx).bind Instr.slot? = none := by
  cases u with
  | value id =>
    rw [Use.id] at h
    rw [instr?, nameCode?]
    split <;> first | rfl | contradiction
  | call id =>
    rw [Use.id] at h
    rw [instr?, Compile.callInstr?]
    split <;> first | rfl | contradiction

/-- The slots of all uses in a frame whose distances are words. -/
theorem Framed.slot?_eq {params locals : List Variable} {cx : Context} {file : SymbolId → Binding}
    (h : Framed params locals cx file) (hfile : ∀ id, (file id).kind ≠ .localVar)
    (hlength : params.length + locals.length + 1 < 2 ^ 63) (u : Use) :
    (u.instr? cx).bind Instr.slot? = slotOf? params locals u.id := by
  have htoInt : ∀ z : Int, -locals.length ≤ z → z ≤ params.length + 1 → (Int64.ofInt z).toInt = z :=
    fun z hle hge => Int64.toInt_ofInt_of_le (by omega) (by omega)
  by_cases hvar : u.id ∈ (params ++ locals).map (·.id)
  · rw [Use.slot?_of_localVar (h.kind_eq hvar)]
    rw [List.map_append, List.mem_append] at hvar
    rcases hvar with hvar | hvar
    · obtain ⟨v, hv, hid⟩ := List.mem_map.mp hvar
      obtain ⟨k, hk⟩ := List.getElem?_of_mem hv
      obtain ⟨slot, hbinding, hslot⟩ := h.ofParam k v hk
      have hlt := (List.getElem?_eq_some_iff.mp hk).1
      rw [← hid, hbinding, hslot, slotOf?_param h.nodup hk, htoInt _ (by omega) (by omega)]
    · obtain ⟨v, hv, hid⟩ := List.mem_map.mp hvar
      obtain ⟨k, hk⟩ := List.getElem?_of_mem hv
      obtain ⟨slot, hbinding, hslot⟩ := h.ofLocal k v hk
      have hlt := (List.getElem?_eq_some_iff.mp hk).1
      rw [← hid, hbinding, hslot, slotOf?_local h.nodup hk, htoInt _ (by omega) (by omega)]
      congr 1
      omega
  · rw [slotOf?_of_notMem hvar, Use.slot?_of_ne (by rw [h.outer _ hvar]; exact hfile _)]

/-! ## Names outside functions -/

/-- No name is a local variable outside functions. -/
theorem fileBinding_kind_ne {source : List UInt8} {limits : Limits} {items : List Item} {o : Output}
    (h : generate (names source limits) items = some o) (id : SymbolId) :
    (o.symbols.fileBinding id).kind ≠ .localVar := by
  refine generate_induction (motive := fun _ o => (o.symbols.fileBinding id).kind ≠ .localVar)
    ?_ ?_ h
  · have hall : ∀ s ∈ SymbolTable.builtinSymbols, s.binding.kind ≠ .localVar := by decide +kernel
    rcases (names_fresh source limits).fileBinding_cases id with ⟨s, hs, heq⟩ | heq
    · rw [heq]
      exact hall s hs
    · rw [heq]
      simp [Binding.unbound]
  · intro items item o o' hkind hitem
    have hdefine : ∀ {id' t b}, o.symbols.define? id' b = some t → b.kind ≠ .localVar →
        (t.fileBinding id).kind ≠ .localVar := by
      intro id' t b ht hb
      rcases SymbolTable.fileBinding_define_or ht id with heq | heq
      · rwa [heq]
      · rwa [heq]
    cases item with
    | constant id' value =>
      obtain ⟨t, ht, rfl⟩ := Item.generate_constant hitem
      exact hdefine ht (by simp)
    | globalVar type id' =>
      obtain ⟨t, ht, rfl⟩ := Item.generate_globalVar hitem
      exact hdefine ht (by simp)
    | function id' type params locals body =>
      obtain ⟨_, _, -, -, -, -, hsymbols⟩ := Item.generate_function hitem
      rw [hsymbols]
      cases ht : o.symbols.define? id' ⟨.function, type, Word.ofNat o.code.length⟩ with
      | none => exact hkind
      | some t => exact hdefine ht (by simp)

end Syntax

open Syntax

/-- The frame slots of a program. A function with `p` parameters and `n` locals enters its frame
with room for `n` words. What its code addresses in the frame are, in order, the slots of the
variables that its body uses: slot `p + 1 - i` for the parameter with the index `i`, slot `-(j + 1)`
for the local with the index `j`. So two variables never share a slot, and slots 0 and 1 are never
addressed. No source has `2 ^ 63` bytes or more. -/
theorem slots_of_compile {source : List UInt8} {limits : Limits} {p : Program}
    (hsource : source.length < 2 ^ 63) (h : Program.compile source limits = .ok p) :
    ∃ (items : List Item) (bodies : List (List Instr)),
      Syntax.ofSource source limits = some items ∧
      p.code.toList = bodies.flatten ∧ bodies.length = items.countP Item.isFunction ∧
      ∀ before id type params locals body after,
        items = before ++ .function id type params locals body :: after →
        ∃ (n : Word) (inner : List Instr),
          bodies[before.countP Item.isFunction]? = some (.enter n :: (inner ++ [.leave])) ∧
          n.toInt = locals.length ∧ (∀ i ∈ inner, i.isEnter = false) ∧
          slots inner = (Stmt.usesIn body).filterMap (fun u => slotOf? params locals u.id) ∧
          (∀ k ∈ slots inner,
            2 ≤ k ∧ k ≤ params.length + 1 ∨ -locals.length ≤ k ∧ k ≤ -1) ∧
          (∀ (i : Nat) v, params[i]? = some v →
            slotOf? params locals v.id = some (params.length + 1 - i : Int)) ∧
          (∀ (j : Nat) v, locals[j]? = some v →
            slotOf? params locals v.id = some (-(j + 1) : Int)) ∧
          ∀ x y k, slotOf? params locals x = some k → slotOf? params locals y = some k → x = y := by
  obtain ⟨items, o, hb⟩ := Program.built h
  refine ⟨items, o.bodies.map Chunk.code, hb.parsed, hb.code_eq_flatten, ?_, ?_⟩
  · rw [List.length_map, hb.resolved.count]
  intro before id type params locals body after hitems
  obtain ⟨o₁, o₂, cx, c, hbefore, hitem, -, hframed, hc, hbody⟩ := hb.exists_function_body hitems
  have hlength : params.length + locals.length + 1 < 2 ^ 63 := by
    have hle := declared_le hb.parsed
    rw [hitems, List.map_append, List.map_cons, List.sum_append, List.sum_cons, Item.declared]
      at hle
    omega
  have hfile : ∀ x, (o₂.symbols.fileBinding x).kind ≠ .localVar :=
    fileBinding_kind_ne (generate_concat hbefore hitem)
  have hslots : slots c.code =
      (Stmt.usesIn body).filterMap fun u => slotOf? params locals u.id := by
    rw [slots, (Stmt.generateAll_refers hc).filterMap_eq fun i hi => by
      cases i <;> first | rfl | cases hi]
    exact List.filterMap_congr fun u _ => hframed.slot?_eq hfile hlength u
  refine ⟨_, c.code, hbody, Word.toInt_ofNat (by omega), (Stmt.generateAll_confined hc).no_enter,
    hslots, fun k hk => ?_, fun i v => slotOf?_param hframed.nodup,
    fun j v => slotOf?_local hframed.nodup, fun x y k => slotOf?_inj⟩
  rw [hslots, List.mem_filterMap] at hk
  obtain ⟨u, -, hu⟩ := hk
  exact slotOf?_bounds hu

/-- A function whose parameter is called and whose local variable has its address taken. -/
def frameSource : List UInt8 := Utf8.encode
  "int f(int a, int *g) { int x; char y; x = a; y = *g; return g(x, &y) + a; }
   int main() { return f(1, 0); }"

theorem slots_of_frameSource : frameSource.length < 2 ^ 63 ∧
    ∃ (p : Program) (items : List Item) (bodies : List (List Instr)),
    Program.compile frameSource (.ofPoolSize Limits.defaultPoolSize) = .ok p ∧
    Syntax.ofSource frameSource (.ofPoolSize Limits.defaultPoolSize) = some items ∧
    p.code.toList = bodies.flatten ∧ bodies.length = items.countP Item.isFunction ∧
    slots bodies.flatten = [-1, 3, -2, 2, -1, -2, 2, 3] := by
  have hlength : frameSource.length < 2 ^ 63 := by decide +kernel
  have hslots : (Program.compile frameSource (.ofPoolSize Limits.defaultPoolSize)).toOption.map
      (fun p => slots p.code.toList) = some [-1, 3, -2, 2, -1, -2, 2, 3] := by
    decide +kernel
  cases h : Program.compile frameSource (.ofPoolSize Limits.defaultPoolSize) with
  | error e => simp [h, Except.toOption] at hslots
  | ok p =>
    simp only [h, Except.toOption, Option.map_some, Option.some.injEq] at hslots
    obtain ⟨items, bodies, hparsed, hcode, hcount, -⟩ := slots_of_compile hlength h
    exact ⟨hlength, p, items, bodies, rfl, hparsed, hcode, hcount, hcode ▸ hslots⟩

end MiniC
