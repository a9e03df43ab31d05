import MiniC.Proofs.Machine.Views
import MiniC.Proofs.Source.Evaluation
import MiniC.Proofs.Source.Layout

/-!
# Frames

While the code of a function runs, the cells of its frame hold its variables, and cells below the
stack hold the globals (`Image.Holds`). Code over these variables may put words on the stack. It
changes no cell from the top of the stack on but those of the function's own variables (`Pushed`),
so that what the callers have on the stack stays as it is.
-/

namespace MiniC

namespace Source

/-! ## Variables -/

theorem Function.offset_bounds {f : Function} {x : Name} {o : Int} (h : f.offset x = some o) :
    -f.locals.length ≤ o ∧ o ≤ -1 ∨ 2 ≤ o ∧ o ≤ f.params.length + 1 := by
  rcases Function.offset_cases h with ⟨k, -, hk, rfl⟩ | ⟨k, -, hk, rfl⟩ <;> omega

theorem Function.offset_inj {f : Function} {x y : Name} {o : Int} (hx : f.offset x = some o)
    (hy : f.offset y = some o) : x = y := by
  have hinj : ∀ {xs : List Name} {k j : Nat}, xs[k]? = some x → xs[j]? = some y → k = j → x = y :=
    fun h h' heq => Option.some.inj (h.symm.trans (heq ▸ h'))
  rcases Function.offset_cases hx with ⟨k, hk, hlt, rfl⟩ | ⟨k, hk, hlt, rfl⟩ <;>
    rcases Function.offset_cases hy with ⟨j, hj, hlt', heq⟩ | ⟨j, hj, hlt', heq⟩
  · exact hinj hk hj (by omega)
  · omega
  · omega
  · exact hinj hk hj (by omega)

/-! ## Stacks -/

/-- A stack with some more words on it. No cell from its top on has changed but those of the
variables of a function. -/
structure Pushed (f : Function) (σ : Stack) (words : List Word) (σ' : Stack) : Prop where
  sp : σ'.sp = σ.sp - words.length
  bp : σ'.bp = σ.bp
  word : ∀ (k : Nat) (w : Word), words[k]? = some w → σ'.cell (σ.sp - 1 - k) = w
  cell : ∀ i, σ.sp ≤ i → (∀ x o, f.offset x = some o → i ≠ σ.bp + o) → σ'.cell i = σ.cell i

namespace Pushed

variable {f : Function} {σ σ₁ σ₂ : Stack} {words words' : List Word}

theorem refl (f : Function) (σ : Stack) : Pushed f σ [] σ :=
  ⟨by simp, rfl, by simp, fun _ _ _ => rfl⟩

theorem push (f : Function) (σ : Stack) (w : Word) : Pushed f σ [w] (σ.push w) where
  sp := by simp [Stack.push]
  bp := rfl
  word := by
    intro k w' hk
    obtain ⟨rfl, rfl⟩ : k = 0 ∧ w = w' := by
      cases k with
      | zero => simpa using hk
      | succ k => simp at hk
    simp [Stack.push]
  cell := fun i hi _ => Stack.cell_push_of_ne (by omega)

theorem trans (hframe : σ.sp ≤ σ.bp - f.locals.length) (h : Pushed f σ words σ₁)
    (h' : Pushed f σ₁ words' σ₂) : Pushed f σ (words ++ words') σ₂ where
  sp := by
    rw [h'.sp, h.sp, List.length_append]
    push_cast
    omega
  bp := h'.bp.trans h.bp
  word := by
    intro k w hk
    have hsp := h.sp
    rw [List.getElem?_append] at hk
    split at hk
    · rw [h'.cell, h.word k w hk]
      · omega
      · intro x o ho
        have hbounds := Function.offset_bounds ho
        rw [h.bp]
        omega
    · rw [← h'.word _ w hk]
      congr 1
      omega
  cell := by
    intro i hi hown
    have hsp := h.sp
    rw [h'.cell i (by omega) (by rwa [h.bp]), h.cell i hi hown]

/-- Nothing is left on the stack when as much is dropped as was pushed. -/
theorem drop (h : Pushed f σ words σ₁) : Pushed f σ [] (σ₁.drop words.length) where
  sp := by simp [Stack.drop, h.sp]
  bp := h.bp
  word := by simp
  cell := h.cell

theorem top {w : Word} (h : Pushed f σ [w] σ₁) : σ₁.cell σ₁.sp = w := by
  rw [h.sp]
  simpa using h.word 0 w rfl

/-- Changing a variable of the function, or a cell below the stack. -/
theorem set {i : Int} (hframe : σ.sp ≤ σ.bp - f.locals.length) (h : Pushed f σ words σ₁) (w : Word)
    (hi : (∃ x o, f.offset x = some o ∧ i = σ.bp + o) ∨ i < σ₁.sp) :
    Pushed f σ words (σ₁.set i w) where
  sp := h.sp
  bp := h.bp
  word := by
    intro k w' hk
    have hsp := h.sp
    obtain ⟨hlt, -⟩ := List.getElem?_eq_some_iff.mp hk
    rw [← h.word k w' hk]
    refine Function.update_of_ne ?_ _ _
    rcases hi with ⟨x, o, ho, rfl⟩ | hi
    · have hbounds := Function.offset_bounds ho
      omega
    · omega
  cell := by
    intro j hj hown
    have hsp := h.sp
    rw [← h.cell j hj hown]
    refine Function.update_of_ne ?_ _ _
    rcases hi with ⟨x, o, ho, rfl⟩ | hi
    · exact hown x o ho
    · omega

end Pushed

/-! ## Programs in memory -/

/-- A program in the memory of a setting: its code, and cells for its globals below the stack. -/
structure Image (S : Setting) (p : Parts) where
  start : Function → Nat
  env : Function → Env
  cell : Name → Int
  layout : Layout p S.loaded.code.toList start env cell
  code_lt : S.loaded.code.size < 2 ^ 63
  globals_le : firstCell + p.globals.length ≤ S.base
  small : ∀ f ∈ p.definitions, f.params.length + f.locals.length < 2 ^ 60
  nodup : (p.definitions.map Function.name).Nodup

namespace Image

variable {S : Setting} {p : Parts} (I : Image S p) {f : Function} {s : State} {σ σ' : Stack}
  {x : Name} {w : Word}

theorem cell_bounds (hx : x ∈ p.globals) : firstCell ≤ I.cell x ∧ I.cell x < S.base := by
  obtain ⟨k, hk, hcell⟩ := I.layout.cell x hx
  obtain ⟨hlt, -⟩ := List.getElem?_eq_some_iff.mp hk
  have hle := I.globals_le
  omega

theorem cell_inj {y : Name} (hx : x ∈ p.globals) (hy : y ∈ p.globals) (h : I.cell x = I.cell y) :
    x = y := by
  obtain ⟨k, hk, hcell⟩ := I.layout.cell x hx
  obtain ⟨j, hj, hcell'⟩ := I.layout.cell y hy
  obtain rfl : k = j := by omega
  exact Option.some.inj (hk.symm.trans hj)

/-- The globals are what their cells hold. -/
def HoldsGlobals (globals : Vars) (σ : Stack) : Prop :=
  ∀ x, globals x = if x ∈ p.globals then some (σ.cell (I.cell x)) else none

variable {I} in
theorem HoldsGlobals.of_cell {globals : Vars} (h : I.HoldsGlobals globals σ)
    (hcell : ∀ i, i < S.base → σ'.cell i = σ.cell i) : I.HoldsGlobals globals σ' := by
  intro x
  rw [h x]
  refine ite_congr rfl (fun hx => ?_) fun _ => rfl
  rw [hcell _ (I.cell_bounds hx).2]

/-- The variables of a function that runs, and the globals, are what their cells hold. -/
structure Holds (f : Function) (s : State) (σ : Stack) : Prop where
  base_le : S.base ≤ σ.sp
  sp_le : σ.sp ≤ σ.bp - f.locals.length
  bp_lt : σ.bp + f.params.length + 1 < S.top
  own : ∀ x, s.locals x = (f.offset x).map fun o => σ.cell (σ.bp + o)
  globals : I.HoldsGlobals s.globals σ

/-- The cell of a variable that a function sees. -/
def cellOf (f : Function) (bp : Int) (x : Name) : Int :=
  match f.offset x with
  | some o => bp + o
  | none => I.cell x

/-- Whether a function sees a variable of the name. -/
def Sees (p : Parts) (f : Function) (x : Name) : Prop := f.offset x ≠ none ∨ x ∈ p.globals

namespace Holds

variable {I}

theorem bp_lt_top (h : I.Holds f s σ) : σ.bp + 1 < S.top := by
  have hbp := h.bp_lt
  omega

theorem sp_lt (h : I.Holds f s σ) : σ.sp < S.top := by
  have hsp := h.sp_le
  have hbp := h.bp_lt
  omega

/-- Only the cells of variables matter. -/
theorem of_cell (h : I.Holds f s σ) (hbp : σ'.bp = σ.bp) (hbase : S.base ≤ σ'.sp)
    (hsp : σ'.sp ≤ σ.bp - f.locals.length)
    (hcell : ∀ i, i < S.base ∨ σ.bp - f.locals.length ≤ i → σ'.cell i = σ.cell i) :
    I.Holds f s σ' where
  base_le := hbase
  sp_le := hbp ▸ hsp
  bp_lt := hbp ▸ h.bp_lt
  own := by
    intro y
    rw [h.own y]
    refine Option.map_congr fun o ho => ?_
    have hbounds := Function.offset_bounds ho
    rw [hbp, hcell]
    omega
  globals := h.globals.of_cell fun i hi => hcell i (.inl hi)

theorem push (h : I.Holds f s σ) (hroom : S.base ≤ σ.sp - 1) (w : Word) :
    I.Holds f s (σ.push w) := by
  have hsp := h.sp_le
  exact h.of_cell rfl hroom (show σ.sp - 1 ≤ _ by omega) fun i hi =>
    Stack.cell_push_of_ne (by omega)

theorem drop {s₀ : State} {words : List Word} (h : I.Holds f s σ') (h₀ : I.Holds f s₀ σ)
    (hpushed : Pushed f σ words σ') : I.Holds f s (σ'.drop words.length) := by
  have hbase := h.base_le
  have hsp := h₀.sp_le
  have hsp' := hpushed.sp
  have hbp := hpushed.bp
  exact h.of_cell rfl (show S.base ≤ σ'.sp + words.length by omega)
    (show σ'.sp + words.length ≤ _ by omega) fun _ _ => rfl

theorem cellOf_bounds (h : I.Holds f s σ) (hx : Sees p f x) :
    firstCell ≤ I.cellOf f σ.bp x ∧ I.cellOf f σ.bp x < S.top := by
  have hbase := h.base_le
  have hsp := h.sp_le
  have hbp := h.bp_lt
  have hfirst := S.first_le
  unfold cellOf
  cases ho : f.offset x with
  | some o =>
    have hbounds := Function.offset_bounds ho
    show firstCell ≤ σ.bp + o ∧ σ.bp + o < S.top
    omega
  | none =>
    have hbounds := I.cell_bounds (hx.resolve_left (not_not_intro ho))
    show firstCell ≤ I.cell x ∧ I.cell x < S.top
    omega

theorem read_eq (h : I.Holds f s σ) (hx : Sees p f x) :
    read x s = .ok (σ.cell (I.cellOf f σ.bp x), s) := by
  unfold read cellOf
  rw [h.own x, h.globals x]
  cases ho : f.offset x with
  | some o => rfl
  | none => rw [if_pos (hx.resolve_left (not_not_intro ho))]; rfl

theorem read_stuck (h : I.Holds f s σ) (hx : ¬ Sees p f x) : read x s = .error .stuck := by
  obtain ⟨ho, hglobal⟩ := not_or.mp hx
  unfold read
  rw [h.own x, h.globals x, not_not.mp ho, if_neg hglobal]
  rfl

theorem write_stuck (h : I.Holds f s σ) (hx : ¬ Sees p f x) (w : Word) :
    write x w s = .error .stuck := by
  obtain ⟨ho, hglobal⟩ := not_or.mp hx
  unfold write
  rw [h.own x, h.globals x, not_not.mp ho, if_neg hglobal]
  rfl

theorem write_eq (h : I.Holds f s σ) (hx : Sees p f x) (w : Word) :
    ∃ s', write x w s = .ok ((), s') ∧ I.Holds f s' (σ.set (I.cellOf f σ.bp x) w) := by
  have hbase := h.base_le
  have hsp := h.sp_le
  unfold write cellOf
  rw [h.own x, h.globals x]
  cases ho : f.offset x with
  | some o =>
    have hbounds := Function.offset_bounds ho
    refine ⟨_, rfl, hbase, hsp, h.bp_lt, fun y => ?_, fun y => ?_⟩
    · show Function.update s.locals x (some w) y =
        (f.offset y).map fun o' => Function.update σ.cell (σ.bp + o) w (σ.bp + o')
      by_cases hy : y = x
      · rw [hy, Function.update_self, ho, Option.map_some, Function.update_self]
      · rw [Function.update_of_ne hy, h.own y]
        refine Option.map_congr fun o' ho' => (Function.update_of_ne (fun heq => hy ?_) _ _).symm
        exact Function.offset_inj ho' (by rw [ho]; congr 1; omega)
    · show s.globals y = if y ∈ p.globals then
        some (Function.update σ.cell (σ.bp + o) w (I.cell y)) else none
      rw [h.globals y]
      refine ite_congr rfl (fun hy => ?_) fun _ => rfl
      have hcell := I.cell_bounds hy
      rw [Function.update_of_ne (by omega)]
  | none =>
    have hmem := hx.resolve_left (not_not_intro ho)
    have hcell := I.cell_bounds hmem
    rw [if_pos hmem]
    refine ⟨_, rfl, hbase, hsp, h.bp_lt, fun y => ?_, fun y => ?_⟩
    · show s.locals y = (f.offset y).map fun o' => Function.update σ.cell (I.cell x) w (σ.bp + o')
      rw [h.own y]
      refine Option.map_congr fun o' ho' => (Function.update_of_ne ?_ _ _).symm
      have hbounds := Function.offset_bounds ho'
      omega
    · show Function.update s.globals x (some w) y = if y ∈ p.globals then
        some (Function.update σ.cell (I.cell x) w (I.cell y)) else none
      by_cases hy : y = x
      · rw [hy, Function.update_self, if_pos hmem, Function.update_self]
      · rw [Function.update_of_ne hy, h.globals y]
        refine ite_congr rfl (fun hy' => ?_) fun _ => rfl
        rw [Function.update_of_ne fun heq => hy (I.cell_inj hy' hmem heq)]

end Holds

end Image

end Source

end MiniC
