import MiniC.Proofs.Source.Arithmetic
import MiniC.Proofs.Source.Frames

/-!
# Compiled code does what the program means

For every construct, a view from which its code runs leads to the views that fit its evaluation.
This follows by induction on trees, for loops by induction on the number of passes, and for calls by
induction on the fuel that bounds their nesting.
-/

namespace MiniC

/-! ## Views that a computation leads to -/

namespace Setting

/-- The view ends well if those do that fit the result. A division by zero must be allowed for that,
and nothing is said where there is no result. -/
def Leads (S : Setting) {α : Type} (r : Except Source.Failure α) (post : α → View → Prop)
    (v : View) : Prop :=
  match r with
  | .ok a => (∀ v', post a v' → S.Ends v') → S.Ends v
  | .error .divisionByZero => (∀ i, S.allowed (.faulted (.divisionByZero i))) → S.Ends v
  | .error _ => True

namespace Leads

variable {S : Setting} {α β : Type} {r : Except Source.Failure α} {post post' : α → View → Prop}
  {v v' : View} {a : α}

theorem ok (h : post a v) : S.Leads (.ok a) post v := fun hpost => hpost v h

theorem stuck : S.Leads (.error .stuck) post v := trivial

/-- A condition under which the next view is reached. -/
theorem guard {P : Prop} (hstep : (P → S.Ends v') → S.Ends v) (h : P → S.Leads r post v') :
    S.Leads r post v := by
  rcases r with (_ | _ | _) | a
  · exact fun hallowed => hstep fun hp => h hp hallowed
  · trivial
  · trivial
  · exact fun hpost => hstep fun hp => h hp hpost

theorem step (hstep : S.Ends v' → S.Ends v) (h : S.Leads r post v') : S.Leads r post v :=
  guard (P := True) (fun h => hstep (h trivial)) fun _ => h

theorem bind {k : α → Except Source.Failure β} {post' : β → View → Prop} (h : S.Leads r post v)
    (hk : ∀ a v', post a v' → S.Leads (k a) post' v') : S.Leads (r >>= k) post' v := by
  rcases r with (_ | _ | _) | a
  · exact h
  · trivial
  · trivial
  · show S.Leads (k a) post' v
    have hk := hk a
    generalize k a = r' at hk ⊢
    rcases r' with (_ | _ | _) | b
    · exact fun hallowed => h fun v' hv' => hk v' hv' hallowed
    · trivial
    · trivial
    · exact fun hpost => h fun v' hv' => hk v' hv' hpost

/-- Further steps behind a result. -/
theorem after (h : S.Leads r post v) (hpost : ∀ a v', post a v' → S.Leads (.ok a) post' v') :
    S.Leads r post' v := by
  have hbind := h.bind hpost
  rwa [show r >>= Except.ok = r from bind_pure r] at hbind

theorem mono (h : S.Leads r post v) (hpost : ∀ a v', post a v' → post' a v') :
    S.Leads r post' v :=
  h.after fun a v' hv' => .ok (hpost a v' hv')

end Leads

end Setting

namespace Source

open Setting

namespace Image

variable {S : Setting} {p : Parts} {I : Image S p} {f : Function} {s s₀ : State} {σ σ₁ : Stack}
  {x : Name} {w acc : Word} {pc : Nat} {α : Type} {r : Except Failure α} {post : α → View → Prop}

/-! ## Variables -/

/-- The address of a variable that is seen. -/
theorem leads_address (hf : f ∈ p.definitions) (hname : x ∈ Stmt.namesAll f.body)
    (hx : Sees p f x) (hi : S.loaded.code.toList[pc]? = some ((I.env f).address x))
    (h : S.Leads r post ⟨addr (I.cellOf f σ.bp x), pc + 1, σ⟩) : S.Leads r post ⟨acc, pc, σ⟩ := by
  unfold cellOf at h
  cases ho : f.offset x with
  | some o =>
    have hbounds := Function.offset_bounds ho
    have hsmall := I.small f hf
    have hoffset : (Int64.ofInt o).toInt = o := by
      rw [Int64.toInt_ofInt]
      exact Int.bmod_eq_of_le (by simp only [Int64.size]; omega) (by simp only [Int64.size]; omega)
    rw [I.layout.own f hf x o ho] at hi
    rw [ho, ← hoffset] at h
    exact .step (.lea hi) h
  | none =>
    rw [I.layout.global f hf x hname ho (hx.resolve_left (not_not_intro ho))] at hi
    rw [ho] at h
    exact .step (.imm hi) h

/-- Whatever a name stands for, its address is some word. -/
theorem leads_anyAddress (hi : S.loaded.code.toList[pc]? = some ((I.env f).address x))
    (h : ∀ w, S.Leads r post ⟨w, pc + 1, σ⟩) : S.Leads r post ⟨acc, pc, σ⟩ := by
  obtain ⟨w, haddress | haddress⟩ := I.layout.address f x
  · exact .step (.imm (haddress ▸ hi)) (h w)
  · exact .step (.lea (haddress ▸ hi)) (h _)

theorem Holds.leads_push (h : I.Holds f s σ) (hi : S.loaded.code.toList[pc]? = some .push)
    (hk : I.Holds f s (σ.push acc) → Pushed f σ [acc] (σ.push acc) →
      S.Leads r post ⟨acc, pc + 1, σ.push acc⟩) : S.Leads r post ⟨acc, pc, σ⟩ :=
  .guard (.push hi h.base_le h.sp_lt.le) fun hroom => hk (h.push hroom acc) (.push f σ acc)

/-! ## Operations -/

/-- The value is in the accumulator, and the variables are as they are behind the evaluation. -/
def Valued (I : Image S p) (f : Function) (σ : Stack) (pc : Nat) (r : Word × State) (v : View) :
    Prop :=
  ∃ σ', v = ⟨r.1, pc, σ'⟩ ∧ I.Holds f r.2 σ' ∧ Pushed f σ [] σ'

/-- What is pushed behind nothing else. -/
theorem Holds.pushed_one {w : Word} {σ₂ σ₃ : Stack} (h : I.Holds f s₀ σ) (h₁ : Pushed f σ [] σ₁)
    (h₂ : Pushed f σ₁ [w] σ₂) (h₃ : Pushed f σ₂ [] σ₃) : Pushed f σ [w] σ₃ := by
  have h₁₂ := h₁.trans h.sp_le h₂
  exact h₁₂.trans h.sp_le h₃

/-- A binary operation on a word on the stack and the accumulator. -/
theorem Holds.leads_binary {op : BinOp} {a b : Word} (h₀ : I.Holds f s₀ σ) (h : I.Holds f s σ₁)
    (hpushed : Pushed f σ [a] σ₁) (hi : S.loaded.code.toList[pc]? = some (.binary op)) :
    S.Leads (applyBinary op a b >>= fun w => .ok (w, s)) (I.Valued f σ (pc + 1)) ⟨b, pc, σ₁⟩ := by
  have hsp : firstCell ≤ σ₁.sp := S.first_le.trans h.base_le
  rw [applyBinary_eq]
  by_cases hzero : op.divides = true ∧ b = 0
  · rw [if_pos hzero]
    exact fun hallowed =>
      .binary hi hsp h.sp_lt (fun _ => hallowed pc) fun hnot => absurd hzero hnot
  · rw [if_neg hzero]
    refine .step (.binary hi hsp h.sp_lt (fun hyes => absurd hyes hzero) fun _ => ·) ?_
    rw [hpushed.top]
    exact .ok ⟨σ₁.drop 1, rfl, h.drop h₀ hpushed, hpushed.drop⟩

/-- An operation, other than a division, on the accumulator and a constant. -/
theorem Holds.leads_apply {op : BinOp} {a c : Word} (h : I.Holds f s σ) (hop : op.divides = false)
    (hcode : CodeAt S.loaded.code.toList pc [.push, .imm c, .binary op])
    (hk : ∀ σ', I.Holds f s σ' → Pushed f σ [] σ' → S.Leads r post ⟨op.apply a c, pc + 3, σ'⟩) :
    S.Leads r post ⟨a, pc, σ⟩ := by
  obtain ⟨hpush, hcode⟩ := hcode.cons
  obtain ⟨himm, hcode⟩ := hcode.cons
  refine h.leads_push hpush fun h₁ hp₁ => .step (.imm himm) ?_
  refine .step (.binary hcode.cons.1 (S.first_le.trans h₁.base_le) h₁.sp_lt
    (fun hyes => absurd hyes.1 (hop ▸ Bool.false_ne_true)) fun _ => ·) ?_
  rw [hp₁.top]
  exact hk _ (h₁.drop h hp₁) hp₁.drop

/-- A store to a variable whose address is on the stack. -/
theorem Holds.leads_write {k : Unit × State → Except Failure α} (h₀ : I.Holds f s₀ σ)
    (h : I.Holds f s σ₁) (hx : Sees p f x)
    (hpushed : Pushed f σ [addr (I.cellOf f σ.bp x)] σ₁)
    (hi : S.loaded.code.toList[pc]? = some (.store .word))
    (hk : ∀ s' σ', I.Holds f s' σ' → Pushed f σ [] σ' → S.Leads (k ((), s')) post ⟨w, pc + 1, σ'⟩) :
    S.Leads (write x w s >>= k) post ⟨w, pc, σ₁⟩ := by
  have hdrop : I.Holds f s (σ₁.drop 1) := h.drop h₀ hpushed
  obtain ⟨s', hwrite, hs'⟩ := hdrop.write_eq hx w
  obtain ⟨hfirst, htop⟩ := h₀.cellOf_bounds hx
  have hbp : (σ₁.drop 1).bp = σ.bp := hpushed.bp
  rw [hbp] at hs'
  rw [hwrite]
  refine .step (.store hi (S.first_le.trans h.base_le) h.sp_lt hpushed.top hfirst htop)
    (hk s' _ hs' (hpushed.drop.set h₀.sp_le w ?_))
  unfold cellOf
  cases ho : f.offset x with
  | some o => exact .inl ⟨x, o, ho, rfl⟩
  | none =>
    refine .inr (Int.lt_of_lt_of_le ?_ hdrop.base_le)
    exact (I.cell_bounds (hx.resolve_left (not_not_intro ho))).2

theorem leads_var (hf : f ∈ p.definitions) (hname : x ∈ Stmt.namesAll f.body) (h : I.Holds f s σ)
    (hcode : CodeAt S.loaded.code.toList pc [(I.env f).address x, .load .word]) :
    S.Leads (read x s) (I.Valued f σ (pc + 2)) ⟨acc, pc, σ⟩ := by
  by_cases hx : Sees p f x
  · obtain ⟨hfirst, htop⟩ := h.cellOf_bounds hx
    obtain ⟨haddress, hcode⟩ := hcode.cons
    rw [h.read_eq hx]
    refine leads_address hf hname hx haddress ?_
    exact .step (.load hcode.cons.1 hfirst htop) (.ok ⟨σ, rfl, h, .refl f σ⟩)
  · rw [h.read_stuck hx]
    exact .stuck

/-- A step of a variable, which leaves the new value in the accumulator. -/
theorem leads_step {step : Step} {k : Word → State → Except Failure α} (hf : f ∈ p.definitions)
    (hname : x ∈ Stmt.namesAll f.body) (h : I.Holds f s σ)
    (hcode : CodeAt S.loaded.code.toList pc ((I.env f).address x :: step.code))
    (hk : ∀ v s' σ', I.Holds f s' σ' → Pushed f σ [] σ' →
      S.Leads (k v s') post ⟨wrap (v.toInt + step.amount), pc + 7, σ'⟩) :
    S.Leads (read x s >>= fun r =>
      write x (wrap (r.1.toInt + step.amount)) r.2 >>= fun u => k r.1 u.2) post ⟨acc, pc, σ⟩ := by
  by_cases hx : Sees p f x
  · obtain ⟨haddress, hcode⟩ := hcode.cons
    obtain ⟨hpush, hcode⟩ := hcode.cons
    obtain ⟨hload, hcode⟩ := hcode.cons
    have hcode : CodeAt S.loaded.code.toList (pc + 3)
      ([.push, .imm 1, .binary step.op] ++ [.store .word]) := hcode
    obtain ⟨hadd, hcode⟩ := hcode.append
    rw [h.read_eq hx]
    refine leads_address hf hname hx haddress ?_
    refine h.leads_push hpush fun h₁ hp₁ => ?_
    -- The push of the address has left the variable as it was.
    have hvalue : (σ.push _).cell (I.cellOf f σ.bp x) = σ.cell (I.cellOf f σ.bp x) :=
      (Prod.mk.inj (Except.ok.inj ((h₁.read_eq hx).symm.trans (h.read_eq hx)))).1
    obtain ⟨hfirst, htop⟩ := h₁.cellOf_bounds hx
    refine .step (.load hload hfirst htop) ?_
    rw [hvalue]
    refine h₁.leads_apply step.divides_op hadd fun σ₂ h₂ hp₂ => ?_
    rw [step.op_eq]
    exact h.leads_write h₂ hx (hp₁.trans h.sp_le hp₂) hcode.cons.1
      fun s' σ' h' hp' => hk _ s' σ' h' hp'
  · rw [h.read_stuck hx]
    exact .stuck

/-! ## Expressions -/

/-- The code of an expression in a function leads to what the evaluation yields. -/
def Runs (I : Image S p) (calls : Calls) (f : Function) (e : Expr) : Prop :=
  e.names ⊆ Stmt.namesAll f.body → ∀ {acc : Word} {pc stop : Nat} {s : State} {σ : Stack},
    CodeAt S.loaded.code.toList pc (e.code (I.env f) pc) →
    pc + (e.code (I.env f) pc).length = stop → I.Holds f s σ →
    S.Leads (e.eval calls s) (I.Valued f σ stop) ⟨acc, pc, σ⟩

theorem Valued.trans {r : Word × State} {v : View} (h : I.Holds f s₀ σ) (hpushed : Pushed f σ [] σ₁)
    (hv : I.Valued f σ₁ pc r v) : I.Valued f σ pc r v := by
  obtain ⟨σ', rfl, h', hp'⟩ := hv
  exact ⟨σ', rfl, h', hpushed.trans h.sp_le hp'⟩

/-- Branches lead to where they should, since the code is not that long. -/
theorem toNat_ofNat {n : Nat} (I : Image S p) (h : n ≤ S.loaded.code.toList.length) :
    (UInt64.ofNat n).toNat = n := by
  have hlt := I.code_lt
  rw [Array.length_toList] at h
  exact UInt64.toNat_ofNat_of_lt' (by rw [UInt64.size]; omega)

/-- A condition, with code for both outcomes. -/
theorem leads_test {calls : Calls} {test : Expr} {yes no : Eval α} {v : View} {first second : Nat}
    {post : α × State → View → Prop}
    (htest : S.Leads (test.eval calls s) (I.Valued f σ first) v)
    (hbranch : S.loaded.code.toList[first]? = some (.branch .ifZero (UInt64.ofNat second)))
    (hsecond : second ≤ S.loaded.code.toList.length)
    (hyes : ∀ a s₁ σ₁, I.Holds f s₁ σ₁ → Pushed f σ [] σ₁ →
      S.Leads (yes s₁) post ⟨a, first + 1, σ₁⟩)
    (hno : ∀ a s₁ σ₁, I.Holds f s₁ σ₁ → Pushed f σ [] σ₁ → S.Leads (no s₁) post ⟨a, second, σ₁⟩) :
    S.Leads ((do
      let a ← test.eval calls
      if a = 0 then no else yes : Eval α) s) post v := by
  refine Leads.bind (k := fun r => (if r.1 = 0 then no else yes : Eval α) r.2) htest ?_
  rintro ⟨a, s₁⟩ _ ⟨σ₁, rfl, h₁, hp₁⟩
  show S.Leads ((if a = 0 then no else yes : Eval α) s₁) _ _
  by_cases hzero : a = 0
  · rw [if_pos hzero]
    refine .step (.taken hbranch hzero) ?_
    rw [I.toNat_ofNat hsecond]
    exact hno a s₁ σ₁ h₁ hp₁
  · rw [if_neg hzero]
    exact .step (.passed hbranch hzero) (hyes a s₁ σ₁ h₁ hp₁)

section Expressions

variable {calls : Calls} {e l r test yes no : Expr} (hf : f ∈ p.definitions)

theorem runs_literal (n : Fin (2 ^ 63)) : I.Runs calls f (.literal n) := by
  intro _ acc pc stop s σ hcode hstop h
  obtain rfl : pc + 1 = stop := by simpa [Expr.code] using hstop
  rw [Expr.code] at hcode
  have hvalue : Word.ofNat n = wrap n := by rw [wrap, Int64.ofInt_eq_ofNat, Word.ofNat]
  rw [hvalue] at hcode
  exact .step (.imm hcode.cons.1) (.ok ⟨σ, rfl, h, .refl f σ⟩)

include hf

theorem runs_var (x : Name) : I.Runs calls f (.var x) := by
  intro hnames acc pc stop s σ hcode hstop h
  obtain rfl : pc + 2 = stop := by simpa [Expr.code] using hstop
  rw [Expr.code] at hcode
  exact leads_var hf (hnames (by simp [Expr.names])) h hcode

theorem runs_assign (he : I.Runs calls f e) : I.Runs calls f (.assign x e) := by
  intro hnames acc pc stop s σ hcode hstop h
  rw [Expr.names, List.cons_subset] at hnames
  simp only [Expr.code, List.cons_append, List.nil_append] at hcode
  obtain ⟨haddress, hcode⟩ := hcode.cons
  obtain ⟨hpush, hcode⟩ := hcode.cons
  obtain ⟨hvalue, hcode⟩ := hcode.append
  obtain rfl : pc + 1 + 1 + (e.code (I.env f) (pc + 2)).length + 1 = stop := by
    simp only [Expr.code, List.length_append, List.length_cons, List.length_nil] at hstop
    omega
  have heval : (Expr.assign x e).eval calls s =
      (e.eval calls s >>= fun r => write x r.1 r.2 >>= fun u => .ok (r.1, u.2)) := by
    rw [Expr.eval]
    rfl
  rw [heval]
  by_cases hx : Sees p f x
  · refine leads_address hf hnames.1 hx haddress ?_
    refine h.leads_push hpush fun h₁ hp₁ => ?_
    refine .bind (he hnames.2 hvalue rfl h₁) ?_
    rintro ⟨w, s₂⟩ _ ⟨σ₂, rfl, h₂, hp₂⟩
    exact h.leads_write h₂ hx (hp₁.trans h.sp_le hp₂) hcode.cons.1 fun s' σ' h' hp' =>
      .ok ⟨σ', rfl, h', hp'⟩
  -- Where there is no such variable, the value is evaluated all the same.
  · refine leads_anyAddress haddress fun w => ?_
    refine h.leads_push hpush fun h₁ hp₁ => ?_
    refine .bind (he hnames.2 hvalue rfl h₁) ?_
    rintro ⟨w, s₂⟩ _ ⟨σ₂, rfl, h₂, hp₂⟩
    show S.Leads (write x w s₂ >>= _) _ _
    rw [h₂.write_stuck hx]
    exact .stuck

theorem runs_preStep (step : Step) (x : Name) : I.Runs calls f (.preStep step x) := by
  intro hnames acc pc stop s σ hcode hstop h
  obtain rfl : pc + 7 = stop := by simpa [Expr.code, Step.code] using hstop
  rw [Expr.code] at hcode
  rw [Expr.eval]
  exact leads_step (k := fun v s' => .ok (wrap (v.toInt + step.amount), s')) hf
    (hnames (by simp [Expr.names])) h hcode fun v s' σ' h' hp' => .ok ⟨σ', rfl, h', hp'⟩

theorem runs_postStep (step : Step) (x : Name) : I.Runs calls f (.postStep step x) := by
  intro hnames acc pc stop s σ hcode hstop h
  obtain rfl : pc + 10 = stop := by simpa [Expr.code, Step.code] using hstop
  rw [Expr.code] at hcode
  obtain ⟨hstep, hundo⟩ := hcode.append
  rw [Expr.eval]
  refine leads_step (k := fun v s' => .ok (v, s')) hf (hnames (by simp [Expr.names])) h hstep
    fun v s' σ' h' hp' => ?_
  refine h'.leads_apply step.divides_undo hundo fun σ₁ h₁ hp₁ => ?_
  rw [step.undo_eq]
  exact .ok ⟨σ₁, rfl, h₁, hp'.trans h.sp_le hp₁⟩

omit hf in
/-- An operation on the value of an expression and a constant. -/
theorem leads_constant {op : BinOp} {c : Word} {g : Word → Word} (he : I.Runs calls f e)
    (hop : op.divides = false) (hg : ∀ a, g a = op.apply a c)
    (hnames : e.names ⊆ Stmt.namesAll f.body)
    (hcode : CodeAt S.loaded.code.toList pc (e.code (I.env f) pc ++ [.push, .imm c, .binary op]))
    (h : I.Holds f s σ) :
    S.Leads (e.eval calls s >>= fun r => .ok (g r.1, r.2))
      (I.Valued f σ (pc + (e.code (I.env f) pc).length + 3)) ⟨acc, pc, σ⟩ := by
  obtain ⟨hvalue, happly⟩ := hcode.append
  refine .bind (he hnames hvalue rfl h) ?_
  rintro ⟨a, s₁⟩ _ ⟨σ₁, rfl, h₁, hp₁⟩
  refine h₁.leads_apply hop happly fun σ₂ h₂ hp₂ => ?_
  rw [← hg]
  exact .ok ⟨σ₂, rfl, h₂, hp₁.trans h.sp_le hp₂⟩

omit hf in
theorem runs_unary {op : UnaryOp} (he : I.Runs calls f e) : I.Runs calls f (.unary op e) := by
  intro hnames acc pc stop s σ hcode hstop h
  have heval : (Expr.unary op e).eval calls s =
      (e.eval calls s >>= fun r => .ok (op.apply r.1, r.2)) := by
    rw [Expr.eval]
    rfl
  rw [heval]
  cases op with
  | not =>
    obtain rfl : pc + (e.code (I.env f) pc).length + 3 = stop := by
      simpa [Expr.code, Nat.add_assoc] using hstop
    exact leads_constant he rfl UnaryOp.not_eq hnames (by simpa only [Expr.code] using hcode) h
  | complement =>
    obtain rfl : pc + (e.code (I.env f) pc).length + 3 = stop := by
      simpa [Expr.code, Nat.add_assoc] using hstop
    exact leads_constant he rfl UnaryOp.complement_eq hnames (by simpa only [Expr.code] using hcode)
      h
  | negate =>
    by_cases hliteral : ∃ n, e = .literal n
    · obtain ⟨n, rfl⟩ := hliteral
      obtain rfl : pc + 1 = stop := by simpa [Expr.code] using hstop
      rw [Expr.code, ← UnaryOp.negate_ofNat] at hcode
      rw [Expr.eval]
      exact .step (.imm hcode.cons.1) (.ok ⟨σ, rfl, h, .refl f σ⟩)
    · have hne : ∀ n, e ≠ .literal n := fun n hn => hliteral ⟨n, hn⟩
      rw [Expr.code_negate hne] at hcode hstop
      simp only [List.cons_append, List.nil_append] at hcode
      obtain ⟨himm, hcode⟩ := hcode.cons
      obtain ⟨hpush, hcode⟩ := hcode.cons
      obtain ⟨hvalue, hcode⟩ := hcode.append
      obtain rfl : pc + 1 + 1 + (e.code (I.env f) (pc + 2)).length + 1 = stop := by
        simp only [List.length_append, List.length_cons, List.length_nil] at hstop
        omega
      refine .step (.imm himm) (h.leads_push hpush fun h₁ hp₁ => ?_)
      refine .bind (he hnames hvalue rfl h₁) ?_
      rintro ⟨a, s₂⟩ _ ⟨σ₂, rfl, h₂, hp₂⟩
      have hleads := h.leads_binary h₂ (hp₁.trans h.sp_le hp₂) (b := a) hcode.cons.1
      rwa [applyBinary_eq, if_neg fun h => absurd h.1 (by decide), ← UnaryOp.negate_eq] at hleads

omit hf in
theorem runs_binary {op : BinOp} (hl : I.Runs calls f l) (hr : I.Runs calls f r) :
    I.Runs calls f (.binary op l r) := by
  intro hnames acc pc stop s σ hcode hstop h
  rw [Expr.names, List.append_subset] at hnames
  simp only [Expr.code, List.append_assoc, List.cons_append, List.nil_append] at hcode
  obtain ⟨hleft, hcode⟩ := hcode.append
  obtain ⟨hpush, hcode⟩ := hcode.cons
  obtain ⟨hright, hcode⟩ := hcode.append
  simp only [Expr.code, List.length_append, List.length_cons, List.length_nil] at hstop
  have heval : (Expr.binary op l r).eval calls s =
      (l.eval calls s >>= fun r₁ => r.eval calls r₁.2 >>= fun r₂ =>
        applyBinary op r₁.1 r₂.1 >>= fun w => .ok (w, r₂.2)) := by
    rw [Expr.eval]
    rfl
  rw [heval]
  refine .bind (hl hnames.1 hleft rfl h) ?_
  rintro ⟨a, s₁⟩ _ ⟨σ₁, rfl, h₁, hp₁⟩
  refine h₁.leads_push hpush fun h₂ hp₂ => ?_
  refine .bind (hr hnames.2 hright rfl h₂) ?_
  rintro ⟨b, s₃⟩ _ ⟨σ₃, rfl, h₃, hp₃⟩
  have hleads := h.leads_binary h₃ (h.pushed_one hp₁ hp₂ hp₃) (b := b) hcode.cons.1
  rwa [show _ + 1 = stop by omega] at hleads

omit hf in
theorem runs_logic {op : LogicOp} (hl : I.Runs calls f l) (hr : I.Runs calls f r) :
    I.Runs calls f (.logic op l r) := by
  intro hnames acc pc stop s σ hcode hstop h
  rw [Expr.names, List.append_subset] at hnames
  have hle := hcode.le_length
  simp only [Expr.code, List.append_assoc, List.cons_append, List.nil_append] at hcode
  obtain ⟨hleft, hcode⟩ := hcode.append
  obtain ⟨hbranch, hcode⟩ := hcode.cons
  simp only [Expr.code, List.length_append, List.length_cons, List.length_nil] at hstop hle
  have heval : (Expr.logic op l r).eval calls s =
      (l.eval calls s >>= fun r₁ =>
        if op.branch.Taken r₁.1 then .ok r₁ else r.eval calls r₁.2) := by
    rw [Expr.eval]
    refine congrArg (Bind.bind (l.eval calls s)) (funext fun r₁ => ?_)
    obtain ⟨a, s₁⟩ := r₁
    cases op with
    | and =>
      show (if a = 0 then pure a else r.eval calls : Eval Word) s₁ = if a = 0 then _ else _
      split <;> rfl
    | or =>
      show (if a = 0 then r.eval calls else pure a : Eval Word) s₁ = if ¬ a = 0 then _ else _
      split <;> rfl
  rw [heval]
  refine .bind (hl hnames.1 hleft rfl h) ?_
  rintro ⟨a, s₁⟩ _ ⟨σ₁, rfl, h₁, hp₁⟩
  by_cases htaken : op.branch.Taken a
  · show S.Leads (if op.branch.Taken a then _ else _) _ _
    rw [if_pos htaken]
    refine .step (.taken hbranch htaken) ?_
    rw [I.toNat_ofNat (by omega), show _ + _ = stop by omega]
    exact .ok ⟨σ₁, rfl, h₁, hp₁⟩
  · show S.Leads (if op.branch.Taken a then _ else _) _ _
    rw [if_neg htaken]
    refine .step (.passed hbranch htaken) ?_
    exact (hr hnames.2 hcode (by omega) h₁).mono fun r v hv => hv.trans h hp₁

omit hf in
theorem runs_cond (htest : I.Runs calls f test) (hyes : I.Runs calls f yes)
    (hno : I.Runs calls f no) : I.Runs calls f (.cond test yes no) := by
  intro hnames acc pc stop s σ hcode hstop h
  rw [Expr.names, List.append_subset, List.append_subset] at hnames
  have hle := hcode.le_length
  simp only [Expr.code, List.append_assoc, List.cons_append, List.nil_append] at hcode
  obtain ⟨hfirst, hcode⟩ := hcode.append
  obtain ⟨hbranch, hcode⟩ := hcode.cons
  obtain ⟨hsecond, hcode⟩ := hcode.append
  obtain ⟨hjump, hthird⟩ := hcode.cons
  simp only [Expr.code, List.length_append, List.length_cons, List.length_nil] at hstop hle
  rw [Expr.eval]
  refine leads_test (htest hnames.1.1 hfirst rfl h) hbranch (by omega)
    (fun a s₁ σ₁ h₁ hp₁ => ?_) fun a s₁ σ₁ h₁ hp₁ => ?_
  · refine .after (hyes hnames.1.2 hsecond rfl h₁) ?_
    rintro ⟨b, s₂⟩ _ ⟨σ₂, rfl, h₂, hp₂⟩
    refine .step (.taken hjump trivial) ?_
    rw [I.toNat_ofNat (by omega), show _ + _ = stop by omega]
    exact .ok ⟨σ₂, rfl, h₂, hp₁.trans h.sp_le hp₂⟩
  · exact (hno hnames.2 hthird (by omega) h₁).mono fun r v hv => hv.trans h hp₁

end Expressions

/-! ## Calls -/

/-- A function has returned to its caller, whose stack is as it was from behind the arguments on. -/
def Returned (I : Image S p) (σ : Stack) (count pc : Nat) (r : Word × Vars) (v : View) : Prop :=
  ∃ σ', v = ⟨r.1, pc, σ'⟩ ∧ σ'.sp = σ.sp ∧ σ'.bp = σ.bp ∧ I.HoldsGlobals r.2 σ' ∧
    ∀ i, σ.sp + count ≤ i → σ'.cell i = σ.cell i

/-- Calls of functions, with the arguments on the stack, lead to what calls mean. -/
structure Answers (I : Image S p) (calls : Calls) : Prop where
  unknown : ∀ (g : Name) (args : List Word) (globals : Vars),
    (∀ h ∈ p.definitions, h.name ≠ g) → ∃ e, e ≠ .divisionByZero ∧ calls g args globals = .error e
  known : ∀ g ∈ p.definitions, ∀ {args : List Word} {globals : Vars} {acc : Word} {pc : Nat}
    {σ : Stack}, S.loaded.code.toList[pc]? = some (.call (UInt64.ofNat (I.start g))) →
    S.base ≤ σ.sp → σ.sp + args.length ≤ S.top →
    (∀ (k : Nat) (w : Word), args[k]? = some w → σ.cell (σ.sp + args.length - 1 - k) = w) →
    I.HoldsGlobals globals σ →
    S.Leads (calls g.name args globals) (I.Returned σ args.length (pc + 1)) ⟨acc, pc, σ⟩

section Calls

variable {calls : Calls} {args : List Expr}

theorem leads_drop {n : Nat} (hn : n < 2 ^ 63) (hcode : CodeAt S.loaded.code.toList pc (dropCode n))
    (h : S.Leads r post ⟨acc, pc + (dropCode n).length, σ.drop n⟩) :
    S.Leads r post ⟨acc, pc, σ⟩ := by
  unfold dropCode at hcode h
  split at hcode
  · rename_i hzero
    rw [if_pos hzero] at h
    simpa [hzero, Stack.drop] using h
  · rename_i hzero
    rw [if_neg hzero] at h
    refine .step (.adjust hcode.cons.1) ?_
    rw [Word.toInt_ofNat hn]
    exact h

theorem runs_args (hargs : ∀ e ∈ args, I.Runs calls f e)
    (hnames : Expr.namesArgs args ⊆ Stmt.namesAll f.body) :
    ∀ {acc : Word} {pc : Nat} {s : State} {σ : Stack},
      CodeAt S.loaded.code.toList pc (Expr.codeArgs (I.env f) pc args) → I.Holds f s σ →
      S.Leads (Expr.evalArgs calls args s)
        (fun r v => ∃ acc' σ', v = ⟨acc', pc + (Expr.codeArgs (I.env f) pc args).length, σ'⟩ ∧
          r.1.length = args.length ∧ I.Holds f r.2 σ' ∧ Pushed f σ r.1 σ') ⟨acc, pc, σ⟩ := by
  induction args with
  | nil =>
    intro acc pc s σ _ h
    rw [Expr.evalArgs]
    exact .ok ⟨acc, σ, rfl, rfl, h, .refl f σ⟩
  | cons e args ih =>
    intro acc pc s σ hcode h
    rw [Expr.namesArgs, List.append_subset] at hnames
    simp only [Expr.codeArgs, List.append_assoc, List.cons_append, List.nil_append] at hcode
    obtain ⟨hfirst, hcode⟩ := hcode.append
    obtain ⟨hpush, hcode⟩ := hcode.cons
    have heval : Expr.evalArgs calls (e :: args) s =
        (e.eval calls s >>= fun r₁ => Expr.evalArgs calls args r₁.2 >>= fun r₂ =>
          .ok (r₁.1 :: r₂.1, r₂.2)) := by
      rw [Expr.evalArgs]
      rfl
    rw [heval]
    refine .bind (hargs e (by simp) hnames.1 hfirst rfl h) ?_
    rintro ⟨a, s₁⟩ _ ⟨σ₁, rfl, h₁, hp₁⟩
    refine h₁.leads_push hpush fun h₂ hp₂ => ?_
    refine .bind (ih (fun e he => hargs e (by simp [he])) hnames.2 hcode h₂) ?_
    rintro ⟨values, s₃⟩ _ ⟨acc', σ₃, rfl, hlength, h₃, hp₃⟩
    refine .ok ⟨acc', σ₃, ?_, congrArg (· + 1) hlength, h₃, ?_⟩
    · simp only [Expr.codeArgs, List.length_append, List.length_cons, List.length_nil]
      congr 1
      omega
    · exact (hp₁.trans h.sp_le hp₂).trans h.sp_le hp₃

/-- What a caller finds when a function has returned and the arguments are dropped. -/
theorem Returned.drop {values : List Word} {w : Word} {globals : Vars} {v : View}
    (h₀ : I.Holds f s₀ σ) (h : I.Holds f s σ₁) (hpushed : Pushed f σ values σ₁)
    (hv : I.Returned σ₁ values.length pc (w, globals) v) :
    ∃ σ', v = ⟨w, pc, σ'⟩ ∧ I.Holds f { s with globals } (σ'.drop values.length) ∧
      Pushed f σ [] (σ'.drop values.length) := by
  obtain ⟨σ', rfl, hsp', hbp', hglobals, hcell⟩ := hv
  have hbase := h.base_le
  have hframe := h₀.sp_le
  have hsp := hpushed.sp
  have hbp := hpushed.bp
  refine ⟨σ', rfl, ⟨?_, ?_, hbp' ▸ h.bp_lt, fun x => ?_, hglobals⟩, ?_, hbp'.trans hbp, by simp,
    fun i hi hown => ?_⟩
  · show S.base ≤ σ'.sp + values.length
    omega
  · show σ'.sp + values.length ≤ σ'.bp - f.locals.length
    omega
  · rw [h.own x]
    refine Option.map_congr fun o ho => ?_
    have hbounds := Function.offset_bounds ho
    show σ₁.cell (σ₁.bp + o) = σ'.cell (σ'.bp + o)
    rw [hbp', hcell]
    omega
  · show σ'.sp + values.length = σ.sp - 0
    omega
  · show σ'.cell i = σ.cell i
    rw [hcell i (by omega), hpushed.cell i hi hown]

theorem runs_call {g : Name} (hf : f ∈ p.definitions) (hcalls : I.Answers calls)
    (hargs : ∀ e ∈ args, I.Runs calls f e) : I.Runs calls f (.call g args) := by
  intro hnames acc pc stop s σ hcode hstop h
  rw [Expr.names, List.cons_subset] at hnames
  rw [Expr.code] at hcode hstop
  obtain ⟨hvalues, hcode⟩ := hcode.append
  obtain ⟨hcall, hdrop⟩ := hcode.cons
  have heval : (Expr.call g args).eval calls s =
      (Expr.evalArgs calls args s >>= fun r => invoke calls g r.1 r.2) := by
    rw [Expr.eval]
    rfl
  rw [heval]
  refine .bind (runs_args hargs hnames.2 hvalues h) ?_
  rintro ⟨values, s₁⟩ _ ⟨acc', σ₁, rfl, hlength, h₁, hp₁⟩
  dsimp only at hlength h₁ hp₁
  show S.Leads (invoke calls g values s₁) _ _
  unfold invoke
  rw [h₁.own g]
  cases ho : f.offset g with
  | some o => exact .stuck
  | none =>
    by_cases hknown : ∃ fn ∈ p.definitions, fn.name = g
    · obtain ⟨fn, hfn, rfl⟩ := hknown
      rw [I.layout.callee f hf fn hfn hnames.1 ho] at hcall
      have hsp := hp₁.sp
      have hbase := h₁.base_le
      have htop := h.sp_lt
      have hlimit := S.top_le
      have hbelow : 8192 ≤ S.base := S.first_le
      refine .bind (hcalls.known fn hfn hcall hbase (by omega) (fun k w hk => ?_) h₁.globals) ?_
      · rw [← hp₁.word k w hk]
        congr 1
        omega
      rintro ⟨w, globals⟩ _ hv
      obtain ⟨σ₂, rfl, h₂, hp₂⟩ := hv.drop h h₁ hp₁
      rw [hlength] at h₂ hp₂
      refine leads_drop (by omega) hdrop (.ok ⟨σ₂.drop args.length, ?_, h₂, hp₂⟩)
      simp only [List.length_append, List.length_cons] at hstop
      congr 1
      omega
    · obtain ⟨e, he, hcall⟩ := hcalls.unknown g values s₁.globals fun fn hfn hname =>
        hknown ⟨fn, hfn, hname⟩
      show S.Leads (calls g values s₁.globals >>= _) _ _
      rw [hcall]
      cases e with
      | divisionByZero => exact absurd rfl he
      | _ => trivial

theorem runs_expr (hf : f ∈ p.definitions) (hcalls : I.Answers calls) (e : Expr) :
    I.Runs calls f e := by
  induction e with
  | literal n => exact runs_literal n
  | var x => exact runs_var hf x
  | assign x e ih => exact runs_assign hf ih
  | preStep step x => exact runs_preStep hf step x
  | postStep step x => exact runs_postStep hf step x
  | unary op e ih => exact runs_unary ih
  | binary op l r ihl ihr => exact runs_binary ihl ihr
  | logic op l r ihl ihr => exact runs_logic ihl ihr
  | cond test yes no iht ihy ihn => exact runs_cond iht ihy ihn
  | call g args ih => exact runs_call hf hcalls ih

end Calls

/-! ## Statements -/

/-- Execution has reached the index behind a statement, or an instruction that returns the value in
the accumulator. -/
def Flowed (I : Image S p) (f : Function) (σ : Stack) (stop : Nat) (r : Flow × State) (v : View) :
    Prop :=
  match r.1 with
  | .next => ∃ acc σ', v = ⟨acc, stop, σ'⟩ ∧ I.Holds f r.2 σ' ∧ Pushed f σ [] σ'
  | .ret w => ∃ pc σ', v = ⟨w, pc, σ'⟩ ∧ S.loaded.code.toList[pc]? = some .leave ∧
      I.Holds f r.2 σ' ∧ Pushed f σ [] σ'

theorem Flowed.trans {r : Flow × State} {v : View} (h : I.Holds f s₀ σ) (hpushed : Pushed f σ [] σ₁)
    (hv : I.Flowed f σ₁ pc r v) : I.Flowed f σ pc r v := by
  obtain ⟨flow, s'⟩ := r
  cases flow with
  | next =>
    obtain ⟨acc, σ', rfl, h', hp'⟩ := hv
    exact ⟨acc, σ', rfl, h', hpushed.trans h.sp_le hp'⟩
  | ret w =>
    obtain ⟨pc', σ', rfl, hleave, h', hp'⟩ := hv
    exact ⟨pc', σ', rfl, hleave, h', hpushed.trans h.sp_le hp'⟩

/-- Code that leads to what a computation on statements yields. -/
def Flows (I : Image S p) (f : Function) (x : Eval Flow) (pc stop : Nat) : Prop :=
  ∀ acc s σ, I.Holds f s σ → S.Leads (x s) (I.Flowed f σ stop) ⟨acc, pc, σ⟩

section Flows

variable {x k : Eval Flow} {first second mid target stop : Nat}

theorem flows_next (h : pc = stop) : I.Flows f (pure .next) pc stop :=
  fun acc _ σ hholds => .ok ⟨acc, σ, h ▸ rfl, hholds, .refl f σ⟩

/-- More code behind a statement, where execution goes on if the statement does not return. -/
theorem Flows.andThen (hx : I.Flows f x pc mid) (hk : I.Flows f k mid stop) :
    I.Flows f (do
      match ← x with
      | .next => k
      | .ret v => return .ret v) pc stop := by
  intro acc s σ h
  refine Leads.bind (k := fun r => (match r.1 with
    | .next => k
    | .ret v => return .ret v : Eval Flow) r.2) (hx acc s σ h) ?_
  rintro ⟨flow, s₁⟩ v hv
  cases flow with
  | next =>
    obtain ⟨acc', σ₁, rfl, h₁, hp₁⟩ := hv
    exact (hk acc' s₁ σ₁ h₁).mono fun r v hv => hv.trans h hp₁
  | ret w =>
    obtain ⟨pc', σ₁, rfl, hleave, h₁, hp₁⟩ := hv
    exact .ok ⟨pc', σ₁, rfl, hleave, h₁, hp₁⟩

/-- A jump behind a statement. -/
theorem Flows.jump (hx : I.Flows f x pc mid)
    (hjump : S.loaded.code.toList[mid]? = some (.branch .always (UInt64.ofNat target)))
    (htarget : target = stop) (hle : stop ≤ S.loaded.code.toList.length) : I.Flows f x pc stop := by
  obtain rfl := htarget
  intro acc s σ h
  refine (hx acc s σ h).after ?_
  rintro ⟨flow, s₁⟩ v hv
  cases flow with
  | next =>
    obtain ⟨acc', σ₁, rfl, h₁, hp₁⟩ := hv
    refine .step (.taken hjump trivial) (.ok ⟨acc', σ₁, ?_, h₁, hp₁⟩)
    rw [I.toNat_ofNat hle]
  | ret w => exact .ok hv

variable {calls : Calls} {test : Expr} {yes no body : Eval Flow}
  (htest : ∀ acc s σ, I.Holds f s σ →
    S.Leads (test.eval calls s) (I.Valued f σ first) ⟨acc, pc, σ⟩)

include htest

theorem flows_test
    (hbranch : S.loaded.code.toList[first]? = some (.branch .ifZero (UInt64.ofNat second)))
    (hsecond : second ≤ S.loaded.code.toList.length) (hyes : I.Flows f yes (first + 1) stop)
    (hno : I.Flows f no second stop) :
    I.Flows f (do
      let a ← test.eval calls
      if a = 0 then no else yes) pc stop := by
  intro acc s σ h
  exact leads_test (htest acc s σ h) hbranch hsecond
    (fun a s₁ σ₁ h₁ hp₁ => (hyes a s₁ σ₁ h₁).mono fun r v hv => hv.trans h hp₁)
    fun a s₁ σ₁ h₁ hp₁ => (hno a s₁ σ₁ h₁).mono fun r v hv => hv.trans h hp₁

/-- A loop, in which every pass ends with a jump back to the condition. -/
theorem flows_loop
    (hbranch : S.loaded.code.toList[first]? = some (.branch .ifZero (UInt64.ofNat second)))
    (hsecond : second = stop) (hle : stop ≤ S.loaded.code.toList.length)
    (hbody : I.Flows f body (first + 1) pc) (fuel : Nat) :
    I.Flows f (iterate (test.eval calls) body fuel) pc stop := by
  induction fuel with
  | zero => exact fun _ _ _ _ => trivial
  | succ fuel ih =>
    exact flows_test htest hbranch (hsecond ▸ hle) (hbody.andThen ih) (flows_next hsecond)

end Flows

section Statements

variable {calls : Calls}

mutual

theorem flows_stmt (hf : f ∈ p.definitions) (hcalls : I.Answers calls) (fuel : Nat) {st : Stmt}
    (hnames : st.names ⊆ Stmt.namesAll f.body) {pc stop : Nat}
    (hcode : CodeAt S.loaded.code.toList pc (st.code (I.env f) pc))
    (hstop : pc + (st.code (I.env f) pc).length = stop) :
    I.Flows f (st.exec calls fuel) pc stop := by
  have hle := hcode.le_length
  cases st with
  | expr e =>
    rw [Stmt.exec]
    intro acc s σ h
    refine Leads.bind (k := fun r => .ok (Flow.next, r.2))
      (runs_expr hf hcalls e hnames hcode hstop h) ?_
    rintro ⟨a, s₁⟩ _ ⟨σ₁, rfl, h₁, hp₁⟩
    exact .ok ⟨a, σ₁, rfl, h₁, hp₁⟩
  | ifThen test yes =>
    rw [Stmt.names, List.append_subset] at hnames
    simp only [Stmt.code, List.append_assoc, List.cons_append, List.nil_append] at hcode
    obtain ⟨hfirst, hcode⟩ := hcode.append
    obtain ⟨hbranch, hsecond⟩ := hcode.cons
    simp only [Stmt.code, List.length_append, List.length_cons, List.length_nil] at hstop hle
    rw [Stmt.exec]
    exact flows_test (fun _ _ _ => runs_expr hf hcalls test hnames.1 hfirst rfl) hbranch (by omega)
      (flows_stmts hf hcalls fuel hnames.2 hsecond (by omega)) (flows_next (by omega))
  | ifElse test yes no =>
    rw [Stmt.names, List.append_subset, List.append_subset] at hnames
    simp only [Stmt.code, List.append_assoc, List.cons_append, List.nil_append] at hcode
    obtain ⟨hfirst, hcode⟩ := hcode.append
    obtain ⟨hbranch, hcode⟩ := hcode.cons
    obtain ⟨hsecond, hcode⟩ := hcode.append
    obtain ⟨hjump, hthird⟩ := hcode.cons
    simp only [Stmt.code, List.length_append, List.length_cons, List.length_nil] at hstop hle
    rw [Stmt.exec]
    exact flows_test (fun _ _ _ => runs_expr hf hcalls test hnames.1.1 hfirst rfl) hbranch
      (by omega)
      ((flows_stmts hf hcalls fuel hnames.1.2 hsecond rfl).jump hjump (by omega) (by omega))
      (flows_stmts hf hcalls fuel hnames.2 hthird (by omega))
  | whileLoop test body =>
    rw [Stmt.names, List.append_subset] at hnames
    simp only [Stmt.code, List.append_assoc, List.cons_append, List.nil_append] at hcode
    obtain ⟨hfirst, hcode⟩ := hcode.append
    obtain ⟨hbranch, hcode⟩ := hcode.cons
    obtain ⟨hsecond, hcode⟩ := hcode.append
    simp only [Stmt.code, List.length_append, List.length_cons, List.length_nil] at hstop hle
    rw [Stmt.exec]
    exact flows_loop (fun _ _ _ => runs_expr hf hcalls test hnames.1 hfirst rfl) hbranch (by omega)
      (by omega)
      ((flows_stmts hf hcalls fuel hnames.2 hsecond rfl).jump hcode.cons.1 rfl (by omega))
      fuel
  | ret value =>
    cases value with
    | none =>
      rw [Stmt.exec]
      exact fun _ _ _ _ => trivial
    | some e =>
      rw [Stmt.code] at hcode
      obtain ⟨hvalue, hcode⟩ := hcode.append
      rw [Stmt.exec]
      intro acc s σ h
      refine Leads.bind (k := fun r => .ok (Flow.ret r.1, r.2))
        (runs_expr hf hcalls e hnames hvalue rfl h) ?_
      rintro ⟨a, s₁⟩ _ ⟨σ₁, rfl, h₁, hp₁⟩
      exact .ok ⟨_, σ₁, rfl, hcode.cons.1, h₁, hp₁⟩
  | block body =>
    rw [Stmt.code] at hcode hstop
    rw [Stmt.exec]
    exact flows_stmts hf hcalls fuel hnames hcode hstop
  | skip =>
    rw [Stmt.code, List.length_nil, Nat.add_zero] at hstop
    rw [Stmt.exec]
    exact flows_next hstop

theorem flows_stmts (hf : f ∈ p.definitions) (hcalls : I.Answers calls) (fuel : Nat)
    {ss : List Stmt} (hnames : Stmt.namesAll ss ⊆ Stmt.namesAll f.body) {pc stop : Nat}
    (hcode : CodeAt S.loaded.code.toList pc (Stmt.codeAll (I.env f) pc ss))
    (hstop : pc + (Stmt.codeAll (I.env f) pc ss).length = stop) :
    I.Flows f (Stmt.execAll calls fuel ss) pc stop := by
  cases ss with
  | nil =>
    rw [Stmt.codeAll, List.length_nil, Nat.add_zero] at hstop
    rw [Stmt.execAll]
    exact flows_next hstop
  | cons st ss =>
    rw [Stmt.namesAll, List.append_subset] at hnames
    rw [Stmt.codeAll] at hcode hstop
    obtain ⟨hfirst, hcode⟩ := hcode.append
    rw [List.length_append, ← Nat.add_assoc] at hstop
    rw [Stmt.execAll]
    exact (flows_stmt hf hcalls fuel hnames.1 hfirst rfl).andThen
      (flows_stmts hf hcalls fuel hnames.2 hcode hstop)

end

/-- The code of a function, entered with a return index on the stack and its arguments below that.
-/
theorem leads_body (hf : f ∈ p.definitions) (hcalls : I.Answers calls) (fuel : Nat)
    (hsp : S.base ≤ σ.sp) (hsp' : σ.sp + f.params.length < S.top)
    (h : S.base ≤ σ.sp - 1 - f.locals.length → I.Holds f s (σ.enter f.locals.length)) :
    S.Leads (runBody calls fuel f.body s)
      (fun r => I.Returned (σ.drop 1) f.params.length (σ.cell σ.sp).toUnsigned (r.1, r.2.globals))
      ⟨acc, I.start f, σ⟩ := by
  obtain ⟨henter, hcode⟩ := (I.layout.code f hf).cons
  have hsmall := I.small f hf
  refine .guard (Ends.enter henter (by omega) hsp (by omega)) fun hroom => ?_
  have h := h hroom
  have hrun : runBody calls fuel f.body s = (Stmt.execAll calls fuel f.body s >>= fun r =>
      (match r.1 with
      | .next => stuck
      | .ret v => return v : Eval Word) r.2) := rfl
  rw [hrun]
  refine .bind (flows_stmts hf hcalls fuel (List.Subset.refl _) hcode.append.1 rfl acc s _ h) ?_
  rintro ⟨flow, s₁⟩ v hv
  cases flow with
  | next => exact .stuck
  | ret w =>
    obtain ⟨pc, σ₁, rfl, hleave, h₁, hp₁⟩ := hv
    have hbp : σ₁.bp = σ.sp - 1 := hp₁.bp
    have hcell : ∀ i, σ.sp - 1 ≤ i → i ≤ σ.sp ∨ σ.sp + f.params.length < i →
        σ₁.cell i = (σ.enter f.locals.length).cell i := by
      intro i hi hi'
      refine hp₁.cell i (show σ.sp - 1 - f.locals.length ≤ i by omega) fun x o ho => ?_
      have hbounds := Function.offset_bounds ho
      show i ≠ σ.sp - 1 + o
      omega
    have hunchanged : ∀ i, σ.sp ≤ i → (σ.enter f.locals.length).cell i = σ.cell i := fun i hi =>
      Stack.cell_enter_of_ne (by omega)
    have hfirst := S.first_le
    have hcaller : σ₁.cell σ₁.bp = addr σ.bp := by
      rw [hbp, hcell _ le_rfl (by omega), Stack.cell_enter_self]
    have hback : (σ₁.cell (σ₁.bp + 1)).toUnsigned = (σ.cell σ.sp).toUnsigned := by
      rw [hbp, Int.sub_add_cancel, hcell _ (by omega) (by omega), hunchanged _ le_rfl]
    refine .step (.leave hleave (by omega) h₁.bp_lt_top hcaller hback)
      (.ok ⟨σ₁.leave σ.bp, rfl, ?_, rfl, ?_, ?_⟩)
    · show σ₁.bp + 2 = σ.sp + 1
      omega
    · exact h₁.globals
    · intro i hi
      have hi : σ.sp + 1 + f.params.length ≤ i := hi
      show σ₁.cell i = σ.cell i
      rw [hcell i (by omega) (by omega), hunchanged i (by omega)]

end Statements

/-! ## Calls of functions -/

theorem lookup_zip (params : List Name) (args : List Word) (x : Name) :
    (params.zip args).lookup x = (params.idxOf? x).bind (args[·]?) := by
  induction params generalizing args with
  | nil => simp
  | cons y params ih =>
    cases args with
    | nil => simp
    | cons w args =>
      rw [List.zip_cons_cons, List.lookup_cons, List.idxOf?_cons, ih]
      by_cases hxy : y = x
      · subst hxy
        simp
      · have hyx : (x == y) = false := beq_eq_false_iff_ne.mpr (Ne.symm hxy)
        have hxy : (y == x) = false := beq_eq_false_iff_ne.mpr hxy
        rw [hyx, hxy, if_neg Bool.false_ne_true, Option.bind_map]
        rfl

theorem find_name (I : Image S p) (hf : f ∈ p.definitions) :
    p.definitions.find? (·.name = f.name) = some f := by
  cases hfind : p.definitions.find? (·.name = f.name) with
  | none => simpa using List.find?_eq_none.mp hfind f hf
  | some g =>
    have hname : g.name = f.name := by simpa using List.find?_some hfind
    rw [List.inj_on_of_nodup_map I.nodup (List.mem_of_find?_eq_some hfind) hf hname]

/-- A function without locals that has been entered with its arguments on the stack. -/
theorem holds_enter {args : List Word} {globals : Vars} {back : Word} (hlocals : f.locals = [])
    (hlength : args.length = f.params.length) (hroom : S.base ≤ σ.sp - 2)
    (hsp : σ.sp + args.length ≤ S.top)
    (hargs : ∀ (k : Nat) (w : Word), args[k]? = some w → σ.cell (σ.sp + args.length - 1 - k) = w)
    (hglobals : I.HoldsGlobals globals σ) :
    I.Holds f ⟨bind f.params args, globals⟩ ((σ.push back).enter 0) := by
  have hcell : ∀ i, i ≠ σ.sp - 1 → i ≠ σ.sp - 2 → ((σ.push back).enter 0).cell i = σ.cell i :=
    fun i hi hi' => (Stack.cell_enter_of_ne (show i ≠ σ.sp - 1 - 1 by omega)).trans
      (Stack.cell_push_of_ne hi)
  have hbp : ((σ.push back).enter 0).bp = σ.sp - 2 := by
    show σ.sp - 1 - 1 = σ.sp - 2
    omega
  refine ⟨?_, ?_, ?_, fun x => ?_, hglobals.of_cell fun i hi => hcell i (by omega) (by omega)⟩
  · show S.base ≤ σ.sp - 1 - 1 - 0
    omega
  · rw [hlocals]
    exact le_rfl
  · rw [hbp]
    omega
  · show (f.params.zip args).lookup x = _
    rw [lookup_zip, hbp]
    unfold Function.offset
    rw [hlocals]
    cases hk : f.params.idxOf? x with
    | none => simp
    | some k =>
      obtain ⟨hlt, -⟩ := List.idxOf?_eq_some_iff.mp hk
      rw [← hlength] at hlt
      have hget : args[k]? = some args[k] := List.getElem?_eq_getElem hlt
      show args[k]? = some (((σ.push back).enter 0).cell (σ.sp - 2 + (f.params.length + 1 - k)))
      rw [hcell _ (by omega) (by omega), hget, ← hargs k _ hget]
      congr 2
      omega

theorem answers_calls (I : Image S p) (fuel : Nat) : I.Answers (p.calls fuel) := by
  induction fuel with
  | zero =>
    exact ⟨fun _ _ _ _ => ⟨.outOfFuel, by decide, rfl⟩, fun _ _ _ _ _ _ _ _ _ _ _ _ => trivial⟩
  | succ fuel ih =>
    constructor
    · intro g args globals hunknown
      have hfind : p.definitions.find? (·.name = g) = none := by simpa using hunknown
      exact ⟨.stuck, by decide, Parts.calls_of_none hfind⟩
    · intro g hg args globals acc pc σ hcall hsp hsp' hargs hglobals
      rw [Parts.calls_of_some (I.find_name hg)]
      split_ifs with harity
      · obtain ⟨hlocals, hlength⟩ := harity
        refine .guard (Ends.call hcall hsp (by omega)) fun hroom => ?_
        obtain ⟨hlt, -⟩ := List.getElem?_eq_some_iff.mp hcall
        have hsmall := I.code_lt
        rw [← Array.length_toList] at hsmall
        rw [I.toNat_ofNat (by have hle := (I.layout.code g hg).le_length; omega)]
        refine .bind (leads_body (s := ⟨bind g.params args, globals⟩) hg ih fuel hroom
          (show σ.sp - 1 + g.params.length < S.top by omega) fun hroom' => ?_) ?_
        · have hroom' : S.base ≤ σ.sp - 1 - 1 - g.locals.length := hroom'
          rw [hlocals] at hroom' ⊢
          exact holds_enter hlocals hlength (by omega) hsp' hargs hglobals
        rintro ⟨w, s'⟩ v ⟨σ', rfl, hsp₁, hbp₁, hglobals₁, hcell₁⟩
        have hback : ((σ.push (Word.ofNat (pc + 1))).cell (σ.sp - 1)).toUnsigned = pc + 1 := by
          rw [Stack.cell_push_self, Word.toUnsigned_ofNat (by omega)]
        refine .ok ⟨σ', congrArg (View.mk w · σ') hback, hsp₁.trans (Int.sub_add_cancel σ.sp 1),
          hbp₁, hglobals₁, fun i hi => ?_⟩
        rw [hcell₁ i (show σ.sp - 1 + 1 + g.params.length ≤ i by omega)]
        exact Stack.cell_push_of_ne (by omega)
      · exact .stuck

end Image

end Source

end MiniC
