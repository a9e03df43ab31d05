import MiniC.Machine.Step
import MiniC.Proofs.Source.Code
import MiniC.Proofs.Source.Evaluation

/-!
# Arithmetic on words

The operations of the machine are those of the integers, wrapped to words.
-/

namespace MiniC.Source

theorem toNat_smod (b : Word) : (b.toBitVec.smod 64).toNat = shiftCount b := by
  have hmod : (b.toBitVec.smod 64).toInt = b.toInt % 64 := by
    rw [BitVec.toInt_smod]
    exact Int.fmod_eq_emod_of_nonneg _ (by decide)
  have hlt := Int.emod_lt_of_pos b.toInt (show (0 : Int) < 64 by decide)
  have hnonneg := Int.emod_nonneg b.toInt (show (64 : Int) ≠ 0 by decide)
  have hnat := BitVec.toInt_eq_toNat_cond (b.toBitVec.smod 64)
  have hsize := (b.toBitVec.smod 64).isLt
  rw [← hmod] at hlt hnonneg
  rw [shiftCount, ← hmod]
  split at hnat <;> omega

theorem wrap_shiftLeft (a b : Word) : wrap (a.toInt * 2 ^ shiftCount b) = a <<< b := by
  have hpow : ∀ k : Nat, BitVec.ofInt 64 (2 ^ k) = BitVec.twoPow 64 k := by
    intro k
    have hcast : (2 : Int) ^ k = ((2 ^ k : Nat) : Int) := by push_cast; rfl
    rw [hcast, BitVec.ofInt_natCast]
    apply BitVec.eq_of_toNat_eq
    rw [BitVec.toNat_ofNat, BitVec.toNat_twoPow]
  apply Int64.toBitVec_inj.mp
  rw [wrap, Int64.toBitVec_ofInt, Int64.toBitVec_shiftLeft, BitVec.shiftLeft_eq', toNat_smod,
    BitVec.ofInt_mul, hpow, ← BitVec.mul_twoPow_eq_shiftLeft, ← Int64.toInt_toBitVec,
    BitVec.ofInt_toInt]

theorem wrap_shiftRight (a b : Word) : wrap (a.toInt / 2 ^ shiftCount b) = a >>> b := by
  have hshift : a.toInt / 2 ^ shiftCount b = (a.toBitVec.sshiftRight (shiftCount b)).toInt := by
    rw [BitVec.toInt_sshiftRight, Int.shiftRight_eq_div_pow, Int64.toInt_toBitVec]
    push_cast
    rfl
  apply Int64.toBitVec_inj.mp
  rw [wrap, hshift, Int64.toBitVec_ofInt, BitVec.ofInt_toInt, Int64.toBitVec_shiftRight,
    BitVec.sshiftRight_eq', toNat_smod]

/-- A binary operation fails where the machine refuses it, and is the machine's operation elsewhere.
-/
theorem applyBinary_eq (op : BinOp) (a b : Word) :
    applyBinary op a b = if op.divides = true ∧ b = 0 then .error .divisionByZero
      else .ok (op.apply a b) := by
  have hzero : b.toInt = 0 ↔ b = 0 := by
    rw [← Int64.toInt_inj, Int64.toInt_zero]
  cases op with
  | or | xor | and => rfl
  | eq => simp [applyBinary, BinOp.divides, BinOp.apply, truth, Int64.toInt_inj]
  | ne => simp [applyBinary, BinOp.divides, BinOp.apply, truth, Int64.toInt_inj]
  | lt => simp [applyBinary, BinOp.divides, BinOp.apply, truth, Int64.lt_iff_toInt_lt]
  | gt => simp [applyBinary, BinOp.divides, BinOp.apply, truth, Int64.lt_iff_toInt_lt]
  | le => simp [applyBinary, BinOp.divides, BinOp.apply, truth, Int64.le_iff_toInt_le]
  | ge => simp [applyBinary, BinOp.divides, BinOp.apply, truth, Int64.le_iff_toInt_le]
  | add => simp [applyBinary, BinOp.divides, BinOp.apply, wrap, Int64.ofInt_add]
  | sub => simp [applyBinary, BinOp.divides, BinOp.apply, wrap, Int64.ofInt_sub]
  | mul => simp [applyBinary, BinOp.divides, BinOp.apply, wrap, Int64.ofInt_mul]
  | shl => simp [applyBinary, BinOp.divides, BinOp.apply, wrap_shiftLeft]
  | shr => simp [applyBinary, BinOp.divides, BinOp.apply, wrap_shiftRight]
  | div =>
    have hdiv : wrap (a.toInt.tdiv b.toInt) = a / b := by
      rw [wrap, Int64.ofInt_tdiv a.minValue_le_toInt a.toInt_le b.minValue_le_toInt b.toInt_le,
        Int64.ofInt_toInt, Int64.ofInt_toInt]
    simp only [applyBinary, hzero, hdiv, BinOp.divides, true_and]
    rfl
  | mod =>
    have hmod : wrap (a.toInt.tmod b.toInt) = a % b := by
      rw [wrap, Int64.ofInt_tmod a.minValue_le_toInt a.toInt_le b.minValue_le_toInt b.toInt_le,
        Int64.ofInt_toInt, Int64.ofInt_toInt]
    simp only [applyBinary, hzero, hmod, BinOp.divides, true_and]
    rfl

/-! ## What operators are made of -/

theorem UnaryOp.not_eq (a : Word) : UnaryOp.not.apply a = BinOp.eq.apply a 0 := by
  have hzero : a.toInt = 0 ↔ a = 0 := by rw [← Int64.toInt_inj, Int64.toInt_zero]
  simp [UnaryOp.apply, BinOp.apply, truth, hzero]

theorem UnaryOp.complement_eq (a : Word) : UnaryOp.complement.apply a = BinOp.xor.apply a (-1) := by
  show wrap (-1 - a.toInt) = a ^^^ -1
  rw [wrap, Int64.ofInt_sub, Int64.ofInt_toInt, Int64.xor_neg_one, Int64.not_eq_neg_sub]
  grind

theorem UnaryOp.negate_eq (a : Word) : UnaryOp.negate.apply a = BinOp.mul.apply (-1) a := by
  show wrap (-a.toInt) = -1 * a
  rw [wrap, Int64.ofInt_neg, Int64.ofInt_toInt]
  grind

theorem UnaryOp.negate_ofNat (n : Nat) : UnaryOp.negate.apply (wrap n) = -Word.ofNat n := by
  show wrap (-(wrap n).toInt) = _
  rw [wrap, wrap, Int64.ofInt_neg, Int64.ofInt_toInt, Int64.ofInt_eq_ofNat, Word.ofNat]

theorem Step.divides_op (step : Step) : step.op.divides = false := by
  cases step <;> rfl

theorem Step.divides_undo (step : Step) : step.undo.divides = false := by
  cases step <;> rfl

theorem Step.op_eq (step : Step) (v : Word) :
    step.op.apply v 1 = wrap (v.toInt + step.amount) := by
  cases step with
  | increment =>
    show v + 1 = wrap (v.toInt + 1)
    rw [wrap, Int64.ofInt_add, Int64.ofInt_toInt]
    rfl
  | decrement =>
    show v - 1 = wrap (v.toInt + -1)
    rw [wrap, ← sub_eq_add_neg, Int64.ofInt_sub, Int64.ofInt_toInt]
    rfl

theorem Step.undo_eq (step : Step) (v : Word) :
    step.undo.apply (wrap (v.toInt + step.amount)) 1 = v := by
  rw [← step.op_eq]
  cases step with
  | increment => show v + 1 - 1 = v; grind
  | decrement => show v - 1 + 1 = v; grind

end MiniC.Source
