import Mathlib
import MiniC.Limits

/-!
# Sizes that a pool is scaled to

A pool is halved and then doubled in single steps, and a size that does not fit is cut off at every
step. All halvings are one division, since rounding down twice is rounding down once, and all
doublings are one product that is cut off at the end: once a size has been cut off it stays at the
greatest one (`toNat_double`). So scaling is exact in the integers up to the greatest size, and
neither it nor the capacities that a pool pays for ever wrap around (`pools_scale`).
-/

namespace MiniC

/-- The greatest size. -/
def maxSize : Nat := 2 ^ 64 - 1

theorem toNat_le_maxSize (size : UInt64) : size.toNat ≤ maxSize := by
  have := size.toNat_lt
  rw [maxSize]
  omega

theorem toNat_ofNat_of_le {n : Nat} (h : n ≤ maxSize) : (UInt64.ofNat n).toNat = n := by
  refine UInt64.toNat_ofNat_of_lt' ?_
  rw [maxSize] at h
  rw [UInt64.size]
  omega

@[simp] theorem toNat_saturate (n : Nat) : (saturate n).toNat = min n maxSize :=
  toNat_ofNat_of_le (Nat.min_le_right n _)

/-- Cutting off before a product loses nothing that cutting off behind it keeps. -/
theorem min_mul_min (a b bound : Nat) (hb : 0 < b) :
    min (min a bound * b) bound = min (a * b) bound := by
  rcases Nat.le_total a bound with h | h
  · rw [Nat.min_eq_left h]
  · have hbound : bound ≤ bound * b := Nat.le_mul_of_pos_right bound hb
    have hle : bound ≤ a * b := hbound.trans (Nat.mul_le_mul_right b h)
    rw [Nat.min_eq_right h, Nat.min_eq_right hbound, Nat.min_eq_right hle]

namespace Limits

/-! ## Scaling -/

theorem toNat_halve (size : UInt64) (count : Nat) :
    (halve size count).toNat = size.toNat / 2 ^ count := by
  induction count generalizing size with
  | zero => simp [halve]
  | succ count ih =>
    have hhalf : (UInt64.ofNat (size.toNat / 2)).toNat = size.toNat / 2 :=
      toNat_ofNat_of_le ((Nat.div_le_self _ _).trans (toNat_le_maxSize size))
    rw [halve, ih, hhalf, Nat.div_div_eq_div_mul, Nat.pow_succ']

theorem toNat_double (size : UInt64) (count : Nat) :
    (double size count).toNat = min (size.toNat * 2 ^ count) maxSize := by
  induction count generalizing size with
  | zero => simp [double, toNat_le_maxSize]
  | succ count ih =>
    rw [double, ih, toNat_saturate, min_mul_min _ _ _ (by positivity), Nat.mul_assoc,
      Nat.pow_succ']

theorem toNat_scalePoolSize (base : UInt64) (halvings doublings : Nat) :
    (scalePoolSize base halvings doublings).toNat =
      min (base.toNat / 2 ^ halvings * 2 ^ doublings) maxSize := by
  rw [scalePoolSize, toNat_double, toNat_halve]

theorem scalePoolSize_le {base base' : UInt64} (h : base ≤ base') (halvings doublings : Nat) :
    scalePoolSize base halvings doublings ≤ scalePoolSize base' halvings doublings := by
  rw [UInt64.le_iff_toNat_le] at h ⊢
  rw [toNat_scalePoolSize, toNat_scalePoolSize]
  gcongr

/-! ## Capacities -/

/-- No capacity is larger than that of the other limits. -/
instance : LE Limits where
  le l l' := l.symbols ≤ l'.symbols ∧ l.code ≤ l'.code ∧ l.data ≤ l'.data ∧ l.stack ≤ l'.stack ∧
    l.source ≤ l'.source ∧ l.heap ≤ l'.heap

/-- The capacities of a pool as integers: quotients, the pool itself, one byte less than the pool,
and a product that is cut off. -/
structure Paid (l : Limits) (pool : Nat) : Prop where
  symbols_eq : l.symbols.toNat = pool / 72
  code_eq : l.code.toNat = pool / 8
  data_eq : l.data.toNat = pool
  stack_eq : l.stack.toNat = pool
  source_eq : (l.source.toNat : Int) = max ((pool : Int) - 1) 0
  heap_eq : l.heap.toNat = min (64 * pool) (2 ^ 64 - 1)

theorem paid_ofPoolSize (pool : UInt64) : Paid (ofPoolSize pool) pool.toNat := by
  have hle := toNat_le_maxSize pool
  have hexact : ∀ {n : Nat}, n ≤ pool.toNat → (UInt64.ofNat n).toNat = n :=
    fun h => toNat_ofNat_of_le (h.trans hle)
  refine ⟨hexact (Nat.div_le_self _ _), hexact (Nat.div_le_self _ _), rfl, rfl, ?_, ?_⟩
  · rw [ofPoolSize, hexact (Nat.sub_le _ _)]
    omega
  · rw [ofPoolSize, toNat_saturate, heapFactor, maxSize, Nat.mul_comm]

theorem Paid.le {l l' : Limits} {pool pool' : Nat} (h : Paid l pool) (h' : Paid l' pool')
    (hle : pool ≤ pool') : l ≤ l' := by
  obtain ⟨h₁, h₂, h₃, h₄, h₅, h₆⟩ := h
  obtain ⟨h₁', h₂', h₃', h₄', h₅', h₆'⟩ := h'
  refine ⟨?_, ?_, ?_, ?_, ?_, ?_⟩ <;> rw [UInt64.le_iff_toNat_le] <;> omega

/-- Scaling a pool is exact in the integers up to the greatest size, and it is monotone in the size
that it begins with. The capacities that a pool pays for do not wrap around, and a larger pool pays
for no smaller ones. -/
theorem pools_scale :
    (∀ base halvings doublings, (scalePoolSize base halvings doublings).toNat =
      min (base.toNat / 2 ^ halvings * 2 ^ doublings) (2 ^ 64 - 1)) ∧
    (∀ base base' halvings doublings, base ≤ base' →
      scalePoolSize base halvings doublings ≤ scalePoolSize base' halvings doublings) ∧
    (∀ pool pool', pool ≤ pool' → ofPoolSize pool ≤ ofPoolSize pool') ∧
    ∀ pool, Paid (ofPoolSize pool) pool.toNat := by
  refine ⟨toNat_scalePoolSize,
    fun _ _ halvings doublings h => scalePoolSize_le h halvings doublings,
    fun pool pool' h => ?_, paid_ofPoolSize⟩
  exact (paid_ofPoolSize pool).le (paid_ofPoolSize pool') (UInt64.le_iff_toNat_le.mp h)

end Limits

end MiniC
