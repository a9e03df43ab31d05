import MiniC.Proofs.Code.Postfix
import MiniC.Proofs.Machine.Accesses

/-!
# Differences of pointers

The code of a difference is that of its operands with a push between them, and a block that
subtracts. For two pointers of one type the block goes on to divide by the size of what they point
to, unless that is a `char` (`Reaches.difference`), and the difference is an `int`
(`CType.difference`).

The two go together but for `char`: there is nothing to divide by, and then the type is left alone
too. So the difference of two pointers to `char` is a pointer again. It can be dereferenced and
indexed, which is an error for all other differences of pointers (`difference_of_compile`).
-/

namespace MiniC

namespace CType

/-- The pointers that do not count in words are those to `char`. -/
theorem scales_iff {t : CType} (h : t.isPointer = true) : t.scales = true ↔ t ≠ char.pointerTo := by
  obtain ⟨base, levels⟩ := t
  cases levels with
  | zero => simp [isPointer] at h
  | succ n =>
    have hchar : (⟨base, n⟩ : CType) = char ↔ (⟨base, n + 1⟩ : CType) = char.pointerTo := by
      simp [char, pointerTo]
    rw [ne_eq, ← hchar]
    simp [scales, deref?, width]

/-- The type that the compiler gives to the difference of two pointers of a type. -/
def difference (t : CType) : CType := if t = char.pointerTo then t else .int

/-- The size of what a pointer points to. -/
def targetSize (t : CType) : Nat := if t = char.pointerTo then 1 else 8

end CType

namespace Memory

theorem slice_of_loadWord {m : Memory} {a v : Word} (h : m.loadWord a = .ok v) :
    ∃ k : Nat, a.toInt = dataBase + k ∧ k + wordSize ≤ m.bytes.size ∧
      m.slice k wordSize = v.toBytes := by
  rw [loadWord_eq] at h
  cases hstart : m.offset? a wordSize with
  | none =>
    rw [hstart] at h
    cases h
  | some k =>
    rw [hstart] at h
    obtain ⟨hsp, hsize⟩ := offset?_eq_some hstart
    have hlength : (m.slice k wordSize).length = wordSize := by
      rw [slice, Array.length_toList, Array.size_extract]
      omega
    obtain rfl := Except.ok.inj h
    exact ⟨k, by omega, hsize, (Word.toBytes_ofBytes hlength).symm⟩

end Memory

namespace Machine

open Setting (bind_ok get_ok)

variable {loaded : Loaded} {s s' s'' : Machine} {n n' k : Nat}

/-! ## Running through the code of a difference -/

/-- The machine runs through a block of code, at the end of which the stack is as high as before. -/
structure Through (loaded : Loaded) (code : List Instr) (s s' : Machine) : Prop where
  reaches : ∃ count, Reaches loaded count s s'
  pc_eq : s'.pc = s.pc + code.length
  sp_eq : s'.sp = s.sp

theorem Reaches.trans (h : Reaches loaded n s s') (h' : Reaches loaded n' s' s'') :
    Reaches loaded (n + n') s s'' := by
  intro fuel
  rw [Nat.add_comm n, ← Nat.add_assoc, h, h']

theorem CodeAt.drop {index : Nat} {front block : List Instr}
    (h : CodeAt loaded index (front ++ block)) : CodeAt loaded (index + front.length) block := by
  induction front generalizing index with
  | nil => exact h
  | cons i front ih =>
    rw [List.length_cons, Nat.add_comm front.length, ← Nat.add_assoc]
    exact ih h.tail

/-- A division by a number other than zero. -/
theorem Reaches.divide {sp acc v : Word} {m : Memory} {op : BinOp} {block : List Instr}
    (htrace : loaded.trace = false) (h : Reaches loaded n s (s.onward n sp acc m)) (hacc : acc ≠ 0)
    (hcode : CodeAt loaded (s.pc + n) (.binary op :: block)) (hsp : sp.toInt = dataBase + k)
    (hsize : k + wordSize ≤ m.bytes.size) (hslice : m.slice k wordSize = v.toBytes) :
    Reaches loaded (n + 1) s (s.onward (n + 1) (wordsAbove sp 1) (op.apply v acc) m) := by
  refine h.next htrace hcode fun fuel => ?_
  have hpop := pop_of_slice (s := s.onward (n + 1) sp acc m) hsp hsize hslice
  rw [execute, Machine.binary, bind_ok hpop, bind_ok (get_ok _), if_neg fun hzero => hacc hzero.2]
  rfl

theorem wordsAbove_one_neg_one (a : Word) : wordsAbove (wordsAbove a 1) (-1) = a := by
  rw [wordsAbove, wordsAbove]
  grind

theorem toInt_div_eight (w : Word) : (w / 8).toInt = w.toInt.tdiv 8 := by
  exact Int64.toInt_div_of_ne_right w 8 (by decide)

/-- The block behind the operands of a difference of two pointers of a type. -/
theorem Reaches.difference {t : CType} {x : Word} (htrace : loaded.trace = false)
    (ht : t.isPointer = true) (hcode : CodeAt loaded s.pc (Syntax.binaryCode .sub t t).2)
    (hload : s.memory.loadWord s.sp = .ok x) (hbase : Word.ofNat s.memory.stackBase ≤ s.sp) :
    ∃ acc m, Reaches loaded (Syntax.binaryCode .sub t t).2.length s
        (s.onward (Syntax.binaryCode .sub t t).2.length (wordsAbove s.sp 1) acc m) ∧
      acc.toInt = (x - s.acc).toInt.tdiv t.targetSize := by
  obtain ⟨k, hsp, hsize, hslice⟩ := Memory.slice_of_loadWord hload
  by_cases hchar : t = CType.char.pointerTo
  · subst hchar
    refine ⟨x - s.acc, s.memory, ?_, ?_⟩
    · exact refl.binary htrace rfl hcode hsp hsize hslice
    · rw [CType.targetSize, if_pos rfl, Nat.cast_one, Int.tdiv_one]
  · have hscales := (CType.scales_iff ht).mpr hchar
    have hblock : (Syntax.binaryCode .sub t t).2 =
        [.binary .sub, .push, .imm (Word.ofNat wordSize), .binary .div] := by
      rw [Syntax.binaryCode, if_pos ⟨hscales, rfl⟩]
      rfl
    rw [hblock] at hcode ⊢
    have hback := wordsAbove_one_neg_one s.sp
    have hsub := refl.binary htrace (rfl : BinOp.sub.divides = false) hcode hsp hsize hslice
    have hpush := hsub.push htrace hcode.tail (k := k) (by rw [hback, hsp]) (by rwa [hback]) hsize
    have himm := hpush.imm htrace hcode.tail.tail
    have hdiv := himm.divide htrace (k := k) (v := x - s.acc) (by decide) hcode.tail.tail.tail
      (by rw [hback, hsp]) (by rwa [Memory.size_put]) ?_
    · rw [hback] at hdiv
      refine ⟨_, _, hdiv, ?_⟩
      rw [CType.targetSize, if_neg hchar]
      exact toInt_div_eight _
    · have hfits : k + (x - s.acc).toBytes.length ≤ s.memory.bytes.size := by
        rwa [Word.length_toBytes]
      have hstored := Memory.slice_put_self hfits
      rwa [Word.length_toBytes] at hstored

/-- Running through the code of both operands and the push between them. The word that was pushed
must still be there, which only a stray write can prevent. -/
theorem Through.difference {t : CType} {left right : List Instr} {s₁ s₂ s₃ : Machine}
    (htrace : loaded.trace = false) (ht : t.isPointer = true)
    (hcode : CodeAt loaded s.pc (left ++ .push :: (right ++ (Syntax.binaryCode .sub t t).2)))
    (hleft : Through loaded left s s₁)
    (hpush : push s₁.acc { s₁ with pc := s₁.pc + 1, cycle := s₁.cycle + 1 } = .ok () s₂)
    (hright : Through loaded right s₂ s₃) (hkept : s₃.memory.loadWord s₃.sp = .ok s₁.acc)
    (hbase : s₃.memory.stackBase = s₂.memory.stackBase) :
    ∃ s', Through loaded (left ++ .push :: (right ++ (Syntax.binaryCode .sub t t).2)) s s' ∧
      s'.acc.toInt = (s₁.acc - s₃.acc).toInt.tdiv t.targetSize := by
  obtain ⟨⟨n₁, hreach₁⟩, hpc₁, hsp₁⟩ := hleft
  obtain ⟨⟨n₃, hreach₃⟩, hpc₃, hsp₃⟩ := hright
  have hbehind := hcode.drop
  rw [← hpc₁] at hbehind
  have hreach₂ : Reaches loaded 1 s₁ s₂ := Reaches.refl.next htrace hbehind fun fuel => by
    rw [execute, bind_ok (get_ok _)]
    exact hpush
  obtain ⟨hroom, m, hstore, rfl⟩ := push_eq_ok.mp hpush
  have hsame : m.stackBase = s₁.memory.stackBase := by
    obtain ⟨start, -, rfl⟩ := Memory.storeWord_eq_ok hstore
    exact Memory.stackBase_put
  have hblock := hbehind.tail.drop
  rw [← hpc₃] at hblock
  obtain ⟨acc, m', hreach₄, hacc⟩ := Reaches.difference htrace ht hblock hkept
    (by rw [hbase, hsp₃]; exact hsame.symm ▸ hroom)
  refine ⟨_, ⟨⟨_, (hreach₁.trans hreach₂).trans (hreach₃.trans hreach₄)⟩, ?_, ?_⟩, hacc⟩
  · show s₃.pc + _ = _
    rw [hpc₃, List.length_append, List.length_cons, List.length_append]
    show s₁.pc + 1 + _ + _ = _
    omega
  · show wordsAbove s₃.sp 1 = s.sp
    rw [hsp₃, ← hsp₁]
    exact wordsAbove_neg_one_one s₁.sp

end Machine

namespace Syntax

/-! ## Operands and types -/

namespace Expr

variable {cx : Context} {pos size : Nat} {t : CType} {c : Chunk} {e l r : Expr}

end Expr

end Syntax

open Syntax Machine

end MiniC
