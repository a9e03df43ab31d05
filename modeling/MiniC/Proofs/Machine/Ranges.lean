import Mathlib
import MiniC.Memory.Heap

/-!
# Ranges of memory

Memory counts in sizes of 64 bits and in signed words, and it checks each step in which a sum or a
difference may leave these. The result is the check that unbounded integers give (`offset?`): a
range is found exactly if it begins at the lowest address or above and ends at the end of memory or
below (`index_eq`). From this module on accesses are about `offset?`.
-/

namespace MiniC

/-! ## Words as bytes -/

namespace Word

@[simp] theorem length_lowBytes (count n : Nat) : (lowBytes count n).length = count := by
  induction count generalizing n with
  | zero => rfl
  | succ count ih => simp [lowBytes, ih]

@[simp] theorem length_toBytes (w : Word) : w.toBytes.length = wordSize :=
  length_lowBytes wordSize w.toUnsigned

theorem foldr_lowBytes (count n : Nat) :
    (lowBytes count n).foldr (fun b n => b.toNat + 256 * n) 0 = n % 256 ^ count := by
  induction count generalizing n with
  | zero => simp [lowBytes, Nat.mod_one]
  | succ count ih =>
    have hpow : 256 ^ (count + 1) = 256 * 256 ^ count := Nat.pow_succ'
    rw [lowBytes, List.foldr_cons, ih, UInt8.toNat_ofNat', hpow, Nat.mod_mul]

theorem ofNat_toUnsigned (w : Word) : ofNat w.toUnsigned = w := by
  apply Int64.toBitVec_inj.mp
  simp [ofNat, toUnsigned]

@[simp] theorem ofBytes_toBytes (w : Word) : ofBytes w.toBytes = w := by
  have hlt : w.toUnsigned < 256 ^ wordSize := w.toUInt64.toNat_lt
  rw [ofBytes, toBytes, foldr_lowBytes, Nat.mod_eq_of_lt hlt, ofNat_toUnsigned]

theorem toInt_ofNat {n : Nat} (h : n < 2 ^ 63) : (ofNat n).toInt = n := Int64.toInt_ofNat_of_lt h

theorem toInt_neg_ofNat {n : Nat} (h : n < 2 ^ 63) : (-ofNat n).toInt = -n := by
  rw [ofNat, ← Int64.ofInt_eq_ofNat, ← Int64.ofInt_neg, Int64.toInt_ofInt]
  exact Int.bmod_eq_of_le (by simp only [Int64.size]; omega) (by simp only [Int64.size]; omega)

theorem toUnsigned_ofNat {n : Nat} (h : n < 2 ^ 64) : (ofNat n).toUnsigned = n := by
  simpa [ofNat, toUnsigned] using h

theorem ofNat_inj {m n : Nat} (hm : m < 2 ^ 64) (hn : n < 2 ^ 64) (h : ofNat m = ofNat n) :
    m = n := by
  rw [← toUnsigned_ofNat hm, h, toUnsigned_ofNat hn]

theorem toUnsigned_eq (w : Word) : w.toUnsigned = (w.toInt % 2 ^ 64).toNat := by
  have hbmod : w.toInt = (w.toBitVec.toNat : Int).bmod (2 ^ 64) := BitVec.toInt_eq_toNat_bmod _
  have hlt := w.toBitVec.isLt
  have hmod : w.toInt % 2 ^ 64 = w.toBitVec.toNat := by
    rw [Int.bmod_def] at hbmod
    split at hbmod <;> omega
  rw [hmod, Int.toNat_natCast]
  rfl

theorem toUnsigned_lt_iff {w : Word} {n : Nat} (h : n < 2 ^ 63) :
    w.toUnsigned < n ↔ 0 ≤ w.toInt ∧ w.toInt < n := by
  have hlt := w.toInt_lt
  have hge := w.le_toInt
  rw [toUnsigned_eq]
  omega

/-- A number that is not above a word is a word itself. -/
theorem ofNat_le {n : Nat} {w : Word} (h : (n : Int) ≤ w.toInt) : ofNat n ≤ w := by
  have hlt := w.toInt_lt
  rwa [Int64.le_iff_toInt_le, toInt_ofNat (by omega)]

/-! ## Checked arithmetic -/

theorem checkedSub_eq_some {v w d : Word} :
    v.checkedSub w = some d ↔ d.toInt = v.toInt - w.toInt := by
  have hd := d.toInt_lt
  have hd' := d.le_toInt
  have hv := v.toInt_lt
  have hv' := v.le_toInt
  have hw := w.toInt_lt
  have hw' := w.le_toInt
  have hsub : (v - w).toInt = (v.toInt - w.toInt).bmod (2 ^ 64) := Int64.toInt_sub v w
  rw [checkedSub]
  simp only [Int64.lt_iff_toInt_lt, Int64.toInt_zero]
  constructor
  · intro h
    split_ifs at h with hiff
    obtain rfl := Option.some.inj h
    rw [hsub] at hiff ⊢
    rw [Int.bmod_def] at hiff ⊢
    omega
  · intro h
    have hexact : (v - w).toInt = v.toInt - w.toInt := by
      rw [hsub]
      exact Int.bmod_eq_of_le (by omega) (by omega)
    rw [if_pos (by omega), Int64.toInt_inj.mp (h.trans hexact.symm)]

theorem toSize?_eq_some {w : Word} {n : UInt64} : w.toSize? = some n ↔ w.toInt = n.toNat := by
  have hunsigned := toUnsigned_eq w
  have hlt := w.toInt_lt
  have hge := w.le_toInt
  rw [toUnsigned] at hunsigned
  rw [toSize?]
  simp only [Int64.lt_iff_toInt_lt, Int64.toInt_zero]
  split_ifs with hneg
  · exact iff_of_false nofun (by omega)
  · rw [Option.some.injEq, ← UInt64.toNat_inj]
    omega

end Word

theorem checkedAdd_eq_some {n k sum : UInt64} :
    checkedAdd n k = some sum ↔ sum.toNat = n.toNat + k.toNat := by
  have hn := n.toNat_lt
  have hk := k.toNat_lt
  have hsum := sum.toNat_lt
  have hadd : (n + k).toNat = (n.toNat + k.toNat) % 2 ^ 64 := UInt64.toNat_add n k
  rw [checkedAdd]
  simp only [UInt64.lt_iff_toNat_lt]
  split_ifs with hwraps
  · exact iff_of_false nofun (by omega)
  · rw [Option.some.injEq, ← UInt64.toNat_inj]
    omega

/-! ## Whole words -/

/-- The least multiple of the word size that is not below `n`. -/
def alignUp (n : Nat) : Nat := (n + (wordSize - 1)) / wordSize * wordSize

theorem le_alignUp (n : Nat) : n ≤ alignUp n := by
  rw [alignUp, wordSize]
  omega

theorem alignUp_pos {n : Nat} (h : 0 < n) : 0 < alignUp n := Nat.lt_of_lt_of_le h (le_alignUp n)

theorem toNat_align_eq (n : UInt64) : (align n).toNat = (n.toNat + 7) % 2 ^ 64 / 8 * 8 := by
  have hword : UInt64.ofNat wordSize = 8 := rfl
  have hlast : (8 : UInt64) - 1 = 7 := rfl
  have hsum : (n + 7).toNat = (n.toNat + 7) % 2 ^ 64 := UInt64.toNat_add n 7
  have hquotient : ((n + 7) / 8).toNat = (n + 7).toNat / 8 := UInt64.toNat_div _ 8
  have hproduct : ((n + 7) / 8 * 8).toNat = ((n + 7) / 8).toNat * 8 % 2 ^ 64 := UInt64.toNat_mul _ 8
  rw [align]
  simp only [hword, hlast, hproduct, hquotient, hsum]
  omega

theorem dvd_align (n : UInt64) : wordSize ∣ (align n).toNat := by
  rw [toNat_align_eq]
  exact Nat.dvd_mul_left ..

theorem dvd_toNat_add {n k : UInt64} (hn : wordSize ∣ n.toNat) (hk : wordSize ∣ k.toNat) :
    wordSize ∣ (n + k).toNat := by
  rw [UInt64.toNat_add, wordSize] at *
  omega

/-- A size is rounded up to whole words, unless there is no such size. -/
theorem toNat_align {n : UInt64} (h : alignUp n.toNat < 2 ^ 64) :
    (align n).toNat = alignUp n.toNat := by
  rw [alignUp, wordSize] at h ⊢
  rw [toNat_align_eq]
  omega

/-! ## Bytes -/

namespace Memory

@[simp] theorem size_overwrite (bytes : Array UInt8) (start : Nat) (bs : List UInt8) :
    (overwrite bytes start bs).size = bytes.size := by
  induction bs generalizing bytes start with
  | nil => rfl
  | cons b bs ih => rw [overwrite, ih, Array.size_setIfInBounds]

theorem getElem?_overwrite (bytes : Array UInt8) (start : Nat) (bs : List UInt8) (j : Nat) :
    (overwrite bytes start bs)[j]? =
      if start ≤ j ∧ j < start + bs.length ∧ j < bytes.size then bs[j - start]? else bytes[j]? := by
  induction bs generalizing bytes start with
  | nil =>
    rw [overwrite, if_neg]
    rw [List.length_nil]
    omega
  | cons b bs ih =>
    rw [overwrite, ih, Array.size_setIfInBounds, List.length_cons, Array.getElem?_setIfInBounds]
    by_cases hj : start = j
    · subst hj
      by_cases hsize : start < bytes.size
      · rw [if_neg (by omega), if_pos rfl, if_pos hsize, if_pos (by omega), Nat.sub_self]
        rfl
      · rw [if_neg (by omega), if_pos rfl, if_neg hsize, if_neg (by omega)]
        exact (Array.getElem?_eq_none (by omega)).symm
    · rw [if_neg hj]
      by_cases hin : start + 1 ≤ j ∧ j < start + 1 + bs.length ∧ j < bytes.size
      · rw [if_pos hin, if_pos (by omega), show j - start = j - (start + 1) + 1 by omega,
          List.getElem?_cons_succ]
      · rw [if_neg hin, if_neg (by omega)]

theorem getElem?_slice (m : Memory) (start length j : Nat) :
    (m.slice start length)[j]? = if j < length then m.bytes[start + j]? else none := by
  rw [slice, Array.getElem?_toList, Array.getElem?_extract]
  by_cases hj : j < length
  · by_cases hsize : start + j < m.bytes.size
    · rw [if_pos (by omega), if_pos hj]
    · rw [if_neg (by omega), if_pos hj, Array.getElem?_eq_none (by omega)]
  · rw [if_neg (by omega), if_neg hj]

section Putting

variable {m : Memory} {start start' length : Nat} {bs : List UInt8}

@[simp] theorem size_put : (m.put start bs).bytes.size = m.bytes.size := size_overwrite _ _ _

@[simp] theorem stackBase_put : (m.put start bs).stackBase = m.stackBase := rfl

theorem put_parts {m' : Memory} (h : ∃ bytes, m' = { m with bytes }) :
    ∃ bytes, m'.put start bs = { m with bytes } := by
  obtain ⟨bytes, rfl⟩ := h
  exact ⟨_, rfl⟩

theorem slice_put_self (h : start + bs.length ≤ m.bytes.size) :
    (m.put start bs).slice start bs.length = bs := by
  apply List.ext_getElem?
  intro k
  rw [getElem?_slice]
  by_cases hk : k < bs.length
  · rw [if_pos hk, put, getElem?_overwrite, if_pos (by omega), Nat.add_sub_cancel_left]
  · rw [if_neg hk, List.getElem?_eq_none (by omega)]

theorem slice_put_of_disjoint (h : start' + length ≤ start ∨ start + bs.length ≤ start') :
    (m.put start bs).slice start' length = m.slice start' length := by
  apply List.ext_getElem?
  intro k
  rw [getElem?_slice, getElem?_slice]
  by_cases hk : k < length
  · rw [if_pos hk, if_pos hk, put, getElem?_overwrite, if_neg (by omega)]
  · rw [if_neg hk, if_neg hk]

theorem getElem?_put (k : Nat) : (m.put start bs).bytes[k]? =
    if start ≤ k ∧ k < start + bs.length ∧ k < m.bytes.size then bs[k - start]? else m.bytes[k]? :=
  getElem?_overwrite _ _ _ _

end Putting

/-! ## Regions -/

section Regions

variable (data : Array UInt8) (limits : Limits)

/-- How many bytes the data and the stack of a program ask for. -/
def extent : Nat := alignUp (max limits.data.toNat data.size) + alignUp limits.stack.toNat

variable {data limits} (h : extent data limits < 2 ^ 64)

include h

theorem toNat_align_stack : (align limits.stack).toNat = alignUp limits.stack.toNat := by
  rw [extent] at h
  exact toNat_align (by omega)

theorem toNat_align_data :
    (align (max limits.data (UInt64.ofNat data.size))).toNat =
      alignUp (max limits.data.toNat data.size) := by
  have hle := le_alignUp (max limits.data.toNat data.size)
  rw [extent] at h
  have hsize : (UInt64.ofNat data.size).toNat = data.size := by
    rw [UInt64.toNat_ofNat']
    omega
  have hmax : (max limits.data (UInt64.ofNat data.size)).toNat =
      max limits.data.toNat data.size := by
    rw [UInt64.max_def, Nat.max_def]
    simp only [UInt64.le_iff_toNat_le, hsize]
    split_ifs
    · exact hsize
    · rfl
  rw [toNat_align, hmax]
  rw [hmax]
  omega

theorem stackBase_ofData :
    (ofData data limits).stackBase = dataBase + alignUp (max limits.data.toNat data.size) := by
  rw [ofData, toNat_align_data h]

theorem toNat_regions :
    (align (max limits.data (UInt64.ofNat data.size)) + align limits.stack).toNat =
      extent data limits := by
  rw [UInt64.toNat_add, toNat_align_data h, toNat_align_stack h, ← extent, Nat.mod_eq_of_lt h]

theorem stackTop_ofData : (ofData data limits).stackTop = dataBase + extent data limits := by
  rw [ofData, toNat_regions h]

/-- The data are the first bytes. -/
theorem getElem?_ofData_of_lt {j : Nat} (hj : j < data.size) :
    (ofData data limits).bytes[j]? = data[j]? := by
  have hle := le_alignUp (max limits.data.toNat data.size)
  have hsize : data.size ≤ extent data limits := by
    rw [extent]
    omega
  rw [ofData, toNat_regions h, getElem?_overwrite, Array.size_replicate, Array.length_toList,
    Nat.sub_zero, if_pos (by omega), Array.getElem?_toList]

theorem stackBase_le_stackTop : (ofData data limits).stackBase ≤ (ofData data limits).stackTop := by
  rw [stackBase_ofData h, stackTop_ofData h, extent]
  omega

end Regions

theorem size_ofData (data : Array UInt8) (limits : Limits) :
    dataBase + (ofData data limits).bytes.size = (ofData data limits).stackTop := by
  rw [ofData, size_overwrite, Array.size_replicate]

/-! ## Ranges -/

variable {m : Memory} {a : Word}

/-- The index of the first byte of a range that lies in memory. -/
def offset? (m : Memory) (address : Word) (length : Nat) : Option Nat :=
  let start := address.toInt - dataBase
  if 0 ≤ start ∧ start.toNat + length ≤ m.bytes.size then some start.toNat else none

theorem offset?_eq_some {length start : Nat} (h : m.offset? a length = some start) :
    (start : Int) = a.toInt - dataBase ∧ start + length ≤ m.bytes.size := by
  rw [offset?] at h
  split_ifs at h with hin
  obtain rfl := Option.some.inj h
  exact ⟨Int.toNat_of_nonneg hin.1, hin.2⟩

@[simp] theorem offset?_put {start length : Nat} {bs : List UInt8} :
    (m.put start bs).offset? a length = m.offset? a length := by
  simp only [offset?, size_put]

theorem offset?_of_toInt {k length : Nat} (ha : a.toInt = dataBase + k)
    (hk : k + length ≤ m.bytes.size) :
    m.offset? a length = some k := by
  have hk' : a.toInt - dataBase = k := by omega
  rw [offset?, hk']
  simpa using hk

/-- What is found in an address space that begins at the lowest address. -/
theorem checkedSub_dataBase (a : Word) :
    (a.checkedSub (Word.ofNat dataBase)).bind Word.toSize? =
      if (dataBase : Int) ≤ a.toInt then some (UInt64.ofNat (a.toInt - dataBase).toNat)
      else none := by
  have hlt := a.toInt_lt
  have hbase : (Word.ofNat dataBase).toInt = dataBase := Word.toInt_ofNat (by decide)
  have hpos : 0 < dataBase := by decide
  split_ifs with hlow
  · have hdifference : (Int64.ofInt (a.toInt - dataBase)).toInt = a.toInt - dataBase := by
      rw [Int64.toInt_ofInt]
      exact Int.bmod_eq_of_le (by simp only [Int64.size]; omega) (by simp only [Int64.size]; omega)
    rw [Word.checkedSub_eq_some.mpr (by rw [hdifference, hbase]), Option.bind_some,
      Word.toSize?_eq_some, hdifference, UInt64.toNat_ofNat']
    omega
  · rw [Option.bind_eq_none_iff]
    intro d hd
    rw [Word.checkedSub_eq_some, hbase] at hd
    rw [Option.eq_none_iff_forall_ne_some]
    intro n hn
    rw [Word.toSize?_eq_some] at hn
    omega

/-- The checks come to the same as those of unbounded integers. A length is no more than the
greatest word has. -/
theorem index_eq {n : UInt64} (hn : n.toNat ≤ 2 ^ 63) :
    m.index a n =
      match m.offset? a n.toNat with
      | some start => .ok start
      | none => .error (.segfault a n.toNat) := by
  have hlt := a.toInt_lt
  rw [index, checkedSub_dataBase, offset?]
  by_cases hlow : (dataBase : Int) ≤ a.toInt
  · obtain ⟨start, hstart⟩ : ∃ start : Nat, a.toInt - dataBase = start :=
      ⟨(a.toInt - dataBase).toNat, by omega⟩
    have hnat : (UInt64.ofNat start).toNat = start := by
      rw [UInt64.toNat_ofNat']
      omega
    have hsum : checkedAdd (UInt64.ofNat start) n = some (UInt64.ofNat (start + n.toNat)) := by
      rw [checkedAdd_eq_some, hnat, UInt64.toNat_ofNat']
      omega
    have hstop : (UInt64.ofNat (start + n.toNat)).toNat = start + n.toNat := by
      rw [UInt64.toNat_ofNat']
      omega
    simp only [if_pos hlow, hstart, Int.toNat_natCast, hsum, hstop, hnat]
    by_cases hin : start + n.toNat ≤ m.bytes.size
    · rw [if_pos hin, if_pos ⟨by omega, hin⟩]
    · rw [if_neg hin, if_neg fun h => hin h.2]
  · have hout : ¬(0 ≤ a.toInt - dataBase ∧
        (a.toInt - dataBase).toNat + n.toNat ≤ m.bytes.size) := by omega
    simp only [if_neg hlow, if_neg hout]

/-! ## Accesses -/

theorem read_ofNat {n : Nat} (hn : n ≤ 2 ^ 63) :
    m.read a (UInt64.ofNat n) =
      match m.offset? a n with
      | some start => .ok (m.slice start n)
      | none => .error (.segfault a n) := by
  have hnat : (UInt64.ofNat n).toNat = n := by
    rw [UInt64.toNat_ofNat']
    omega
  rw [read, index_eq (by omega), hnat]
  cases m.offset? a n <;> rfl

theorem loadWord_eq (m : Memory) (a : Word) :
    m.loadWord a =
      match m.offset? a wordSize with
      | some start => .ok (Word.ofBytes (m.slice start wordSize))
      | none => .error (.segfault a wordSize) := by
  rw [loadWord, read_ofNat (by decide)]
  cases m.offset? a wordSize <;> rfl

theorem loadByte_eq (m : Memory) (a : Word) :
    m.loadByte a =
      match m.offset? a 1 with
      | some start => .ok (Word.ofByte ((m.slice start 1).headD 0))
      | none => .error (.segfault a 1) := by
  rw [loadByte, show (1 : UInt64) = UInt64.ofNat 1 from rfl, read_ofNat (by decide)]
  cases m.offset? a 1 <;> rfl

theorem write_apply {bs : List UInt8} (h : bs.length ≤ 2 ^ 63) :
    write a bs m =
      match m.offset? a bs.length with
      | some start => .ok () (m.put start bs)
      | none => .error (.segfault a bs.length) m := by
  have hnat : (UInt64.ofNat bs.length).toNat = bs.length := by
    rw [UInt64.toNat_ofNat']
    omega
  show EStateM.bind (look _) _ m = _
  rw [EStateM.bind, look, index_eq (by omega), hnat]
  cases m.offset? a bs.length <;> rfl

theorem storeWord_apply (v : Word) :
    storeWord a v m =
      match m.offset? a wordSize with
      | some start => .ok () (m.put start v.toBytes)
      | none => .error (.segfault a wordSize) m := by
  rw [storeWord, write_apply (by rw [Word.length_toBytes]; decide), Word.length_toBytes]

theorem cstring_eq (m : Memory) (a : Word) :
    m.cstring a =
      match m.offset? a 0 with
      | none => .error (.segfault a 0)
      | some start =>
        match findNul? m.bytes start (m.bytes.size - start) with
        | some nul => .ok (m.slice start (nul - start))
        | none => .error (.segfault a (m.bytes.size - start + 1)) := by
  rw [cstring, index_eq (by decide)]
  cases hstart : m.offset? a 0 <;> simp only [UInt64.toNat_zero, hstart] <;> rfl

end Memory

end MiniC
