import MiniC.Machine
import MiniC.Proofs.Machine.Ranges

/-!
# Memory as cells

Code for `int` variables reads and writes whole words at multiples of the word size. Such an address
is `addr i` for the cell with number `i`, and memory is what its cells hold: a cell that is written
holds what was written to it (`Memory.cell_setCell_self`), and all other cells keep what they held
(`Memory.cell_setCell_of_ne`).
-/

namespace MiniC

/-! ## Addresses -/

/-- The address of the cell with number `i`. -/
def addr (i : Int) : Word := Int64.ofInt (wordSize * i)

theorem wordsAbove_addr (i : Int) (count : Word) :
    Machine.wordsAbove (addr i) count = addr (i + count.toInt) := by
  rw [Machine.wordsAbove, addr, addr, mul_add, Int64.ofInt_add, Int64.ofInt_mul _ count.toInt,
    Int64.ofInt_toInt, Word.ofNat, Int64.ofInt_eq_ofNat, Int64.mul_comm]

theorem wordsAbove_addr_one (i : Int) : Machine.wordsAbove (addr i) 1 = addr (i + 1) := by
  rw [wordsAbove_addr, show (1 : Word).toInt = 1 by decide]

theorem wordsAbove_addr_neg_one (i : Int) : Machine.wordsAbove (addr i) (-1) = addr (i - 1) := by
  rw [wordsAbove_addr, show (-1 : Word).toInt = -1 by decide, ← sub_eq_add_neg]

theorem toInt_addr {i : Int} (h : -2 ^ 60 ≤ i) (h' : i < 2 ^ 60) : (addr i).toInt = 8 * i := by
  rw [addr, Int64.toInt_ofInt, wordSize]
  exact Int.bmod_eq_of_le (by simp only [Int64.size]; omega) (by simp only [Int64.size]; omega)

/-! ## Cells -/

/-- The number of the cell at the lowest address. -/
def firstCell : Int := 8192

theorem dataBase_pos : 0 < dataBase := by decide

theorem dataBase_eq : (dataBase : Int) = 8 * firstCell := rfl

theorem ofNat_dataBase_add (k : Nat) :
    Word.ofNat (dataBase + wordSize * k) = addr (firstCell + k) := by
  rw [Word.ofNat, addr, ← Int64.ofInt_eq_ofNat, Nat.cast_add, Nat.cast_mul, dataBase_eq, mul_add]
  rfl

/-- The index of the first byte of a cell. -/
def cellIndex (i : Int) : Nat := (8 * (i - firstCell)).toNat

namespace Memory

variable {m : Memory} {i j : Int}

/-- What a cell holds. -/
def cell (m : Memory) (i : Int) : Word := Word.ofBytes (m.slice (cellIndex i) wordSize)

/-- Memory with another word in a cell. -/
def setCell (m : Memory) (i : Int) (w : Word) : Memory :=
  { m with bytes := overwrite m.bytes (cellIndex i) w.toBytes }

@[simp] theorem size_setCell (m : Memory) (i : Int) (w : Word) :
    (m.setCell i w).bytes.size = m.bytes.size := by
  simp only [setCell, size_overwrite]

@[simp] theorem stackBase_setCell (m : Memory) (i : Int) (w : Word) :
    (m.setCell i w).stackBase = m.stackBase := by
  simp only [setCell]

/-- Whether the cell lies in memory, at an address that is no negative number. -/
structure HasCell (m : Memory) (i : Int) : Prop where
  first_le : firstCell ≤ i
  lt : i < 2 ^ 60
  le_size : 8 * (i + 1) ≤ dataBase + m.bytes.size

theorem offset?_addr (h : m.HasCell i) : m.offset? (addr i) wordSize = some (cellIndex i) := by
  have hfirst := h.first_le
  have hsize := h.le_size
  have hlt := h.lt
  rw [offset?, toInt_addr (by rw [firstCell] at hfirst; omega) hlt, dataBase_eq, ← mul_sub,
    if_pos]
  · rfl
  · rw [dataBase_eq] at hsize
    rw [wordSize]
    omega

theorem loadWord_addr (h : m.HasCell i) : m.loadWord (addr i) = .ok (m.cell i) := by
  rw [loadWord, read_ofNat (by decide), offset?_addr h]
  rfl

theorem storeWord_addr (h : m.HasCell i) (w : Word) :
    storeWord (addr i) w m = .ok () (m.setCell i w) := by
  rw [storeWord_apply, offset?_addr h]
  rfl

theorem cell_setCell_self (h : m.HasCell i) (w : Word) : (m.setCell i w).cell i = w := by
  have hsize := h.le_size
  have hfirst := h.first_le
  have hslice : (m.setCell i w).slice (cellIndex i) wordSize = w.toBytes := by
    apply List.ext_getElem?
    intro k
    rw [getElem?_slice]
    by_cases hk : k < wordSize
    · rw [if_pos hk, setCell, getElem?_overwrite, if_pos, Nat.add_sub_cancel_left]
      rw [Word.length_toBytes]
      rw [dataBase_eq] at hsize
      rw [wordSize] at hk ⊢
      rw [cellIndex]
      omega
    · rw [if_neg hk, List.getElem?_eq_none]
      rw [Word.length_toBytes]
      omega
  rw [cell, hslice, Word.ofBytes_toBytes]

theorem cell_setCell_of_ne (hi : firstCell ≤ i) (hj : firstCell ≤ j) (h : j ≠ i) (w : Word) :
    (m.setCell i w).cell j = m.cell j := by
  have hslice : (m.setCell i w).slice (cellIndex j) wordSize = m.slice (cellIndex j) wordSize := by
    apply List.ext_getElem?
    intro k
    rw [getElem?_slice, getElem?_slice]
    by_cases hk : k < wordSize
    · rw [if_pos hk, if_pos hk, setCell, getElem?_overwrite, if_neg]
      rw [Word.length_toBytes]
      rw [wordSize] at hk ⊢
      simp only [cellIndex]
      omega
    · rw [if_neg hk, if_neg hk]
  rw [cell, hslice, cell]

-- Comparing a changed memory with another one is never done by unfolding.
attribute [irreducible] setCell

end Memory

end MiniC
