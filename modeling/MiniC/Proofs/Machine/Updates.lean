import MiniC.Proofs.Machine.Returns

/-!
# Code that changes an object by one step

`++` and `--` push the address of an object, load it, and store what they make of it. The postfix
forms do not keep the old value: they undo the step on what has been stored (`Reaches.postStep`).
For a word this gives the old value back. A byte that is stored is cut off, so at the edge of its
range undoing the step gives a value that is no byte at all (`postValue`).

All this is said of bytes at indices of memory, so that it holds for objects at any address.
-/

namespace MiniC

/-! ## Objects in memory -/

namespace Width

def size : Width → Nat
  | .byte => 1
  | .word => wordSize

/-- The bytes that a store writes. -/
def bytes (w : Width) (v : Word) : List UInt8 :=
  match w with
  | .byte => [v.lowByte]
  | .word => v.toBytes

/-- What a load makes of the bytes. -/
def value (w : Width) (bytes : List UInt8) : Word :=
  match w with
  | .byte => Word.ofByte (bytes.headD 0)
  | .word => Word.ofBytes bytes

/-- What is left of a value that is stored. -/
def wrap (w : Width) (v : Word) : Word :=
  match w with
  | .byte => Word.ofByte v.lowByte
  | .word => v

@[simp] theorem length_bytes (w : Width) (v : Word) : (w.bytes v).length = w.size := by
  cases w with
  | byte => rfl
  | word => exact Word.length_toBytes v

@[simp] theorem value_bytes (w : Width) (v : Word) : w.value (w.bytes v) = w.wrap v := by
  cases w with
  | byte => rfl
  | word => exact Word.ofBytes_toBytes v

end Width

namespace Memory

variable {m : Memory} {a : Word} {start start' length : Nat} {bs : List UInt8}

-- Comparing a changed memory with another one is never done by unfolding.
attribute [local irreducible] put

/-- Loads an object. -/
def load (m : Memory) (width : Width) (address : Word) : Except Fault Word :=
  match width with
  | .byte => m.loadByte address
  | .word => m.loadWord address

theorem load_eq {w : Width} (h : m.offset? a w.size = some start) :
    m.load w a = .ok (w.value (m.slice start w.size)) := by
  cases w with
  | byte => rw [load, loadByte_eq, show m.offset? a 1 = some start from h]; rfl
  | word => rw [load, loadWord_eq, show m.offset? a wordSize = some start from h]; rfl

/-- A value is stored at an index, and of all other bytes those of two words from another index on
may have changed. -/
structure StoredAt (m m' : Memory) (low start : Nat) (w : Width) (v : Word) : Prop where
  parts : ∃ bytes, m' = { m with bytes }
  size : m'.bytes.size = m.bytes.size
  slice : m'.slice start w.size = w.bytes v
  kept : ∀ k, ¬(start ≤ k ∧ k < start + w.size) → ¬(low ≤ k ∧ k < low + 2 * wordSize) →
    m'.bytes[k]? = m.bytes[k]?

theorem StoredAt.load {m' : Memory} {low : Nat} {w : Width} {v : Word}
    (h : StoredAt m m' low start w v) (hin : m.offset? a w.size = some start) :
    m'.load w a = .ok (w.wrap v) := by
  have hin' : m'.offset? a w.size = some start := by
    rw [← hin]
    simp only [offset?, h.size]
  rw [load_eq hin', h.slice, Width.value_bytes]

/-- Memory in which two words have been pushed, the value has been stored and another word has been
pushed over the first. -/
theorem storedAt_put {low : Nat} {w : Width} {v x y z : Word}
    (hsize : start + w.size ≤ m.bytes.size)
    (hapart : start + w.size ≤ low ∨ low + 2 * wordSize ≤ start) :
    StoredAt m ((((m.put (low + wordSize) x.toBytes).put low y.toBytes).put start (w.bytes v)).put
      (low + wordSize) z.toBytes) low start w v where
  parts := put_parts (put_parts (put_parts (put_parts ⟨_, rfl⟩)))
  size := by simp only [size_put]
  slice := by
    rw [slice_put_of_disjoint (by rw [Word.length_toBytes]; omega), ← Width.length_bytes w v]
    exact slice_put_self (by simp only [size_put, Width.length_bytes]; omega)
  kept k hobject hstack := by
    simp only [getElem?_put, Word.length_toBytes, Width.length_bytes]
    rw [if_neg (by omega), if_neg (by omega), if_neg (by omega), if_neg (by omega)]

end Memory

namespace Machine

open Setting (bind_ok get_ok modify_ok)

/-! ## Running straight code -/

/-- A block of code stands at an index. -/
def CodeAt (loaded : Loaded) (index : Nat) (block : List Instr) : Prop :=
  block <+: loaded.code.toList.drop index

namespace CodeAt

variable {loaded : Loaded} {index : Nat} {i : Instr} {block block' : List Instr}

theorem head (h : CodeAt loaded index (i :: block)) : loaded.code[index]? = some i := by
  obtain ⟨rest, hrest⟩ := h
  rw [← Array.getElem?_toList, ← List.head?_drop, ← hrest]
  rfl

theorem tail (h : CodeAt loaded index (i :: block)) : CodeAt loaded (index + 1) block := by
  obtain ⟨rest, hrest⟩ := h
  refine ⟨rest, ?_⟩
  rw [← List.tail_drop, ← hrest]
  rfl

end CodeAt

/-- After `count` steps the machine `s` is the machine `s'`, however long it runs on. -/
def Reaches (loaded : Loaded) (count : Nat) (s s' : Machine) : Prop :=
  ∀ fuel, run loaded (fuel + count) s = run loaded fuel s'

/-- The machine after some steps through straight code, which change no more than the given parts.
-/
def onward (s : Machine) (count : Nat) (sp acc : Word) (memory : Memory) : Machine :=
  { s with acc, sp, memory, pc := s.pc + count, cycle := s.cycle + count }

theorem pop_of_slice {s : Machine} {k : Nat} {v : Word} (hsp : s.sp.toInt = dataBase + k)
    (hsize : k + wordSize ≤ s.memory.bytes.size) (hslice : s.memory.slice k wordSize = v.toBytes) :
    pop s = .ok v { s with sp := wordsAbove s.sp 1 } := by
  have hload : s.memory.loadWord s.sp = .ok v := by
    have := Memory.load_eq (w := .word) (Memory.offset?_of_toInt hsp hsize)
    rwa [show Width.word.size = wordSize from rfl, hslice, Width.value,
      Word.ofBytes_toBytes] at this
  rw [pop, bind_ok (get_ok s), bind_ok (loadWord_eq_ok.mpr ⟨hload, rfl⟩)]
  rfl

namespace Reaches

variable {loaded : Loaded} {s : Machine} {n k : Nat} {sp acc : Word} {m : Memory} {i : Instr}
  {block : List Instr}

theorem refl : Reaches loaded 0 s (s.onward 0 s.sp s.acc s.memory) := fun _ => rfl

section Instructions

-- Each rule is about one more instruction behind `n` others.
variable (htrace : loaded.trace = false) (h : Reaches loaded n s (s.onward n sp acc m))

include htrace h

/-- One more step, which is not traced. -/
theorem next {s' : Machine} (hcode : CodeAt loaded (s.pc + n) (i :: block))
    (hexec : ∀ fuel, execute loaded fuel i (s.onward (n + 1) sp acc m) = .ok () s') :
    Reaches loaded (n + 1) s s' := by
  intro fuel
  have hstep : step loaded fuel (s.onward n sp acc m) =
      execute loaded fuel i (s.onward (n + 1) sp acc m) := by
    have hget : loaded.code[(s.onward n sp acc m).pc]? = some i := hcode.head
    rw [step, bind_ok (get_ok _), hget]
    dsimp only
    rw [bind_ok (modify_ok _ _), htrace]
    rfl
  rw [Nat.add_comm n, ← Nat.add_assoc, h, run, hstep, hexec]

theorem imm {v : Word} (hcode : CodeAt loaded (s.pc + n) (.imm v :: block)) :
    Reaches loaded (n + 1) s (s.onward (n + 1) sp v m) :=
  h.next htrace hcode fun _ => rfl

theorem push (hcode : CodeAt loaded (s.pc + n) (.push :: block))
    (hsp : (wordsAbove sp (-1)).toInt = dataBase + k)
    (hroom : Word.ofNat m.stackBase ≤ wordsAbove sp (-1))
    (hsize : k + wordSize ≤ m.bytes.size) :
    Reaches loaded (n + 1) s (s.onward (n + 1) (wordsAbove sp (-1)) acc (m.put k acc.toBytes)) := by
  refine h.next htrace hcode fun fuel => ?_
  have hwrite : Memory.storeWord (wordsAbove sp (-1)) acc m = .ok () (m.put k acc.toBytes) := by
    rw [Memory.storeWord_apply, Memory.offset?_of_toInt hsp hsize]
  rw [execute, bind_ok (get_ok _)]
  exact push_eq_ok.mpr ⟨hroom, _, hwrite, rfl⟩

theorem load {w : Width} (hcode : CodeAt loaded (s.pc + n) (.load w :: block))
    (hin : m.offset? acc w.size = some k) :
    Reaches loaded (n + 1) s (s.onward (n + 1) sp (w.value (m.slice k w.size)) m) := by
  refine h.next htrace hcode fun fuel => ?_
  have hload := Memory.load_eq hin
  rw [execute, Machine.load, bind_ok (get_ok _)]
  cases w with
  | byte =>
    show (ofExcept (m.load .byte acc) >>= setAcc) _ = _
    rw [hload]
    rfl
  | word =>
    show (ofExcept (m.load .word acc) >>= setAcc) _ = _
    rw [hload]
    rfl

theorem binary {op : BinOp} {v : Word} (hop : op.divides = false)
    (hcode : CodeAt loaded (s.pc + n) (.binary op :: block)) (hsp : sp.toInt = dataBase + k)
    (hsize : k + wordSize ≤ m.bytes.size) (hslice : m.slice k wordSize = v.toBytes) :
    Reaches loaded (n + 1) s (s.onward (n + 1) (wordsAbove sp 1) (op.apply v acc) m) := by
  refine h.next htrace hcode fun fuel => ?_
  have hpop := pop_of_slice (s := s.onward (n + 1) sp acc m) hsp hsize hslice
  rw [execute, Machine.binary, bind_ok hpop, bind_ok (get_ok _), hop]
  rfl

theorem store {w : Width} {a : Word} {start : Nat}
    (hcode : CodeAt loaded (s.pc + n) (.store w :: block)) (hsp : sp.toInt = dataBase + k)
    (hsize : k + wordSize ≤ m.bytes.size) (hslice : m.slice k wordSize = a.toBytes)
    (hin : m.offset? a w.size = some start) :
    Reaches loaded (n + 1) s
      (s.onward (n + 1) (wordsAbove sp 1) (w.wrap acc) (m.put start (w.bytes acc))) := by
  refine h.next htrace hcode fun fuel => ?_
  have hpop := pop_of_slice (s := s.onward (n + 1) sp acc m) hsp hsize hslice
  have hwrite : Memory.write a (w.bytes acc) m = .ok () (m.put start (w.bytes acc)) := by
    rw [Memory.write_apply (by rw [Width.length_bytes]; cases w <;> decide), Width.length_bytes,
      hin]
  rw [execute, Machine.store, bind_ok hpop, bind_ok (get_ok _)]
  cases w with
  | byte => exact bind_ok (a := ()) (changeMemory_eq_ok.mpr ⟨_, hwrite, rfl⟩)
  | word => exact changeMemory_eq_ok.mpr ⟨_, hwrite, rfl⟩

end Instructions

end Reaches

/-! ## Changing an object by one step -/

/-- Two more words fit on the stack. The lower one is at the index `low`. -/
structure HasRoom (s : Machine) (low : Nat) : Prop where
  sp_eq : s.sp.toInt = dataBase + low + 2 * wordSize
  base_le : s.memory.stackBase ≤ dataBase + low
  le_size : low + 2 * wordSize ≤ s.memory.bytes.size

/-- The memory behind a step: an address and the old value have been pushed, and the new value is in
its place. -/
def steppedMemory (m : Memory) (low start : Nat) (w : Width) (address old new : Word) : Memory :=
  ((m.put (low + wordSize) address.toBytes).put low old.toBytes).put start (w.bytes new)

namespace Reaches

variable {loaded : Loaded} {s : Machine} {low start : Nat} {t : CType} {u : Word} {op undo : BinOp}
  {block : List Instr}

/-- `++` or `--` in front of an object: the object, whose address is in the accumulator, is changed
by one step, and what has been stored is left. The object may lie anywhere but in the two words that
are pushed on the way. -/
theorem stepBy (htrace : loaded.trace = false) (hop : op.divides = false) (hroom : s.HasRoom low)
    (hin : s.memory.offset? s.acc t.width.size = some start)
    (hapart : start + t.width.size ≤ low ∨ low + 2 * wordSize ≤ start)
    (hload : s.memory.load t.width s.acc = .ok u)
    (hcode : CodeAt loaded s.pc (.push :: (Compile.stepBy t t.width op ++ block))) :
    Reaches loaded 6 s (s.onward 6 s.sp (t.width.wrap (op.apply u t.step))
      (steppedMemory s.memory low start t.width s.acc u (op.apply u t.step))) := by
  obtain ⟨hsp, hbase, hsize⟩ := hroom
  have hlength : ∀ w : Word, w.toBytes.length = wordSize := Word.length_toBytes
  have hsp₁ : (wordsAbove s.sp (-1)).toInt = dataBase + (low + wordSize : Nat) := by
    have := toInt_wordsAbove_neg_one (a := s.sp) (by omega)
    push_cast
    omega
  have hsp₂ : (wordsAbove (wordsAbove s.sp (-1)) (-1)).toInt = dataBase + low := by
    have := toInt_wordsAbove_neg_one (a := wordsAbove s.sp (-1)) (by omega)
    push_cast at hsp₁
    omega
  -- what is pushed does not touch the object, nor does one word that is pushed touch the other
  have hvalue : t.width.value ((s.memory.put (low + wordSize) s.acc.toBytes).slice start
      t.width.size) = u := by
    rw [Memory.slice_put_of_disjoint (by rw [hlength]; omega)]
    rw [Memory.load_eq hin] at hload
    exact Except.ok.inj hload
  have hold : ((s.memory.put (low + wordSize) s.acc.toBytes).put low u.toBytes).slice low wordSize =
      u.toBytes := by
    rw [← hlength u]
    exact Memory.slice_put_self (by rw [hlength, Memory.size_put]; omega)
  have haddress : ((s.memory.put (low + wordSize) s.acc.toBytes).put low u.toBytes).slice
      (low + wordSize) wordSize = s.acc.toBytes := by
    rw [Memory.slice_put_of_disjoint (by rw [hlength]; omega)]
    nth_rewrite 2 [← hlength s.acc]
    exact Memory.slice_put_self (by rw [hlength]; omega)
  have hin₁ : (s.memory.put (low + wordSize) s.acc.toBytes).offset? s.acc t.width.size =
      some start := by rw [Memory.offset?_put, hin]
  have hin₂ : ((s.memory.put (low + wordSize) s.acc.toBytes).put low u.toBytes).offset? s.acc
      t.width.size = some start := by rw [Memory.offset?_put, hin₁]
  have h₁ := refl.push htrace hcode hsp₁ (Word.ofNat_le (by omega)) (by omega)
  have h₂ := h₁.load htrace hcode.tail hin₁
  rw [hvalue] at h₂
  have h₃ := h₂.push htrace hcode.tail.tail hsp₂
    (Word.ofNat_le (by rw [Memory.stackBase_put]; omega))
    (by rw [Memory.size_put]; omega)
  have h₄ := h₃.imm htrace hcode.tail.tail.tail
  have h₅ := h₄.binary htrace hop hcode.tail.tail.tail.tail hsp₂
    (by rw [Memory.size_put, Memory.size_put]; omega) hold
  rw [wordsAbove_neg_one_one] at h₅
  have h₆ := h₅.store htrace hcode.tail.tail.tail.tail.tail hsp₁
    (by rw [Memory.size_put, Memory.size_put]; omega) haddress hin₂
  rwa [wordsAbove_neg_one_one] at h₆

/-- `++` or `--` behind an object: the step is undone on what has been stored. -/
theorem postStep (htrace : loaded.trace = false) (hop : op.divides = false)
    (hundo : undo.divides = false) (hroom : s.HasRoom low)
    (hin : s.memory.offset? s.acc t.width.size = some start)
    (hapart : start + t.width.size ≤ low ∨ low + 2 * wordSize ≤ start)
    (hload : s.memory.load t.width s.acc = .ok u)
    (hcode : CodeAt loaded s.pc (.push :: (Compile.stepBy t t.width op ++
      .push :: .imm t.step :: .binary undo :: block))) :
    Reaches loaded 9 s (s.onward 9 s.sp
      (undo.apply (t.width.wrap (op.apply u t.step)) t.step)
      ((steppedMemory s.memory low start t.width s.acc u (op.apply u t.step)).put (low + wordSize)
        (t.width.wrap (op.apply u t.step)).toBytes)) := by
  have h₆ := stepBy htrace hop hroom hin hapart hload hcode
  obtain ⟨hsp, hbase, hsize⟩ := hroom
  generalize t.width.wrap (op.apply u t.step) = new at h₆ ⊢
  have hstepped :
      (steppedMemory s.memory low start t.width s.acc u (op.apply u t.step)).bytes.size =
      s.memory.bytes.size := by
    rw [steppedMemory, Memory.size_put, Memory.size_put, Memory.size_put]
  have hbase' : (steppedMemory s.memory low start t.width s.acc u (op.apply u t.step)).stackBase =
      s.memory.stackBase := by
    rw [steppedMemory, Memory.stackBase_put, Memory.stackBase_put, Memory.stackBase_put]
  generalize steppedMemory s.memory low start t.width s.acc u (op.apply u t.step) = m at *
  have hsp₁ : (wordsAbove s.sp (-1)).toInt = dataBase + (low + wordSize : Nat) := by
    have := toInt_wordsAbove_neg_one (a := s.sp) (by omega)
    push_cast
    omega
  have hnew :
      (m.put (low + wordSize) new.toBytes).slice (low + wordSize) wordSize = new.toBytes := by
    nth_rewrite 2 [← Word.length_toBytes new]
    exact Memory.slice_put_self (by rw [Word.length_toBytes]; omega)
  have hcode' := hcode.tail.tail.tail.tail.tail.tail
  have h₇ := h₆.push htrace hcode' hsp₁ (Word.ofNat_le (by omega)) (by omega)
  have h₈ := h₇.imm htrace hcode'.tail
  have h₉ := h₈.binary htrace hundo hcode'.tail.tail hsp₁ (by rw [Memory.size_put]; omega) hnew
  rwa [wordsAbove_neg_one_one] at h₉

end Reaches

end Machine

/-! ## Values behind a step -/

/-- The value that an object has behind a step. -/
def CType.stepped (t : CType) (op : BinOp) (old : Word) : Word := t.width.wrap (op.apply old t.step)

/-- What a postfix operator leaves, which ought to be the old value. Behind the last value of a byte
the step ends on the other side, and undoing it leads further away. -/
def CType.postValue (t : CType) (op : BinOp) (old : Word) : Word :=
  if t = .char ∧ op = .add ∧ old = 127 then -129
  else if t = .char ∧ op = .sub ∧ old = -128 then 128
  else old

/-- `++` and `--`, by what they do and how it is undone. -/
def BinOp.Undoes (undo op : BinOp) : Prop := op = .add ∧ undo = .sub ∨ op = .sub ∧ undo = .add

theorem Word.undo_ofByte (b : UInt8) :
    ofByte (ofByte b + 1).lowByte - 1 = (if ofByte b = 127 then -129 else ofByte b) ∧
    ofByte (ofByte b - 1).lowByte + 1 = (if ofByte b = -128 then 128 else ofByte b) := by
  have hall : ∀ n : Fin 256, ∀ w, w = ofByte (UInt8.ofNat n) →
      ofByte (w + 1).lowByte - 1 = (if w = 127 then -129 else w) ∧
      ofByte (w - 1).lowByte + 1 = (if w = -128 then 128 else w) := by
    rintro n _ rfl
    revert n
    decide +kernel
  exact hall ⟨b.toNat, b.toNat_lt⟩ _ (by rw [UInt8.ofNat_toNat])

theorem Memory.load_byte {m : Memory} {a u : Word} (h : m.load .byte a = .ok u) :
    ∃ b, u = Word.ofByte b := by
  rw [load, loadByte] at h
  cases hread : m.read a 1 with
  | error f => simp [hread, Except.map] at h
  | ok bytes =>
    simp only [hread, Except.map, Except.ok.injEq] at h
    exact ⟨_, h.symm⟩

theorem CType.width_eq_byte {t : CType} : t.width = .byte ↔ t = .char := by
  rw [width]
  split_ifs with h <;> simp [h]

/-- Undoing a step gives the old value, except behind the last value of a byte. -/
theorem CType.undo_stepped {t : CType} {op undo : BinOp} {m : Memory} {a u : Word}
    (hundo : undo.Undoes op) (hload : m.load t.width a = .ok u) :
    undo.apply (t.stepped op u) t.step = t.postValue op u := by
  rw [stepped, postValue]
  by_cases hchar : t = .char
  · subst hchar
    obtain ⟨b, rfl⟩ := Memory.load_byte hload
    obtain ⟨hadd, hsub⟩ := Word.undo_ofByte b
    rcases hundo with ⟨rfl, rfl⟩ | ⟨rfl, rfl⟩
    · exact Eq.trans hadd (by simp)
    · exact Eq.trans hsub (by simp)
  · have hword : t.width = .word := by
      cases hw : t.width with
      | byte => exact absurd (width_eq_byte.mp hw) hchar
      | word => rfl
    rw [hword, if_neg (by simp [hchar]), if_neg (by simp [hchar])]
    rcases hundo with ⟨rfl, rfl⟩ | ⟨rfl, rfl⟩
    · exact Int64.add_sub_cancel u t.step
    · exact Int64.sub_add_cancel u t.step

end MiniC
