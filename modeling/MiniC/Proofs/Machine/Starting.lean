import MiniC.Machine.Start
import MiniC.Proofs.Heap.Contents
import MiniC.Proofs.Machine.Views

/-!
# How programs start

Before a program runs, its arguments are put on the heap. Every block for them lies behind all that
was there (`Memory.Extends`), so the cells of the data and of the stack are not touched. A program
whose data are zeros starts with zeros in all of these cells but for what the entry point is called
with, unless the stack is too small for that (`Program.run_of_ends`).
-/

namespace MiniC

/-! ## Memory that grows -/

namespace Memory

variable {m m' m'' : Memory} {kept kept' more more' : Nat}

/-- Memory with more bytes at its end, in which the first bytes are kept. -/
structure Extends (m m' : Memory) (kept more : Nat) : Prop where
  size : m'.bytes.size = m.bytes.size + more
  below : ∀ j < kept, m'.bytes[j]? = m.bytes[j]?
  regions : m.SameRegions m'
  freed : m'.freed = m.freed

theorem Extends.trans (h : m.Extends m' kept more) (h' : m'.Extends m'' kept' more')
    (hkept : kept ≤ kept') : m.Extends m'' kept (more + more') where
  size := by rw [h'.size, h.size, Nat.add_assoc]
  below := fun j hj => (h'.below j (Nat.lt_of_lt_of_le hj hkept)).trans (h.below j hj)
  regions := ⟨h'.regions.stackBase.trans h.regions.stackBase,
    h'.regions.stackTop.trans h.regions.stackTop, h'.regions.heapLimit.trans h.regions.heapLimit⟩
  freed := h'.freed.trans h.freed

/-- Whether the heap can grow by a number of bytes, with no address negative. -/
structure Room (m : Memory) (more : Nat) : Prop where
  heap : m.heapSize + more ≤ m.heapLimit
  space : dataBase + m.bytes.size + more ≤ 2 ^ 63
  freed : m.freed = []

theorem Room.mono (h : m.Room more) (hle : more' ≤ more) : m.Room more' where
  heap := by
    have hheap := h.heap
    omega
  space := by
    have hspace := h.space
    omega
  freed := h.freed

theorem Room.after (h : m.Room (more + more')) (hext : m.Extends m' kept more) : m'.Room more' where
  heap := by
    have hheap := h.heap
    rw [heapSize] at hheap ⊢
    rw [hext.size, hext.regions.stackTop, hext.regions.heapLimit]
    omega
  space := by
    have hspace := h.space
    rw [hext.size]
    omega
  freed := hext.freed.trans h.freed

theorem malloc_of_room {size : Nat} (h : m.Room (alignUp size)) (hsize : 0 < size) :
    ∃ m', m.malloc (Word.ofNat size) = (Word.ofNat (dataBase + m.bytes.size), m') ∧
      m.Extends m' m.bytes.size (alignUp size) := by
  have hspace := h.space
  have hbase := dataBase_pos
  have hle := le_alignUp size
  have hint : (Word.ofNat size).toInt = size := Word.toInt_ofNat (by omega)
  have hpos : ¬ Word.ofNat size ≤ 0 := by
    rw [Int64.le_iff_toInt_le, hint, Int64.toInt_zero]
    omega
  have haligned : (align (Word.ofNat size).toUInt64).toNat = alignUp size := by
    rw [toNat_align_request hpos, hint, Int.toNat_natCast]
  have hreuse : m.reuse? (alignUp size) = none := by
    rw [reuse?, h.freed]
    rfl
  have hgrow : m.grow? (alignUp size) = some (⟨dataBase + m.bytes.size, alignUp size⟩, { m with
      bytes := m.bytes ++ Array.replicate (alignUp size) 0
      live := ⟨dataBase + m.bytes.size, alignUp size⟩ :: m.live }) := if_pos h.heap
  refine ⟨{ m with
    bytes := m.bytes ++ Array.replicate (alignUp size) 0
    live := ⟨dataBase + m.bytes.size, alignUp size⟩ :: m.live },
    ?_, ?_, ?_, ⟨rfl, rfl, rfl⟩, rfl⟩
  · rw [malloc, if_neg hpos, haligned, allocate?, hreuse, hgrow]
  · rw [Array.size_append, Array.size_replicate]
  · exact fun j hj => Array.getElem?_append_left hj

theorem write_of_le (bytes : List UInt8) {k : Nat} (hlength : bytes.length ≤ 2 ^ 63)
    (hle : k + bytes.length ≤ m.bytes.size) (hspace : dataBase + k < 2 ^ 63) :
    ∃ m', write (Word.ofNat (dataBase + k)) bytes m = .ok () m' ∧ m.Extends m' k 0 := by
  have hstart : (Word.ofNat (dataBase + k)).toInt = dataBase + k := Word.toInt_ofNat hspace
  refine ⟨m.put k bytes, ?_, size_put, fun j hj => ?_, ⟨rfl, rfl, rfl⟩, rfl⟩
  · rw [write_apply hlength, offset?_of_toInt hstart hle]
  · rw [getElem?_put, if_neg (by omega)]

end Memory

/-! ## Arguments -/

/-- How many bytes of the heap the arguments of a program take. -/
def argumentsSize (args : List String) : Nat :=
  (args.map fun arg => alignUp ((Utf8.encode arg).length + 1)).sum +
    alignUp ((args.length + 1) * wordSize)

namespace Machine

open Setting

variable {s : Machine}

theorem reserve_of_room {size : Nat} (h : s.memory.Room (alignUp size)) (hsize : 0 < size) :
    ∃ m', reserve size s = .ok (Word.ofNat (dataBase + s.memory.bytes.size))
        { s with memory := m' } ∧
      s.memory.Extends m' s.memory.bytes.size (alignUp size) := by
  obtain ⟨m', hmalloc, hext⟩ := Memory.malloc_of_room h hsize
  have hspace := h.space
  have hle := alignUp_pos hsize
  have hask : askMemory (·.malloc (Word.ofNat size)) s =
      .ok (Word.ofNat (dataBase + s.memory.bytes.size)) { s with memory := m' } := by
    rw [askMemory, hmalloc]
  have hne : Word.ofNat (dataBase + s.memory.bytes.size) ≠ 0 := by
    intro hzero
    have hint := Word.toInt_ofNat (n := dataBase + s.memory.bytes.size) (by omega)
    rw [hzero, Int64.toInt_zero] at hint
    have hbase := dataBase_pos
    omega
  refine ⟨m', ?_, hext⟩
  rw [reserve, bind_ok hask, if_neg hne]
  rfl

theorem placeArgument_of_room {arg : String}
    (h : s.memory.Room (alignUp ((Utf8.encode arg).length + 1))) :
    ∃ address m', placeArgument arg s = .ok address { s with memory := m' } ∧
      s.memory.Extends m' s.memory.bytes.size (alignUp ((Utf8.encode arg).length + 1)) := by
  have hspace := h.space
  have hle := le_alignUp ((Utf8.encode arg).length + 1)
  obtain ⟨m₁, hreserve, hext₁⟩ := reserve_of_room h (Nat.succ_pos _)
  have hsize := hext₁.size
  obtain ⟨m₂, hwrite, hext₂⟩ :=
    Memory.write_of_le (m := m₁) (Utf8.encode arg) (k := s.memory.bytes.size)
      (by omega) (by omega) (by omega)
  have hchange : changeMemory
      (Memory.write (Word.ofNat (dataBase + s.memory.bytes.size)) (Utf8.encode arg))
      { s with memory := m₁ } = .ok () { s with memory := m₂ } := by
    rw [changeMemory, hwrite]
  refine ⟨Word.ofNat (dataBase + s.memory.bytes.size), m₂, ?_, hext₁.trans hext₂ le_rfl⟩
  rw [placeArgument, bind_ok hreserve, bind_ok hchange]
  rfl

theorem mapM_placeArgument_of_room {args : List String}
    (h : s.memory.Room (args.map fun arg => alignUp ((Utf8.encode arg).length + 1)).sum) :
    ∃ addresses m', args.mapM placeArgument s = .ok addresses { s with memory := m' } ∧
      addresses.length = args.length ∧ s.memory.Extends m' s.memory.bytes.size
        (args.map fun arg => alignUp ((Utf8.encode arg).length + 1)).sum := by
  induction args generalizing s with
  | nil => exact ⟨[], s.memory, rfl, rfl, rfl, fun _ _ => rfl, ⟨rfl, rfl, rfl⟩, rfl⟩
  | cons arg args ih =>
    rw [List.map_cons, List.sum_cons] at h ⊢
    obtain ⟨address, m₁, hplace, hext₁⟩ := placeArgument_of_room
      (h.mono (Nat.le_add_right _ _))
    obtain ⟨addresses, m₂, hrest, hlength, hext₂⟩ :=
      ih (s := { s with memory := m₁ }) (h.after hext₁)
    refine ⟨address :: addresses, m₂, ?_, by rw [List.length_cons, hlength, List.length_cons],
      hext₁.trans hext₂ (hext₁.size ▸ Nat.le_add_right _ _)⟩
    rw [List.mapM_cons, bind_ok hplace, bind_ok hrest]
    rfl

/-- Words that are stored one after the other from an index on. -/
theorem storeWords_of_le {k : Nat} (ws : List Word)
    (hle : k + wordSize * ws.length ≤ s.memory.bytes.size)
    (hspace : dataBase + s.memory.bytes.size ≤ 2 ^ 63) :
    ∃ m', storeWords (Word.ofNat (dataBase + k)) ws s = .ok () { s with memory := m' } ∧
      s.memory.Extends m' k 0 := by
  induction ws generalizing s k with
  | nil => exact ⟨s.memory, rfl, rfl, fun _ _ => rfl, ⟨rfl, rfl, rfl⟩, rfl⟩
  | cons w ws ih =>
    rw [List.length_cons, Nat.mul_succ] at hle
    obtain ⟨m₁, hwrite, hext₁⟩ := Memory.write_of_le (m := s.memory) w.toBytes (k := k)
      (by rw [Word.length_toBytes]; decide)
      (by rw [Word.length_toBytes]; omega) (by rw [wordSize] at hle; omega)
    have hsize := hext₁.size
    have hnext : wordsAbove (Word.ofNat (dataBase + k)) 1 =
        Word.ofNat (dataBase + (k + wordSize)) := by
      rw [wordsAbove, Word.ofNat, Word.ofNat, Word.ofNat, ← Nat.add_assoc,
        Int64.ofNat_add (dataBase + k), Int64.one_mul]
    obtain ⟨m₂, hrest, hext₂⟩ := ih (s := { s with memory := m₁ }) (k := k + wordSize)
      (show k + wordSize + wordSize * ws.length ≤ m₁.bytes.size by omega)
      (show dataBase + m₁.bytes.size ≤ 2 ^ 63 by omega)
    have hchange : changeMemory (Memory.storeWord (Word.ofNat (dataBase + k)) w) s =
        .ok () { s with memory := m₁ } := by
      rw [changeMemory, Memory.storeWord, hwrite]
    refine ⟨m₂, ?_, hext₁.trans hext₂ (Nat.le_add_right k wordSize)⟩
    rw [storeWords, bind_ok hchange, hnext]
    exact hrest

theorem placeArguments_of_room {args : List String} (h : s.memory.Room (argumentsSize args)) :
    ∃ vector m', placeArguments args s = .ok vector { s with memory := m' } ∧
      s.memory.Extends m' s.memory.bytes.size (argumentsSize args) := by
  obtain ⟨addresses, m₁, hargs, hlength, hext₁⟩ :=
    mapM_placeArgument_of_room (h.mono (Nat.le_add_right _ _))
  have hroom := h.after hext₁
  obtain ⟨m₂, hreserve, hext₂⟩ := reserve_of_room (s := { s with memory := m₁ }) hroom
    (Nat.mul_pos (Nat.succ_pos _) (by decide))
  have hspace := hroom.space
  have hsize := hext₂.size
  have hle := le_alignUp ((args.length + 1) * wordSize)
  obtain ⟨m₃, hstore, hext₃⟩ := storeWords_of_le (s := { s with memory := m₂ })
    (k := m₁.bytes.size) (addresses ++ [0])
    (by rw [List.length_append, hlength, List.length_singleton, Nat.mul_comm]
        show _ ≤ m₂.bytes.size
        dsimp only at hsize
        omega)
    (by show dataBase + m₂.bytes.size ≤ 2 ^ 63
        dsimp only at hsize
        omega)
  have hext : m₁.Extends m₃ m₁.bytes.size _ := hext₂.trans hext₃ le_rfl
  refine ⟨Word.ofNat (dataBase + m₁.bytes.size), m₃, ?_,
    hext₁.trans hext (hext₁.size ▸ Nat.le_add_right _ _)⟩
  rw [placeArguments, bind_ok hargs, bind_ok hreserve, bind_ok hstore]
  rfl

end Machine

/-! ## The first cells -/

theorem Memory.cell_eq_zero {m : Memory} {i : Int}
    (h : ∀ k < wordSize, m.bytes[cellIndex i + k]? = some 0) : m.cell i = 0 := by
  have hslice : m.slice (cellIndex i) wordSize = List.replicate wordSize 0 := by
    apply List.ext_getElem?
    intro k
    rw [getElem?_slice, List.getElem?_replicate]
    by_cases hk : k < wordSize
    · rw [if_pos hk, if_pos hk, h k hk]
    · rw [if_neg hk, if_neg hk]
  rw [cell, hslice]
  rfl

theorem Memory.getElem?_ofData {data : Array UInt8} {limits : Limits} {n j : Nat}
    (hdata : data.toList = List.replicate n 0)
    (hj : dataBase + j < (ofData data limits).stackTop) :
    (ofData data limits).bytes[j]? = some 0 := by
  rw [← size_ofData, ofData, size_overwrite, Array.size_replicate] at hj
  have hsize : data.size = n := by rw [← Array.length_toList, hdata, List.length_replicate]
  rw [ofData, hdata, getElem?_overwrite, List.getElem?_replicate, Array.getElem?_replicate,
    Array.size_replicate, List.length_replicate]
  split
  · rw [if_pos (by omega)]
  · rw [if_pos (by omega)]

/-- How many words hold a number of bytes. -/
def wordsFor (n : Nat) : Nat := (n + (wordSize - 1)) / wordSize

theorem alignUp_eq (n : Nat) : alignUp n = 8 * wordsFor n := Nat.mul_comm _ _

namespace Memory

variable {data : Array UInt8} {limits : Limits} (h : extent data limits < 2 ^ 64)

include h

theorem stackBase_cells : (ofData data limits).stackBase =
    8 * (firstCell + wordsFor (max limits.data.toNat data.size)) := by
  rw [stackBase_ofData h, mul_add, ← dataBase_eq, alignUp_eq, Nat.cast_add, Nat.cast_mul]
  rfl

theorem stackTop_cells : (ofData data limits).stackTop =
    8 * (firstCell + wordsFor (max limits.data.toNat data.size) + wordsFor limits.stack.toNat) := by
  rw [stackTop_ofData h, extent, mul_add, mul_add, ← dataBase_eq, alignUp_eq, alignUp_eq,
    Nat.cast_add, Nat.cast_add, Nat.cast_mul, Nat.cast_mul, Int.add_assoc]
  rfl

end Memory

namespace Program

variable {p : Program} {limits : Limits} {trace : Bool}

/-- A setting for a program with its limits. -/
structure RunsIn (p : Program) (limits : Limits) (trace : Bool) (S : Setting) : Prop where
  loaded : S.loaded = p.load trace
  base : 8 * S.base = (Memory.ofData p.data limits).stackBase
  top : 8 * S.top = (Memory.ofData p.data limits).stackTop

theorem exists_setting (p : Program) {limits : Limits} (trace : Bool)
    (hspace : dataBase + Memory.extent p.data limits < 2 ^ 63) (allowed : Stop → Prop)
    (overflow : ∀ size, allowed (.faulted (.stackOverflow size))) :
    ∃ S : Setting, p.RunsIn limits trace S ∧ S.allowed = allowed := by
  have hextent : Memory.extent p.data limits < 2 ^ 64 := by omega
  have hbase := Memory.stackBase_cells hextent
  have htop := Memory.stackTop_cells hextent
  have htop' := Memory.stackTop_ofData hextent
  exact ⟨⟨p.load trace, firstCell + wordsFor (max limits.data.toNat p.data.size),
    firstCell + wordsFor (max limits.data.toNat p.data.size) + wordsFor limits.stack.toNat,
    by omega, by omega, by omega, by omega, allowed, overflow⟩, ⟨rfl, hbase.symm, htop.symm⟩, rfl⟩

/-- What starting a program comes to: a machine of the kind described, or a stop that is allowed. -/
inductive Starts (S : Setting) (post : Machine → Prop) : EStateM.Result Stop Machine Unit → Prop
  | ok {s : Machine} (h : post s) : Starts S post (.ok () s)
  | error {stop : Stop} {s : Machine} (h : S.allowed stop) : Starts S post (.error stop s)

theorem starts_push {S : Setting} {post : Machine → Prop} {s : Machine} {acc w : Word} {pc : Nat}
    {σ : Stack} {k : Exec Unit} (h : S.Shows s ⟨acc, pc, σ⟩) (hsp : S.base ≤ σ.sp)
    (hsp' : σ.sp ≤ S.top)
    (hk : S.base ≤ σ.sp - 1 → ∀ s', S.Shows s' ⟨acc, pc, σ.push w⟩ → Starts S post (k s')) :
    Starts S post ((Machine.push w >>= fun _ => k) s) := by
  rcases h.push hsp hsp' w with ⟨hroom, s', hpush, hs'⟩ | ⟨size, s', hpush⟩
  · rw [Setting.bind_ok hpush]
    exact hk hroom s' hs'
  · rw [Setting.bind_error hpush]
    exact .error (S.overflow size)

/-- The stack that the entry point is called with. -/
def firstStack (top : Int) (count vector exit : Word) : Stack :=
  (((⟨top, top, fun _ => 0⟩ : Stack).push count).push vector).push exit

variable {S : Setting} {args : List String} {files : Descriptors} {out : Sink} {n : Nat}

theorem shows_idle {m : Memory} (files : Descriptors) (hS : p.RunsIn limits trace S)
    (hdata : p.data.toList = List.replicate n 0)
    (hext : (Memory.ofData p.data limits).Extends m (Memory.ofData p.data limits).bytes.size
      (argumentsSize args)) (hquiet : trace = true → out.capacity = none) :
    S.Shows { Machine.idle p.data limits files out with memory := m }
      ⟨0, 0, ⟨S.top, S.top, fun _ => 0⟩⟩ := by
  have htop := hS.top
  have hsize := Memory.size_ofData p.data limits
  have hpointer : Word.ofNat (Memory.ofData p.data limits).stackTop = addr S.top := by
    rw [Word.ofNat, addr, ← Int64.ofInt_eq_ofNat, ← htop]
    rfl
  refine ⟨rfl, hpointer, hpointer, rfl, ?_, ?_, fun i hi hi' => ?_, fun h => hquiet ?_⟩
  · rw [hS.base, hext.regions.stackBase]
  · show 8 * S.top ≤ (dataBase + m.bytes.size : Int)
    rw [hext.size]
    omega
  · refine Memory.cell_eq_zero fun k hk => ?_
    have hbase := dataBase_eq
    rw [wordSize] at hk
    have hindex : dataBase + (cellIndex i + k) < (Memory.ofData p.data limits).stackTop := by
      rw [cellIndex]
      omega
    rw [hext.below _ (by omega)]
    exact Memory.getElem?_ofData hdata hindex
  · rwa [hS.loaded] at h

/-- A program ends well if it does from its entry point on. -/
theorem run_of_ends (hS : p.RunsIn limits trace S) (hdata : p.data.toList = List.replicate n 0)
    (hroom : (Memory.ofData p.data limits).Room (argumentsSize args))
    (hquiet : trace = true → out.capacity = none)
    (h : ∀ vector, S.base ≤ S.top - 3 → S.Ends
      ⟨0, (p.symbols.binding SymbolTable.entry).value.toUnsigned,
        firstStack S.top (Word.ofNat args.length) vector (Word.ofNat p.code.size)⟩) :
    ∃ N, ∀ fuel, N ≤ fuel → S.allowed (p.run limits args trace files out fuel).1 := by
  obtain ⟨vector, m, hplace, hext⟩ := Machine.placeArguments_of_room
    (s := Machine.idle p.data limits files out) hroom
  have hs := shows_idle files hS hdata hext hquiet
  have hstarts : Starts S (fun s => ∃ N, ∀ fuel, N ≤ fuel → S.allowed (s.run S.loaded fuel).1)
      (p.start limits args files out) := by
    rw [start, Machine.start, Setting.bind_ok hplace]
    refine starts_push hs S.base_le le_rfl fun hroom₁ s₁ hs₁ => ?_
    refine starts_push hs₁ hroom₁ (show S.top - 1 ≤ S.top by omega) fun hroom₂ s₂ hs₂ => ?_
    refine starts_push hs₂ hroom₂ (show S.top - 1 - 1 ≤ S.top by omega) fun hroom₃ s₃ hs₃ => ?_
    have hroom₃ : S.base ≤ S.top - 1 - 1 - 1 := hroom₃
    exact .ok (h vector (by omega) _ (hs₃.withPc _))
  rw [hS.loaded] at hstarts
  unfold run
  generalize p.start limits args files out = r at hstarts
  cases hstarts with
  | ok h => exact h
  | error h => exact ⟨0, fun _ _ => h⟩

end Program

end MiniC
