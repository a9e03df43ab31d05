import MiniC.Proofs.Heap.Tiling

/-!
# What blocks hold

A block that is handed out is filled with zeros and nothing else in memory changes (`Taken`). When a
block is made larger its bytes stand at the start of the new block, and all other blocks in use, the
data and the stack are as before (`Resized`). That the copy does not run over what it copies, and
that it harms no other block, is due to the tiling of the heap: a block that is handed out has no
address in common with a block in use.

An allocation that fails changes nothing.
-/

namespace MiniC.Memory

variable {m m' : Memory} {b : Block}

/-- The byte at an address. -/
def byteAt (m : Memory) (a : Nat) : Option UInt8 :=
  if dataBase ≤ a then m.bytes[a - dataBase]? else none

theorem byteAt_of_le {a : Nat} (h : dataBase ≤ a) : m.byteAt a = m.bytes[a - dataBase]? := if_pos h

theorem byteAt_of_lt {a : Nat} (h : a < dataBase) : m.byteAt a = none := if_neg (Nat.not_le.mpr h)

theorem byteAt_congr (h : m'.bytes = m.bytes) (a : Nat) : m'.byteAt a = m.byteAt a := by
  rw [byteAt, byteAt, h]

-- The comparison with the lowest address is never to be evaluated.
attribute [irreducible] byteAt

theorem getElem?_overwriteAll (bytes : Array UInt8) (start : Nat) (value : UInt8) (count j : Nat) :
    (overwriteAll bytes start value count)[j]? =
      if start ≤ j ∧ j < start + count ∧ j < bytes.size then some value else bytes[j]? := by
  induction count generalizing bytes with
  | zero => rw [overwriteAll, if_neg (by omega)]
  | succ count ih =>
    rw [overwriteAll, ih, Array.size_setIfInBounds, Array.getElem?_setIfInBounds]
    by_cases hj : start + count = j
    · subst hj
      by_cases hsize : start + count < bytes.size
      · rw [if_neg (by omega), if_pos rfl, if_pos hsize, if_pos (by omega)]
      · rw [if_neg (by omega), if_pos rfl, if_neg hsize, if_neg (by omega)]
        exact (Array.getElem?_eq_none (by omega)).symm
    · rw [if_neg hj]
      by_cases hin : start ≤ j ∧ j < start + count ∧ j < bytes.size
      · rw [if_pos hin, if_pos (by omega)]
      · rw [if_neg hin, if_neg (by omega)]

/-! ## Allocating -/

/-- The block `b` was taken into use for `size` bytes: it has no address in common with a block that
was in use, it is filled with zeros, and nothing outside of it has changed. -/
structure Taken (m m' : Memory) (b : Block) (size : Nat) : Prop where
  live : m'.live = b :: m.live
  fresh : ∀ b' ∈ m.live, ∀ a ∈ b, a ∉ b'
  enough : size ≤ b.size
  zero : ∀ a ∈ b, m'.byteAt a = some 0
  kept : ∀ a, a ∉ b → m'.byteAt a = m.byteAt a

theorem Tiled.taken {size : Nat} (h : m.Tiled) (halloc : m.allocate? size = some (b, m')) :
    Taken m m' b size := by
  have htop := h.top.1
  obtain ⟨hfreed, hsize, rfl⟩ | ⟨rfl, -, rfl⟩ := allocate?_cases halloc
  · have hbounds := h.bounds (List.mem_append_right m.live hfreed)
    have hcell : ∀ a, Memory.byteAt { m with
        bytes := overwriteAll m.bytes (b.start - dataBase) 0 b.size
        live := b :: m.live
        freed := m.freed.erase b } a = if a ∈ b then some 0 else m.byteAt a := by
      intro a
      by_cases hbase : dataBase ≤ a
      · rw [byteAt_of_le hbase, byteAt_of_le hbase, getElem?_overwriteAll]
        by_cases ha : a ∈ b
        · rw [if_pos ha]
          rw [Block.mem_iff] at ha
          rw [if_pos (by omega)]
        · rw [if_neg ha]
          rw [Block.mem_iff] at ha
          rw [if_neg (by omega)]
      · rw [byteAt_of_lt (by omega), byteAt_of_lt (by omega), if_neg]
        rw [Block.mem_iff]
        omega
    refine ⟨rfl, fun b' hb' a ha ha' => ?_, hsize, fun a ha => ?_,
      fun a ha => ?_⟩
    · exact (List.pairwise_append.mp h.pairwise).2.2 b' hb' b hfreed a ha' ha
    · rw [hcell, if_pos ha]
    · rw [hcell, if_neg ha]
  · refine ⟨rfl, fun b' hb' a ha ha' => ?_, Nat.le_refl size, fun a ha => ?_, fun a ha => ?_⟩
    · have hbounds := h.bounds (List.mem_append_left m.freed hb')
      rw [Block.mem_iff] at ha ha'
      simp only at ha
      omega
    · rw [Block.mem_iff] at ha
      simp only at ha
      rw [byteAt_of_le (by omega), Array.getElem?_append_right (by omega),
        Array.getElem?_replicate, if_pos (by omega)]
    · rw [Block.mem_iff] at ha
      simp only at ha
      by_cases hbase : dataBase ≤ a
      · rw [byteAt_of_le hbase, byteAt_of_le hbase, Array.getElem?_append, Array.getElem?_replicate]
        by_cases hin : a - dataBase < m.bytes.size
        · rw [if_pos hin]
        · rw [if_neg hin, if_neg (by omega), Array.getElem?_eq_none (by omega)]
      · rw [byteAt_of_lt (by omega), byteAt_of_lt (by omega)]

theorem Tiled.taken_request {size : Word} (h : m.Tiled) (hsize : ¬ size ≤ 0)
    (halloc : m.allocate? (align size.toUInt64).toNat = some (b, m')) :
    Taken m m' b size.toInt.toNat :=
  { h.taken halloc with enough := Nat.le_trans (le_toNat_align hsize) (h.taken halloc).enough }

/-- The start of a block in memory whose addresses are 64-bit numbers is not 0. -/
theorem Tiled.ofNat_start_ne_zero (h : m.Tiled) (hb : b ∈ m.live)
    (hspace : dataBase + m.bytes.size ≤ 2 ^ 64) : Word.ofNat b.start ≠ 0 := by
  intro hzero
  have hbounds := h.bounds (List.mem_append_left m.freed hb)
  have hpositive := (h.sound b (List.mem_append_left m.freed hb)).positive
  have htop := h.top.1
  have hunsigned := Word.toUnsigned_ofNat (n := b.start) (by omega)
  rw [hzero] at hunsigned
  have hbase : 0 < dataBase := by decide
  have : (0 : Word).toUnsigned = 0 := rfl
  omega

theorem malloc_cases (m : Memory) (size : Word) :
    m.malloc size = (0, m) ∨
    ∃ b m', m.allocate? (align size.toUInt64).toNat = some (b, m') ∧ ¬ size ≤ 0 ∧
      m.malloc size = (Word.ofNat b.start, m') := by
  rw [malloc]
  split
  · exact .inl rfl
  · rename_i hsize
    cases halloc : m.allocate? (align size.toUInt64).toNat with
    | none => exact .inl rfl
    | some r => exact .inr ⟨r.1, r.2, rfl, hsize, rfl⟩

/-! ## Making larger -/

/-- The block `old` was replaced by the block `new`, which holds `size` bytes: those of the old
block are at its start, zeros are behind them, and nothing else has changed. -/
structure Resized (m m' : Memory) (old new : Block) (size : Nat) : Prop where
  live : new ∈ m'.live
  enough : size ≤ new.size
  contents : ∀ i < min old.size new.size,
    m'.byteAt (new.start + i) = m.byteAt (old.start + i)
  zero : ∀ i, old.size ≤ i → i < new.size → m'.byteAt (new.start + i) = some 0
  others : ∀ b ∈ m.live, b ≠ old → b ∈ m'.live ∧ ∀ a ∈ b, m'.byteAt a = m.byteAt a
  regions : ∀ a < m.stackTop, m'.byteAt a = m.byteAt a

theorem resized_self {size : Nat} (hb : b ∈ m.live) (hsize : size ≤ b.size) :
    Resized m m b b size :=
  ⟨hb, hsize, fun _ _ => rfl, fun _ _ _ => by omega, fun _ hb' _ => ⟨hb', fun _ _ => rfl⟩,
    fun _ _ => rfl⟩

/-- Memory after `length` bytes have been copied, from and to the given indices. -/
def copied (m : Memory) (dest source length : Nat) : Memory :=
  { m with bytes := overwrite m.bytes dest (m.slice source length) }

theorem live_copied (m : Memory) (dest source length : Nat) :
    (m.copied dest source length).live = m.live := rfl

theorem bytes_copied (m : Memory) (dest source length : Nat) :
    (m.copied dest source length).bytes = overwrite m.bytes dest (m.slice source length) := rfl

section Moving

variable {old new : Block} {size : Nat} (hm' : m'.Tiled) (htaken : Taken m m' new size)
  (hold : old ∈ m.live)

include hm' htaken hold

theorem byteAt_copied (hle : old.size ≤ new.size) (a : Nat) :
    (m'.copied (new.start - dataBase) (old.start - dataBase) old.size).byteAt a =
      if new.start ≤ a ∧ a < new.start + old.size then m.byteAt (old.start + (a - new.start))
      else m'.byteAt a := by
  have hnewBounds := hm'.bounds (b := new) (by simp [blocks, htaken.live])
  have holdBounds := hm'.bounds (b := old) (by simp [blocks, htaken.live, hold])
  have htop := hm'.top.1
  have hlength : (m'.slice (old.start - dataBase) old.size).length = old.size := by
    rw [slice, Array.length_toList, Array.size_extract_of_le (by omega), Nat.add_sub_cancel_left]
  by_cases hbase : dataBase ≤ a
  · rw [byteAt_of_le hbase, bytes_copied, getElem?_overwrite, hlength]
    by_cases ha : new.start ≤ a ∧ a < new.start + old.size
    · have hmem : old.start + (a - new.start) ∈ old := by
        rw [Block.mem_iff]
        omega
      have hkept := htaken.kept _ fun hnew => htaken.fresh old hold _ hnew hmem
      have hindex : old.start - dataBase + (a - dataBase - (new.start - dataBase)) =
          old.start + (a - new.start) - dataBase := by omega
      rw [if_pos (by omega), if_pos ha, ← hkept, byteAt_of_le (by omega), getElem?_slice,
        if_pos (by omega), hindex]
    · rw [if_neg (by omega), if_neg ha, byteAt_of_le hbase]
  · rw [byteAt_of_lt (by omega), if_neg (by omega), byteAt_of_lt (by omega)]

theorem resized_of_copied (r : Memory) (hle : old.size ≤ new.size)
    (hbytes : ∀ a, r.byteAt a =
      (m'.copied (new.start - dataBase) (old.start - dataBase) old.size).byteAt a)
    (hlive : r.live = new :: m.live.erase old) (htop : m.stackTop ≤ new.start) :
    Resized m r old new size := by
  have hbyte := fun a => (hbytes a).trans (byteAt_copied hm' htaken hold hle a)
  have hkept : ∀ a, a ∉ new → r.byteAt a = m.byteAt a := by
    intro a ha
    have hout := htaken.kept a ha
    rw [Block.mem_iff] at ha
    rw [hbyte, if_neg (by omega), hout]
  refine ⟨by simp [hlive], htaken.enough, fun i hi => ?_, fun i hi hi' => ?_,
    fun b hb hne => ⟨?_, ?_⟩, fun a ha => hkept a ?_⟩
  · rw [hbyte, if_pos (by omega), Nat.add_sub_cancel_left]
  · have hzero := htaken.zero (new.start + i) (by rw [Block.mem_iff]; omega)
    rw [hbyte, if_neg (by omega), hzero]
  · rw [hlive]
    exact List.mem_cons_of_mem _ ((List.mem_erase_of_ne hne).mpr hb)
  · exact fun a ha => hkept a fun ha' => htaken.fresh b hb a ha' ha
  · rw [Block.mem_iff]
    omega

end Moving

theorem bytes_free (m : Memory) (address : Word) : (m.free address).2.bytes = m.bytes := by
  rw [free, release?]
  split
  · rfl
  · cases m.liveBlock? address <;> rfl

theorem live_free {address : Word} (hne : address ≠ 0) (h : m.liveBlock? address = some b) :
    (m.free address).2.live = m.live.erase b := by
  rw [free, if_neg hne, release?, h]

theorem Tiled.liveBlock?_eq {address : Word} (h : m.Tiled) (hb : b ∈ m.live)
    (hstart : (b.start : Int) = address.toInt) : m.liveBlock? address = some b := by
  cases hlive : m.liveBlock? address with
  | none =>
    have hnone : ∀ b ∈ m.live, ¬ (b.start : Int) = address.toInt := by
      simpa [liveBlock?] using hlive
    exact absurd hstart (hnone b hb)
  | some b' =>
    obtain ⟨hb', hstart'⟩ := liveBlock?_eq_some hlive
    have hblock : b ∈ m.blocks := List.mem_append_left m.freed hb
    have hblock' : b' ∈ m.blocks := List.mem_append_left m.freed hb'
    have heq : b'.start = b.start := by omega
    by_contra hne
    refine h.pairwise.forall hblock' hblock (fun h => hne (by rw [h])) b.start ?_
      (h.sound b hblock).start_mem
    exact heq ▸ (h.sound b' hblock').start_mem

/-- Memory in which a block is made larger: it has room already, or there is no room anywhere, or a
new block takes its place. -/
theorem realloc_cases {address size : Word} {old : Block} (h : m.Tiled) (hsize : ¬ size ≤ 0)
    (hlive : m.liveBlock? address = some old) :
    m.realloc address size = (address, m) ∧ size.toInt.toNat ≤ old.size ∨
    m.realloc address size = (0, m) ∨
    ∃ new m', Resized m m' old new size.toInt.toNat ∧
      m.realloc address size = (Word.ofNat new.start, m') := by
  obtain ⟨hold, haddress⟩ := liveBlock?_eq_some hlive
  have hblock : old ∈ m.blocks := List.mem_append_left m.freed hold
  have hne : address ≠ 0 := by
    rintro rfl
    have hbounds := h.bounds hblock
    have htop := h.top.1
    have hbase : 0 < dataBase := by decide
    rw [Int64.toInt_zero] at haddress
    omega
  rw [realloc, if_neg hne, if_neg hsize, hlive]
  simp only
  split
  · rename_i hfits
    exact .inl ⟨rfl, Nat.le_trans (le_toNat_align hsize) hfits⟩
  rename_i hlarger
  cases halloc : m.allocate? (align size.toUInt64).toNat with
  | none => exact .inr (.inl rfl)
  | some r =>
    obtain ⟨new, grown⟩ := r
    have htaken := h.taken_request hsize halloc
    have hchange : Change m grown := .allocate (dvd_align _) (toNat_align_pos hsize) halloc
    have hgrown := h.change hchange
    have hle : old.size ≤ new.size := by
      obtain ⟨-, hle, -⟩ | ⟨rfl, -, -⟩ := allocate?_cases halloc
      · omega
      · exact Nat.le_of_not_le hlarger
    have hnew : new ∈ grown.blocks := by simp [blocks, htaken.live]
    -- The new block starts elsewhere, so the old block is the one that is given back.
    have hstart : new.start ≠ old.start := by
      intro heq
      have hmem := (hgrown.sound new hnew).start_mem
      exact htaken.fresh old hold _ hmem (heq ▸ (h.sound old hblock).start_mem)
    have hfind : (grown.copied (new.start - dataBase) (old.start - dataBase)
        old.size).liveBlock? address = some old := by
      have hne' : ¬ (new.start : Int) = address.toInt := by omega
      rw [liveBlock?] at hlive ⊢
      rw [live_copied, htaken.live, List.find?_cons, decide_eq_false hne', hlive]
    have hlive' : grown.live.erase old = new :: m.live.erase old := by
      rw [htaken.live, List.erase_cons_tail]
      rw [beq_iff_eq]
      rintro rfl
      exact hstart rfl
    have htop : m.stackTop ≤ new.start := by
      rw [← hchange.sameRegions.stackTop]
      exact (hgrown.bounds hnew).1
    have hresized := resized_of_copied hgrown htaken hold
      ((grown.copied (new.start - dataBase) (old.start - dataBase) old.size).free address).2 hle
      (byteAt_congr (bytes_free _ _)) (by rw [live_free hne hfind, live_copied, hlive']) htop
    exact .inr (.inr ⟨new, _, hresized, rfl⟩)

/-! ## Memory after any operations -/

/-- Memory whose addresses are 64-bit numbers. -/
def InSpace (m : Memory) : Prop := dataBase + m.bytes.size ≤ 2 ^ 64

theorem Tiled.malloc_eq_zero (h : m.Tiled) {size : Word} (hspace : (m.malloc size).2.InSpace)
    (hzero : (m.malloc size).1 = 0) : (m.malloc size).2 = m := by
  have htiled := h.changes (changes_malloc m size)
  obtain heq | ⟨b, m', halloc, -, heq⟩ := malloc_cases m size
  · rw [heq]
  · rw [heq] at hzero hspace htiled
    exact absurd hzero (htiled.ofNat_start_ne_zero (by simp [(h.taken halloc).live]) hspace)

theorem Tiled.malloc_ne_zero (h : m.Tiled) {size : Word} (hne : (m.malloc size).1 ≠ 0) :
    ∃ b, (m.malloc size).1 = Word.ofNat b.start ∧
      Taken m (m.malloc size).2 b size.toInt.toNat := by
  obtain heq | ⟨b, m', halloc, hsize, heq⟩ := malloc_cases m size
  · rw [heq] at hne
    exact absurd rfl hne
  · exact ⟨b, by rw [heq], by rw [heq]; exact h.taken_request hsize halloc⟩

theorem Tiled.realloc_eq_zero (h : m.Tiled) {address size : Word} (hsize : ¬ size ≤ 0)
    (hspace : (m.realloc address size).2.InSpace) (hzero : (m.realloc address size).1 = 0) :
    (m.realloc address size).2 = m := by
  have htiled := h.changes (changes_realloc m address size)
  by_cases hnull : address = 0
  · have heq : m.realloc address size = m.malloc size := by rw [realloc, if_pos hnull]
    rw [heq] at hspace hzero ⊢
    exact h.malloc_eq_zero hspace hzero
  cases hlive : m.liveBlock? address with
  | none => rw [realloc, if_neg hnull, if_neg hsize, hlive]
  | some old =>
    obtain ⟨heq, -⟩ | heq | ⟨new, m', hresized, heq⟩ := realloc_cases h hsize hlive
    · rw [heq]
    · rw [heq]
    · rw [heq] at hzero hspace htiled
      exact absurd hzero (htiled.ofNat_start_ne_zero hresized.live hspace)

theorem Tiled.realloc_ne_zero (h : m.Tiled) {address size : Word} {old : Block} (hsize : ¬ size ≤ 0)
    (hlive : m.liveBlock? address = some old) (hne : (m.realloc address size).1 ≠ 0) :
    ∃ new, (m.realloc address size).1 = Word.ofNat new.start ∧
      Resized m (m.realloc address size).2 old new size.toInt.toNat := by
  obtain ⟨hold, haddress⟩ := liveBlock?_eq_some hlive
  obtain ⟨heq, hfits⟩ | heq | ⟨new, m', hresized, heq⟩ := realloc_cases h hsize hlive
  · refine ⟨old, ?_, by rw [heq]; exact resized_self hold hfits⟩
    rw [heq, ← Int64.ofInt_toInt address, ← haddress, Int64.ofInt_eq_ofNat, Word.ofNat]
  · rw [heq] at hne
    exact absurd rfl hne
  · exact ⟨new, by rw [heq], by rw [heq]; exact hresized⟩

/-- Whatever was done with memory before: a block that is handed out is new, large enough and zero,
and nothing else changes; a block that is made larger keeps its bytes, and all else stays as it is;
and what fails changes nothing. -/
theorem allocation_effects (data : Array UInt8) (limits : Limits) (ops : List Operation) :
    let m := (ofData data limits).after ops
    (∀ size : Word, (m.malloc size).1 ≠ 0 → ∃ b, (m.malloc size).1 = Word.ofNat b.start ∧
      Taken m (m.malloc size).2 b size.toInt.toNat) ∧
    (∀ size : Word, (m.malloc size).2.InSpace → (m.malloc size).1 = 0 → (m.malloc size).2 = m) ∧
    (∀ (address size : Word), ∀ old ∈ m.live, (old.start : Int) = address.toInt → 0 < size →
      (m.realloc address size).1 ≠ 0 →
      ∃ new, (m.realloc address size).1 = Word.ofNat new.start ∧
        Resized m (m.realloc address size).2 old new size.toInt.toNat) ∧
    ∀ address size : Word, 0 < size → (m.realloc address size).2.InSpace →
      (m.realloc address size).1 = 0 → (m.realloc address size).2 = m := by
  intro m
  have h : m.Tiled := (tiled_ofData data limits).changes (changes_after _ ops)
  refine ⟨fun size => h.malloc_ne_zero, fun size => h.malloc_eq_zero, ?_, ?_⟩
  · intro address size old hold hstart hsize
    exact h.realloc_ne_zero (Int64.not_le.mpr hsize) (h.liveBlock?_eq hold hstart)
  · intro address size hsize
    exact h.realloc_eq_zero (Int64.not_le.mpr hsize)

/-- A heap of five words in which the first of two blocks is to grow. -/
theorem allocation_effects_growing :
    let limits : Limits := ⟨0, 0, 8, 8, 0, 40⟩
    let m := (ofData #[1, 2] limits).after [.malloc 8, .storeWord 65552 42, .malloc 3]
    ((m.malloc 8).1 ≠ 0 ∧ ∃ b, (m.malloc 8).1 = Word.ofNat b.start ∧ Taken m (m.malloc 8).2 b 8) ∧
    ((m.malloc 32).1 = 0 ∧ (m.malloc 32).2 = m) ∧
    ((m.realloc 65552 16).1 ≠ 0 ∧ ∃ new, (m.realloc 65552 16).1 = Word.ofNat new.start ∧
      Resized m (m.realloc 65552 16).2 ⟨65552, 8⟩ new 16) ∧
    (m.realloc 65552 32).1 = 0 ∧ (m.realloc 65552 32).2 = m := by
  intro limits m
  obtain ⟨htaken, hfull, hresized, hkept⟩ := allocation_effects #[1, 2] limits
    [.malloc 8, .storeWord 65552 42, .malloc 3]
  refine ⟨⟨by decide +kernel, htaken 8 (by decide +kernel)⟩,
    ⟨by decide +kernel, hfull 32 ?_ (by decide +kernel)⟩,
    ⟨by decide +kernel, hresized 65552 16 ⟨65552, 8⟩ (by decide +kernel) (by decide +kernel)
      (by decide +kernel) (by decide +kernel)⟩,
    by decide +kernel, hkept 65552 32 (by decide +kernel) ?_ (by decide +kernel)⟩
  · show dataBase + _ ≤ 2 ^ 64
    decide +kernel
  · show dataBase + _ ≤ 2 ^ 64
    decide +kernel

end MiniC.Memory
