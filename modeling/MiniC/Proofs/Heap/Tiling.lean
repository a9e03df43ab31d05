import MiniC.Proofs.Machine.Cells

/-!
# Blocks tile the heap

After any sequence of operations the blocks in use and the blocks given back lie one behind the
other from the end of the stack to the end of memory (`Memory.Tiled`). They are never split or
joined: an allocation moves a block from one list to the other or adds one at the end, and giving a
block back moves it the other way. So it is enough to follow the two lists together, up to the order
of their blocks; that no two blocks overlap and that no address is left out are properties of the
tiling.
-/

namespace MiniC

/-! ## Tilings -/

namespace Block

/-- The addresses of a block. -/
instance : Membership Nat Block := ⟨fun b a => b.start ≤ a ∧ a < b.start + b.size⟩

variable {a : Nat} {b b' : Block}

instance (a : Nat) (b : Block) : Decidable (a ∈ b) :=
  inferInstanceAs (Decidable (b.start ≤ a ∧ a < b.start + b.size))

theorem mem_iff : a ∈ b ↔ b.start ≤ a ∧ a < b.start + b.size := Iff.rfl

/-- Blocks without an address in common. -/
def Disjoint (b b' : Block) : Prop := ∀ a ∈ b, a ∉ b'

theorem Disjoint.symm (h : b.Disjoint b') : b'.Disjoint b := fun a ha ha' => h a ha' ha

instance : Std.Symm Disjoint := ⟨fun _ _ => Disjoint.symm⟩

/-- Blocks begin at multiples of the word size and hold a positive number of words. -/
structure Sound (b : Block) : Prop where
  aligned : wordSize ∣ b.start
  whole : wordSize ∣ b.size
  positive : 0 < b.size

theorem Sound.start_mem (h : b.Sound) : b.start ∈ b :=
  ⟨Nat.le_refl _, Nat.lt_add_of_pos_right h.positive⟩

end Block

/-- Blocks that lie one behind the other from the address `lo` up to the address `hi`. -/
def Consecutive : Nat → List Block → Nat → Prop
  | lo, [], hi => lo = hi
  | lo, b :: bs, hi => b.start = lo ∧ Consecutive (lo + b.size) bs hi

namespace Consecutive

variable {lo hi a : Nat} {b : Block} {bs : List Block}

theorem le (h : Consecutive lo bs hi) : lo ≤ hi := by
  induction bs generalizing lo with
  | nil => exact Nat.le_of_eq h
  | cons b bs ih =>
    have := ih h.2
    omega

theorem bounds (h : Consecutive lo bs hi) (hb : b ∈ bs) : lo ≤ b.start ∧ b.start + b.size ≤ hi := by
  induction bs generalizing lo with
  | nil => simp at hb
  | cons b' bs ih =>
    obtain ⟨hstart, hrest⟩ := h
    rcases List.mem_cons.mp hb with rfl | hb
    · have := hrest.le
      omega
    · have := ih hrest hb
      omega

/-- Every address from `lo` up to `hi` belongs to one of the blocks. -/
theorem exists_mem (h : Consecutive lo bs hi) (hlo : lo ≤ a) (hhi : a < hi) : ∃ b ∈ bs, a ∈ b := by
  induction bs generalizing lo with
  | nil =>
    have : lo = hi := h
    omega
  | cons b bs ih =>
    obtain ⟨hstart, hrest⟩ := h
    by_cases ha : a < lo + b.size
    · exact ⟨b, by simp, by omega, by omega⟩
    · obtain ⟨b', hb', hmem⟩ := ih hrest (by omega)
      exact ⟨b', by simp [hb'], hmem⟩

theorem pairwise (h : Consecutive lo bs hi) : bs.Pairwise Block.Disjoint := by
  induction bs generalizing lo with
  | nil => exact .nil
  | cons b bs ih =>
    obtain ⟨hstart, hrest⟩ := h
    refine List.pairwise_cons.mpr ⟨fun b' hb' a ha ha' => ?_, ih hrest⟩
    have hb' := (hrest.bounds hb').1
    rw [Block.mem_iff] at ha ha'
    omega

theorem dvd (h : Consecutive lo bs hi) (hlo : wordSize ∣ lo) (hbs : ∀ b ∈ bs, wordSize ∣ b.size) :
    wordSize ∣ hi := by
  induction bs generalizing lo with
  | nil => exact h ▸ hlo
  | cons b bs ih =>
    exact ih h.2 (Nat.dvd_add hlo (hbs b (by simp))) fun b' hb' => hbs b' (by simp [hb'])

theorem concat (h : Consecutive lo bs hi) (hb : b.start = hi) :
    Consecutive lo (bs ++ [b]) (hi + b.size) := by
  induction bs generalizing lo with
  | nil =>
    have : lo = hi := h
    exact ⟨by omega, by rw [this]; rfl⟩
  | cons b' bs ih => exact ⟨h.1, ih h.2⟩

end Consecutive

namespace Memory

variable {m m' : Memory} {b : Block}

/-- The blocks in use and the blocks given back. -/
def blocks (m : Memory) : List Block := m.live ++ m.freed

/-- The blocks tile the heap, which is no larger than its limit. -/
structure Tiled (m : Memory) : Prop where
  tiles : ∃ bs, bs.Perm m.blocks ∧ Consecutive m.stackTop bs (dataBase + m.bytes.size)
  sound : ∀ b ∈ m.blocks, b.Sound
  top : dataBase ≤ m.stackTop ∧ wordSize ∣ m.stackTop
  limit : m.heapSize ≤ m.heapLimit

namespace Tiled

theorem top_le (h : m.Tiled) : m.stackTop ≤ dataBase + m.bytes.size := by
  obtain ⟨bs, -, hbs⟩ := h.tiles
  exact hbs.le

theorem bounds (h : m.Tiled) (hb : b ∈ m.blocks) :
    m.stackTop ≤ b.start ∧ b.start + b.size ≤ dataBase + m.bytes.size := by
  obtain ⟨bs, hperm, hbs⟩ := h.tiles
  exact hbs.bounds (hperm.mem_iff.mpr hb)

theorem pairwise (h : m.Tiled) : m.blocks.Pairwise Block.Disjoint := by
  obtain ⟨bs, hperm, hbs⟩ := h.tiles
  exact (hperm.pairwise_iff fun hd => hd.symm).mp hbs.pairwise

theorem mem_heap_iff (h : m.Tiled) (a : Nat) :
    m.stackTop ≤ a ∧ a < dataBase + m.bytes.size ↔ ∃ b ∈ m.blocks, a ∈ b := by
  constructor
  · rintro ⟨hlo, hhi⟩
    obtain ⟨bs, hperm, hbs⟩ := h.tiles
    obtain ⟨b, hb, hmem⟩ := hbs.exists_mem hlo hhi
    exact ⟨b, hperm.mem_iff.mp hb, hmem⟩
  · rintro ⟨b, hb, hmem⟩
    have := h.bounds hb
    rw [Block.mem_iff] at hmem
    omega

theorem dvd_end (h : m.Tiled) : wordSize ∣ dataBase + m.bytes.size := by
  obtain ⟨bs, hperm, hbs⟩ := h.tiles
  exact hbs.dvd h.top.2 fun b hb => (h.sound b (hperm.mem_iff.mp hb)).whole

/-- The tiling depends on the blocks up to their order, and on nothing that stands in memory. -/
theorem of_perm (h : m.Tiled) (hblocks : m'.blocks.Perm m.blocks)
    (hsize : m'.bytes.size = m.bytes.size) (htop : m'.stackTop = m.stackTop)
    (hlimit : m'.heapLimit = m.heapLimit) : m'.Tiled where
  tiles := by
    obtain ⟨bs, hperm, hbs⟩ := h.tiles
    exact ⟨bs, hperm.trans hblocks.symm, by rwa [htop, hsize]⟩
  sound b hb := h.sound b (hblocks.mem_iff.mp hb)
  top := by rw [htop]; exact h.top
  limit := by
    have := h.limit
    rw [heapSize] at this ⊢
    rwa [htop, hsize, hlimit]

end Tiled

/-! ## Allocating and giving back -/

@[simp]
theorem size_overwriteAll (bytes : Array UInt8) (start : Nat) (value : UInt8) (count : Nat) :
    (overwriteAll bytes start value count).size = bytes.size := by
  induction count generalizing bytes with
  | zero => rfl
  | succ count ih => rw [overwriteAll, ih, Array.size_setIfInBounds]

/-- A new block is one that was given back, or one behind all others. -/
theorem allocate?_cases {size : Nat} (h : m.allocate? size = some (b, m')) :
    (b ∈ m.freed ∧ size ≤ b.size ∧
      m' = { m with
        bytes := overwriteAll m.bytes (b.start - dataBase) 0 b.size
        live := b :: m.live
        freed := m.freed.erase b }) ∨
    (b = ⟨dataBase + m.bytes.size, size⟩ ∧ m.heapSize + size ≤ m.heapLimit ∧
      m' = { m with
        bytes := m.bytes ++ Array.replicate (size) 0
        live := b :: m.live }) := by
  rw [allocate?, reuse?] at h
  cases hfind : m.freed.find? fun b => size ≤ b.size with
  | some block =>
    simp only [hfind, Option.some.injEq, Prod.mk.injEq] at h
    obtain ⟨rfl, rfl⟩ := h
    exact .inl ⟨List.mem_of_find?_eq_some hfind, by simpa using List.find?_some hfind, rfl⟩
  | none =>
    simp only [hfind, grow?] at h
    split at h
    · rename_i hfits
      simp only [Option.some.injEq, Prod.mk.injEq] at h
      obtain ⟨rfl, rfl⟩ := h
      exact .inr ⟨rfl, hfits, rfl⟩
    · simp at h

theorem Tiled.allocate {size : Nat} (h : m.Tiled) (hdvd : wordSize ∣ size) (hsize : 0 < size)
    (halloc : m.allocate? size = some (b, m')) : m'.Tiled := by
  obtain ⟨hfreed, -, rfl⟩ | ⟨rfl, hfits, rfl⟩ := allocate?_cases halloc
  · refine h.of_perm ?_ (by simp) rfl rfl
    calc b :: m.live ++ m.freed.erase b
      _ = b :: (m.live ++ m.freed.erase b) := rfl
      _ |>.Perm (m.live ++ b :: m.freed.erase b) := List.perm_middle.symm
      _ |>.Perm (m.live ++ m.freed) := (List.perm_cons_erase hfreed).symm.append_left _
  · let last : Block := ⟨dataBase + m.bytes.size, size⟩
    have hperm : (m.blocks ++ [last]).Perm (last :: m.live ++ m.freed) :=
      List.perm_append_singleton _ _
    have hsound : ∀ b ∈ m.blocks ++ [last], b.Sound := by
      intro b hb
      rcases List.mem_append.mp hb with hb | hb
      · exact h.sound b hb
      · obtain rfl := List.mem_singleton.mp hb
        exact ⟨h.dvd_end, hdvd, hsize⟩
    refine ⟨?_, fun b hb => hsound b (hperm.mem_iff.mpr hb), h.top, ?_⟩
    · obtain ⟨bs, hbs, hconsecutive⟩ := h.tiles
      refine ⟨bs ++ [last], (hbs.append_right _).trans hperm, ?_⟩
      have hend := hconsecutive.concat (b := last) rfl
      simpa [Nat.add_assoc] using hend
    · have := h.top_le
      simp only [heapSize, Array.size_append, Array.size_replicate] at hfits ⊢
      omega

theorem liveBlock?_eq_some {address : Word} (h : m.liveBlock? address = some b) :
    b ∈ m.live ∧ (b.start : Int) = address.toInt :=
  ⟨List.mem_of_find?_eq_some h, by simpa using List.find?_some h⟩

theorem Tiled.release {address : Word} (h : m.Tiled) (hrelease : m.release? address = some m') :
    m'.Tiled := by
  rw [release?] at hrelease
  split at hrelease
  · rename_i block hlive
    obtain rfl := Option.some.inj hrelease
    refine h.of_perm ?_ rfl rfl rfl
    have hmem := (liveBlock?_eq_some hlive).1
    calc m.live.erase block ++ (m.freed ++ [block])
      _ |>.Perm (m.live.erase block ++ block :: m.freed) :=
        (List.perm_append_singleton _ _).append_left _
      _ |>.Perm (block :: m.live.erase block ++ m.freed) := List.perm_middle
      _ |>.Perm (m.live ++ m.freed) := (List.perm_cons_erase hmem).symm.append_right _
  · simp at hrelease

/-- What can happen to memory: other bytes may come to stand in it, a block may be allocated, and a
block may be given back. -/
inductive Change : Memory → Memory → Prop where
  | refill {m : Memory} {bytes : Array UInt8} (h : bytes.size = m.bytes.size) :
    Change m { m with bytes }
  | allocate {m m' : Memory} {b : Block} {size : Nat} (hdvd : wordSize ∣ size) (hsize : 0 < size)
    (h : m.allocate? size = some (b, m')) : Change m m'
  | release {m m' : Memory} {address : Word} (h : m.release? address = some m') : Change m m'

theorem Tiled.change (h : m.Tiled) (hchange : Change m m') : m'.Tiled := by
  cases hchange with
  | refill hsize => exact h.of_perm (.refl _) hsize rfl rfl
  | allocate hdvd hsize halloc => exact h.allocate hdvd hsize halloc
  | release hrelease => exact h.release hrelease

/-- The stack and the limit of the heap are where they were. -/
structure SameRegions (m m' : Memory) : Prop where
  stackBase : m'.stackBase = m.stackBase
  stackTop : m'.stackTop = m.stackTop
  heapLimit : m'.heapLimit = m.heapLimit

theorem Change.sameRegions (h : Change m m') : m.SameRegions m' := by
  cases h with
  | refill => exact ⟨rfl, rfl, rfl⟩
  | allocate _ _ halloc =>
    obtain ⟨-, -, rfl⟩ | ⟨-, -, rfl⟩ := allocate?_cases halloc
    · exact ⟨rfl, rfl, rfl⟩
    · exact ⟨rfl, rfl, rfl⟩
  | release hrelease =>
    rw [release?] at hrelease
    split at hrelease
    · obtain rfl := Option.some.inj hrelease
      exact ⟨rfl, rfl, rfl⟩
    · simp at hrelease

/-! ## Operations -/

/-- An operation on memory, with its arguments. -/
inductive Operation where
  | read (address : Word) (length : UInt64)
  | loadWord (address : Word)
  | loadByte (address : Word)
  | cstring (address : Word)
  | compare (left right length : Word)
  | write (address : Word) (bytes : List UInt8)
  | storeWord (address value : Word)
  | storeByte (address value : Word)
  | fill (address : Word) (value : UInt8) (length : Word)
  | copy (dest source length : Word)
  | malloc (size : Word)
  | free (address : Word)
  | realloc (address size : Word)

/-- The memory that an access leaves, also where it fails. -/
def left {α : Type} (x : Access α) (m : Memory) : Memory :=
  match x m with
  | .ok _ m' | .error _ m' => m'

/-- The memory after an operation. -/
def perform (m : Memory) : Operation → Memory
  | .read _ _ | .loadWord _ | .loadByte _ | .cstring _ | .compare _ _ _ => m
  | .write address bytes => left (Memory.write address bytes) m
  | .storeWord address value => left (Memory.storeWord address value) m
  | .storeByte address value => left (Memory.storeByte address value) m
  | .fill address value length => left (Memory.fill address value length) m
  | .copy dest source length => left (Memory.copy dest source length) m
  | .malloc size => (m.malloc size).2
  | .free address => (m.free address).2
  | .realloc address size => (m.realloc address size).2

/-- The memory after operations, one after the other. -/
def after (m : Memory) (ops : List Operation) : Memory := ops.foldl perform m

/-- Changes one after the other. -/
abbrev Changes : Memory → Memory → Prop := Relation.ReflTransGen Change

theorem Tiled.changes (h : m.Tiled) (hchanges : Changes m m') : m'.Tiled := by
  induction hchanges with
  | refl => exact h
  | tail _ hchange ih => exact ih.change hchange

theorem Changes.sameRegions (h : Changes m m') : m.SameRegions m' := by
  induction h with
  | refl => exact ⟨rfl, rfl, rfl⟩
  | tail _ hchange ih =>
    have hlast := hchange.sameRegions
    exact ⟨hlast.stackBase.trans ih.stackBase, hlast.stackTop.trans ih.stackTop,
      hlast.heapLimit.trans ih.heapLimit⟩

/-- A request for a positive number of bytes is rounded up to whole words. -/
theorem toNat_align_request {size : Word} (h : ¬ size ≤ 0) :
    (align size.toUInt64).toNat = alignUp size.toInt.toNat := by
  have hlt := size.toInt_lt
  rw [Int64.le_iff_toInt_le, Int64.toInt_zero] at h
  have hnat : size.toUInt64.toNat = size.toInt.toNat := by
    have hunsigned := size.toUnsigned_eq
    rw [Word.toUnsigned] at hunsigned
    omega
  rw [toNat_align, hnat]
  rw [hnat, alignUp, wordSize]
  omega

theorem le_toNat_align {size : Word} (h : ¬ size ≤ 0) :
    size.toInt.toNat ≤ (align size.toUInt64).toNat := by
  rw [toNat_align_request h]
  exact le_alignUp _

theorem toNat_align_pos {size : Word} (h : ¬ size ≤ 0) : 0 < (align size.toUInt64).toNat := by
  refine Nat.lt_of_lt_of_le ?_ (le_toNat_align h)
  rw [Int64.le_iff_toInt_le, Int64.toInt_zero] at h
  omega

theorem changes_malloc (m : Memory) (size : Word) : Changes m (m.malloc size).2 := by
  rw [malloc]
  split
  · exact .refl
  · rename_i hsize
    split
    · rename_i halloc
      exact .single (.allocate (dvd_align _) (toNat_align_pos hsize) halloc)
    · exact .refl

theorem changes_free (m : Memory) (address : Word) : Changes m (m.free address).2 := by
  rw [free]
  split
  · exact .refl
  · split
    · rename_i hrelease
      exact .single (.release hrelease)
    · exact .refl

theorem changes_realloc (m : Memory) (address size : Word) :
    Changes m (m.realloc address size).2 := by
  rw [realloc]
  split
  · exact changes_malloc m size
  split
  · exact changes_free m address
  rename_i hsize
  split
  · exact .refl
  split
  · exact .refl
  split
  · exact .refl
  · rename_i halloc
    have hgrown := Relation.ReflTransGen.single
      (Change.allocate (dvd_align _) (toNat_align_pos hsize) halloc)
    refine (hgrown.tail (.refill ?_)).trans (changes_free _ address)
    exact size_overwrite _ _ _

theorem changes_bind {α β : Type} {x : Access α} {f : α → Access β}
    (hx : ∀ m, Changes m (left x m)) (hf : ∀ a m, Changes m (left (f a) m)) (m : Memory) :
    Changes m (left (x >>= f) m) := by
  have hfirst := hx m
  change Changes m (left (EStateM.bind x f) m)
  rw [left] at hfirst ⊢
  rw [EStateM.bind]
  cases hrun : x m with
  | ok a m' =>
    rw [hrun] at hfirst
    exact hfirst.trans (hf a m')
  | error f m' =>
    rw [hrun] at hfirst
    exact hfirst

theorem changes_look {α : Type} (view : Memory → Except Fault α) (m : Memory) :
    Changes m (left (look view) m) := by
  rw [left, look]
  cases view m <;> exact .refl

/-- Only bytes change. -/
theorem changes_modify {f : Memory → Array UInt8} (hsize : ∀ m, (f m).size = m.bytes.size)
    (m : Memory) : Changes m (left (modify fun m => { m with bytes := f m }) m) :=
  .single (.refill (hsize m))

theorem changes_write (address : Word) (bytes : List UInt8) (m : Memory) :
    Changes m (left (write address bytes) m) :=
  changes_bind (changes_look _) (fun _ => changes_modify fun _ => size_overwrite _ _ _) m

theorem changes_fill (address : Word) (value : UInt8) (length : Word) (m : Memory) :
    Changes m (left (fill address value length) m) :=
  changes_bind (changes_look _) (fun _ => changes_bind (changes_look _)
    fun _ => changes_modify fun _ => size_overwriteAll _ _ _ _) m

theorem changes_copy (dest source length : Word) (m : Memory) :
    Changes m (left (copy dest source length) m) :=
  changes_bind (changes_look _) (fun _ => changes_bind (changes_look _) fun _ =>
    changes_bind (changes_look _) fun _ => changes_modify fun _ => size_overwrite _ _ _) m

theorem changes_perform (m : Memory) (op : Operation) : Changes m (m.perform op) := by
  cases op with
  | read | loadWord | loadByte | cstring | compare => exact .refl
  | write | storeWord | storeByte => exact changes_write _ _ m
  | fill address value length => exact changes_fill address value length m
  | copy dest source length => exact changes_copy dest source length m
  | malloc size => exact changes_malloc m size
  | free address => exact changes_free m address
  | realloc address size => exact changes_realloc m address size

theorem changes_after (m : Memory) (ops : List Operation) : Changes m (m.after ops) := by
  induction ops generalizing m with
  | nil => exact .refl
  | cons op ops ih => exact (changes_perform m op).trans (ih _)

theorem tiled_ofData (data : Array UInt8) (limits : Limits) : (ofData data limits).Tiled where
  tiles := ⟨[], .refl _, by simp [Consecutive, ofData]⟩
  sound := by simp [blocks, ofData]
  top := by
    refine ⟨by simp only [ofData]; omega, ?_⟩
    exact Nat.dvd_add (by decide) (dvd_toNat_add (dvd_align _) (dvd_align _))
  limit := by simp [heapSize, ofData]

theorem free_eq_true_iff (m : Memory) (address : Word) :
    (m.free address).1 = true ↔ address = 0 ∨ ∃ b ∈ m.live, (b.start : Int) = address.toInt := by
  rw [Memory.free, Memory.release?]
  by_cases hzero : address = 0
  · simp [hzero]
  rw [if_neg hzero]
  cases hlive : m.liveBlock? address with
  | some b => simpa [hzero] using ⟨b, liveBlock?_eq_some hlive⟩
  | none =>
    have hnone : ∀ b ∈ m.live, ¬ (b.start : Int) = address.toInt := by
      simpa [liveBlock?] using hlive
    simpa [hzero] using hnone

/-- Whatever is done with memory, the blocks in use and the blocks given back tile the heap. They
are whole words in number and place, no two of them have an address in common, the addresses that
they have are those from the end of the stack to the end of memory, the heap stays within its limit,
and nothing but 0 and the start of a block in use can be given back. -/
theorem blocks_tile_heap (data : Array UInt8) (limits : Limits) (ops : List Operation) :
    let m := (ofData data limits).after ops
    (∀ b ∈ m.live ++ m.freed, wordSize ∣ b.start ∧ wordSize ∣ b.size ∧ 0 < b.size) ∧
      (m.live ++ m.freed).Pairwise (fun b b' => ∀ a, a ∈ b → a ∉ b') ∧
      (∀ a, m.stackTop ≤ a ∧ a < dataBase + m.bytes.size ↔ ∃ b ∈ m.live ++ m.freed, a ∈ b) ∧
      m.stackTop = (ofData data limits).stackTop ∧
      m.stackTop ≤ dataBase + m.bytes.size ∧
      dataBase + m.bytes.size - m.stackTop ≤ limits.heap.toNat ∧
      ∀ address : Word, (m.free address).1 = true ↔
        address = 0 ∨ ∃ b ∈ m.live, (b.start : Int) = address.toInt := by
  intro m
  have hchanges := changes_after (ofData data limits) ops
  have htiled : m.Tiled := (tiled_ofData data limits).changes hchanges
  have hregions := hchanges.sameRegions
  refine ⟨fun b hb => ?_, htiled.pairwise, htiled.mem_heap_iff, hregions.stackTop, htiled.top_le,
    ?_, m.free_eq_true_iff⟩
  · have hsound := htiled.sound b hb
    exact ⟨hsound.aligned, hsound.whole, hsound.positive⟩
  · have hlimit := htiled.limit
    rwa [hregions.heapLimit] at hlimit

end Memory

end MiniC
