import MiniC.Proofs.Machine.Accesses
import MiniC.Proofs.Machine.Starting

/-!
# What the entry point is called with

The arguments of a program and the vector of their addresses are blocks of the heap that are taken
into use one after the other. A block that is taken has no address in common with those in use, and
it is filled through its own address only, so all blocks before it keep what they hold (`Grown`,
`Holds`). What is pushed afterwards goes to the stack, which the heap does not reach. So whatever
the limits are, the entry point finds all its arguments, unless they do not fit the heap or the
stack is too small for the call.
-/

namespace MiniC

/-! ## Texts without NUL -/

theorem zero_not_mem_utf8EncodeChar {c : Char} (hc : c ≠ '\x00') : 0 ∉ String.utf8EncodeChar c := by
  have hval : c.val.toNat ≠ 0 := fun h => hc (Char.ext (UInt32.toNat_inj.mp h))
  have hbyte : ∀ n, n % 256 ≠ 0 → (0 : UInt8) ≠ UInt8.ofNat n := fun n hn heq => by
    have := congrArg UInt8.toNat heq
    rw [UInt8.toNat_ofNat'] at this
    exact hn this.symm
  rw [String.utf8EncodeChar.eq_def]
  dsimp only
  split_ifs
  all_goals
    simp only [List.mem_cons, List.not_mem_nil, or_false, not_or]
    repeat' constructor
    all_goals exact hbyte _ (by omega)

theorem encode_eq_flatMap (text : String) :
    Utf8.encode text = text.toList.flatMap String.utf8EncodeChar := by
  have hchars : ∀ cs : List Char,
      (cs.utf8Encode).data.toList = cs.flatMap String.utf8EncodeChar := by
    intro cs
    induction cs with
    | nil => rfl
    | cons c cs ih =>
      rw [List.utf8Encode_cons, List.utf8Encode_singleton, List.flatMap_cons, ← ih]
      simp
  rw [← hchars, ← String.toByteArray_ofList, String.ofList_toList, Utf8.encode]

theorem zero_not_mem_encode {text : String} (h : '\x00' ∉ text.toList) : 0 ∉ Utf8.encode text := by
  rw [encode_eq_flatMap, List.mem_flatMap]
  rintro ⟨c, hc, hzero⟩
  exact zero_not_mem_utf8EncodeChar (fun heq => h (heq ▸ hc)) hzero

/-! ## Bytes and words in memory -/

theorem Machine.toInt_wordsAbove_ofNat {a : Word} {n : Nat} (ha : 0 ≤ a.toInt)
    (hlt : a.toInt + wordSize * n < 2 ^ 63) :
    (wordsAbove a (Word.ofNat n)).toInt = a.toInt + wordSize * n := by
  rw [wordSize] at hlt ⊢
  have hn : (Word.ofNat n).toInt = n := Word.toInt_ofNat (by omega)
  have hwords : (Word.ofNat n * Word.ofNat 8).toInt = 8 * n := by
    rw [Int64.toInt_mul, hn, Word.toInt_ofNat (by omega), Int.bmod_eq_of_le (by omega) (by omega)]
    omega
  rw [wordsAbove, wordSize, Int64.toInt_add, hwords, Int.bmod_eq_of_le (by omega) (by omega)]
  rfl

namespace Memory

variable {m m' m'' : Memory} {a : Word} {b : Block} {bs bs' : List UInt8}

open Machine (wordsAbove toInt_wordsAbove_ofNat)

theorem getElem?_flatMap_toBytes (ws : List Word) (i : Nat) {k : Nat} (hk : k < wordSize) :
    (ws.flatMap Word.toBytes)[wordSize * i + k]? = (ws[i]?).bind fun w => w.toBytes[k]? := by
  induction ws generalizing i with
  | nil => rfl
  | cons w ws ih =>
    rw [List.flatMap_cons]
    cases i with
    | zero =>
      rw [Nat.mul_zero, Nat.zero_add, List.getElem?_append_left (by rwa [Word.length_toBytes])]
      rfl
    | succ i =>
      have hindex : wordSize * (i + 1) + k - w.toBytes.length = wordSize * i + k := by
        rw [Word.length_toBytes, Nat.mul_succ]
        omega
      rw [List.getElem?_append_right (by rw [Word.length_toBytes, Nat.mul_succ]; omega), hindex, ih]
      rfl

/-- A word that stands among others. -/
theorem HasBytes.word {ws : List Word} {i : Nat} {w : Word}
    (h : m.HasBytes a (ws.flatMap Word.toBytes)) (ha : 0 ≤ a.toInt)
    (hlt : a.toInt + wordSize * ws.length < 2 ^ 63) (hw : ws[i]? = some w) :
    m.HasBytes (wordsAbove a (Word.ofNat i)) w.toBytes := by
  intro k hk
  rw [Word.length_toBytes] at hk
  have hi : i < ws.length := (List.getElem?_eq_some_iff.mp hw).1
  have hle : wordSize * i < wordSize * ws.length := Nat.mul_lt_mul_of_pos_left hi (by decide)
  have haddress : (wordsAbove a (Word.ofNat i)).toInt.toNat + k =
      a.toInt.toNat + (wordSize * i + k) := by
    rw [toInt_wordsAbove_ofNat ha (by omega)]
    omega
  have hbyte := getElem?_flatMap_toBytes ws i hk
  rw [hw, Option.bind_some] at hbyte
  have hin := (List.getElem?_eq_some_iff.mp (hbyte.trans (List.getElem?_eq_getElem
    (by rwa [Word.length_toBytes])))).1
  rw [haddress, h _ hin, hbyte]

theorem cstring_of_hasBytes {text : List UInt8} (h : m.HasBytes a (text ++ [0])) (hnul : 0 ∉ text) :
    m.cstring a = .ok text := by
  have hspans := h.spans (by simp)
  have hspans : m.Spans a 0 := ⟨le_rfl, hspans.2.1, by have := hspans.2.2; simp at this; omega⟩
  have habove : ∀ k, m.byteAbove a k = m.byteAt (a.toInt.toNat + k) := byteAbove_of_spans hspans
  have hzero : m.byteAbove a text.length = some 0 := by
    rw [habove, h text.length (by simp), List.getElem?_concat_length]
  have htext : m.IsText a (text.length + 1) text := by
    refine ⟨by omega, fun k hk => ?_, hnul, .inr hzero⟩
    rw [habove, h k (by rw [List.length_append]; omega), List.getElem?_append_left hk]
  obtain ⟨text', htext'⟩ := cstring_of_byteAbove ⟨_, hzero⟩
  have hread := isText_take htext' (text.length + 1)
  have heq := htext.ext hread fun _ _ _ => rfl
  have hlength := congrArg List.length heq
  rw [List.length_take] at hlength
  rw [List.take_of_length_le (by omega)] at heq
  rw [htext', heq]

theorem Written.refl (m : Memory) (a : Word) : Written m m a [] where
  parts := ⟨_, rfl⟩
  size := rfl
  hasBytes k hk := absurd hk (Nat.not_lt_zero k)
  kept _ _ := rfl

/-- Bytes that stand apart from those that are written. -/
theorem HasBytes.written {a' : Word} (h : m.HasBytes a bs) (hw : Written m m' a' bs')
    (ha : 0 ≤ a.toInt)
    (hapart : a'.toInt + bs'.length ≤ a.toInt ∨ a.toInt + bs.length ≤ a'.toInt) :
    m'.HasBytes a bs := by
  intro k hk
  rw [hw.kept _ (by omega), h k hk]

/-- Bytes that stand behind others. -/
theorem HasBytes.append {a' : Word} (h : m.HasBytes a bs) (h' : m.HasBytes a' bs')
    (ha : 0 ≤ a.toInt) (ha' : a'.toInt = a.toInt + bs.length) : m.HasBytes a (bs ++ bs') := by
  intro k hk
  rw [List.length_append] at hk
  by_cases hlt : k < bs.length
  · rw [List.getElem?_append_left hlt, h k hlt]
  · have haddress : a.toInt.toNat + k = a'.toInt.toNat + (k - bs.length) := by omega
    rw [List.getElem?_append_right (by omega), haddress, h' _ (by omega)]

/-- Bytes that are written behind others. -/
theorem Written.append {a' : Word} (h : Written m m' a bs) (h' : Written m' m'' a' bs')
    (ha : 0 ≤ a.toInt) (ha' : a'.toInt = a.toInt + bs.length) : Written m m'' a (bs ++ bs') where
  parts := by
    obtain ⟨bytes, rfl⟩ := h.parts
    exact h'.parts
  size := h'.size.trans h.size
  hasBytes := (h.hasBytes.written h' ha (.inr (by omega))).append h'.hasBytes ha ha'
  kept x hx := by
    rw [List.length_append] at hx
    rw [h'.kept x (by omega), h.kept x (by omega)]

/-! ## Blocks that are taken into use -/

/-- The bytes `bs` stand at the start of a block in use. -/
structure Holds (m : Memory) (b : Block) (bs : List UInt8) : Prop where
  live : b ∈ m.live
  enough : bs.length ≤ b.size
  start_lt : b.start < 2 ^ 63
  hasBytes : m.HasBytes (Word.ofNat b.start) bs

/-- Blocks were taken into use one after the other. All that was in use before is unchanged, and so
is what lies below the heap. -/
structure Grown (m m' : Memory) (taken : List Block) (more : Nat) : Prop where
  tiled : m'.Tiled
  regions : m.SameRegions m'
  live : m'.live = taken.reverse ++ m.live
  kept : ∀ b ∈ m.live, ∀ x ∈ b, m'.byteAt x = m.byteAt x
  below : ∀ x < m.stackTop, m'.byteAt x = m.byteAt x
  size_le : m'.bytes.size ≤ m.bytes.size + more

namespace Grown

variable {taken taken' : List Block} {more more' : Nat}

theorem refl (h : m.Tiled) : Grown m m [] 0 :=
  ⟨h, ⟨rfl, rfl, rfl⟩, rfl, fun _ _ _ _ => rfl, fun _ _ => rfl, le_rfl⟩

theorem trans (h : Grown m m' taken more) (h' : Grown m' m'' taken' more') :
    Grown m m'' (taken ++ taken') (more + more') where
  tiled := h'.tiled
  regions := ⟨h'.regions.stackBase.trans h.regions.stackBase,
    h'.regions.stackTop.trans h.regions.stackTop, h'.regions.heapLimit.trans h.regions.heapLimit⟩
  live := by rw [h'.live, h.live, List.reverse_append, List.append_assoc]
  kept b hb x hx := by
    have hlive : b ∈ m'.live := by
      rw [h.live]
      exact List.mem_append_right _ hb
    rw [h'.kept b hlive x hx, h.kept b hb x hx]
  below x hx := by
    rw [h'.below x (h.regions.stackTop ▸ hx), h.below x hx]
  size_le := by
    have hle := h.size_le
    have hle' := h'.size_le
    omega

/-- What a block in use holds stays when others are taken. -/
theorem holds (h : Grown m m' taken more) (hb : m.Holds b bs) : m'.Holds b bs where
  live := by
    rw [h.live]
    exact List.mem_append_right _ hb.live
  enough := hb.enough
  start_lt := hb.start_lt
  hasBytes k hk := by
    have hstart := Word.toInt_ofNat hb.start_lt
    have henough := hb.enough
    rw [← hb.hasBytes k hk]
    apply h.kept b hb.live
    rw [Block.mem_iff]
    omega

/-- Writing to the last block that was taken. -/
theorem written (h : Grown m m' [b] more) (hw : Written m' m'' a bs) (ha : a.toInt = b.start)
    (hle : bs.length ≤ b.size) : Grown m m'' [b] more := by
  obtain ⟨bytes, rfl⟩ := hw.parts
  have hlive : b ∈ m'.live := by simp [h.live]
  have hbounds := h.tiled.bounds (List.mem_append_left m'.freed hlive)
  have hregions := h.regions
  refine ⟨h.tiled.change (.refill hw.size), ⟨hregions.stackBase, hregions.stackTop,
    hregions.heapLimit⟩, h.live, fun c hc x hx => ?_, fun x hx => ?_, hw.size ▸ h.size_le⟩
  · have hpairwise := (List.pairwise_append.mp h.tiled.pairwise).1
    rw [h.live, List.reverse_singleton, List.singleton_append, List.pairwise_cons] at hpairwise
    have hout := hpairwise.1 c hc x
    rw [Block.mem_iff (b := b)] at hout
    rw [hw.kept x fun hin => hout (by omega) hx, h.kept c hc x hx]
  · rw [hregions.stackTop] at hbounds
    rw [hw.kept x (by omega), h.below x hx]

end Grown

theorem Tiled.grown {size : Nat} (h : m.Tiled) (hdvd : wordSize ∣ size) (hsize : 0 < size)
    (halloc : m.allocate? size = some (b, m')) : Grown m m' [b] size := by
  have htaken := h.taken halloc
  have hregions := (Change.allocate hdvd hsize halloc).sameRegions
  have htiled := h.allocate hdvd hsize halloc
  have hlive : b ∈ m'.live := by simp [htaken.live]
  have hbounds := htiled.bounds (List.mem_append_left m'.freed hlive)
  refine ⟨htiled, hregions, htaken.live, fun c hc x hx => ?_, fun x hx => ?_, ?_⟩
  · exact htaken.kept x fun hin => htaken.fresh c hc x hin hx
  · apply htaken.kept
    rw [Block.mem_iff, ← hregions.stackTop] at *
    omega
  · obtain ⟨-, -, rfl⟩ | ⟨-, -, rfl⟩ := allocate?_cases halloc
    · rw [size_overwriteAll]
      omega
    · rw [Array.size_append, Array.size_replicate]

/-- The last block that was taken lies in memory, and its addresses are no negative numbers. -/
theorem Grown.spans {more length : Nat} (h : m.Grown m' [b] more)
    (hspace : dataBase + m.bytes.size + more < 2 ^ 63)
    (hlength : length ≤ b.size) :
    b.start < 2 ^ 63 ∧ m'.Spans (Word.ofNat b.start) length := by
  have hlive : b ∈ m'.live := by simp [h.live]
  have hbounds := h.tiled.bounds (List.mem_append_left m'.freed hlive)
  have htop := h.tiled.top.1
  have hsize := h.size_le
  have hint := Word.toInt_ofNat (n := b.start) (by omega)
  exact ⟨by omega, by omega, by omega, by omega⟩

/-- A block that was taken, with bytes written to it. Behind them there is a zero if it has room. -/
theorem Taken.hasBytes {size : Nat} (h : Taken m m' b size) (hw : Written m' m'' a bs)
    (ha : a.toInt = b.start) (hlt : bs.length < b.size) : m''.HasBytes a (bs ++ [0]) := by
  intro k hk
  rw [List.length_append, List.length_singleton] at hk
  by_cases hin : k < bs.length
  · rw [hw.hasBytes k hin, List.getElem?_append_left hin]
  · obtain rfl : k = bs.length := by omega
    have hmem : a.toInt.toNat + bs.length ∈ b := by
      rw [Block.mem_iff]
      omega
    rw [hw.kept _ (by omega), h.zero _ hmem, List.getElem?_concat_length]

end Memory

namespace Machine

open Setting (bind_ok bind_error get_ok modify_ok)

variable {α β : Type} {s : Machine}

/-! ## Starting may fail -/

/-- The reasons for which a program cannot be started. -/
def Exhausts (stop : Stop) : Prop :=
  (∃ requested, stop = .faulted (.outOfMemory requested)) ∨
    ∃ capacity, stop = .faulted (.stackOverflow capacity)

/-- A result as described, or a stop before any instruction because there is no room. -/
inductive Yields (good : α → Machine → Prop) : EStateM.Result Stop Machine α → Prop
  | ok {a : α} {s : Machine} (h : good a s) : Yields good (.ok a s)
  | error {stop : Stop} {s : Machine} (h : Exhausts stop) (hcycle : s.cycle = 0) :
    Yields good (.error stop s)

theorem Yields.bind {x : Exec α} {f : α → Exec β} {good : α → Machine → Prop}
    {good' : β → Machine → Prop} (h : Yields good (x s))
    (hf : ∀ a s', good a s' → Yields good' (f a s')) : Yields good' ((x >>= f) s) := by
  cases hx : x s with
  | ok a s' =>
    rw [hx] at h
    cases h with
    | ok hgood =>
      rw [bind_ok hx]
      exact hf a s' hgood
  | error stop s' =>
    rw [hx] at h
    cases h with
    | error hstop hcycle =>
      rw [bind_error hx]
      exact .error hstop hcycle

/-! ## Placing the arguments -/

theorem yields_reserve {size : Nat} (htiled : s.memory.Tiled) (hcycle : s.cycle = 0)
    (hspace : dataBase + s.memory.bytes.size + alignUp size < 2 ^ 63) :
    Yields (fun a s' => ∃ b m', a = Word.ofNat b.start ∧ s' = { s with memory := m' } ∧
      s.memory.Grown m' [b] (alignUp size) ∧ Memory.Taken s.memory m' b size) (reserve size s) := by
  have hle := le_alignUp size
  have hint : (Word.ofNat size).toInt = size := Word.toInt_ofNat (by omega)
  obtain hnone | ⟨b, m', halloc, hpos, hmalloc⟩ := s.memory.malloc_cases (Word.ofNat size)
  · have hask : askMemory (·.malloc (Word.ofNat size)) s = .ok 0 { s with memory := s.memory } := by
      rw [askMemory, hnone]
    rw [reserve, bind_ok hask, if_pos rfl]
    exact .error (.inl ⟨size, rfl⟩) hcycle
  · have htaken := htiled.taken_request hpos halloc
    rw [hint, Int.toNat_natCast] at htaken
    have hgrown := htiled.grown (dvd_align _) (Memory.toNat_align_pos hpos) halloc
    rw [Memory.toNat_align_request hpos, hint, Int.toNat_natCast] at hgrown
    have hsize' := hgrown.size_le
    have hask : askMemory (·.malloc (Word.ofNat size)) s =
        .ok (Word.ofNat b.start) { s with memory := m' } := by
      rw [askMemory, hmalloc]
    have hne : Word.ofNat b.start ≠ 0 :=
      hgrown.tiled.ofNat_start_ne_zero (by simp [htaken.live]) (by omega)
    rw [reserve, bind_ok hask, if_neg hne]
    exact .ok ⟨b, m', rfl, rfl, hgrown, htaken⟩

theorem yields_placeArgument (arg : String) (htiled : s.memory.Tiled) (hcycle : s.cycle = 0)
    (hspace : dataBase + s.memory.bytes.size + alignUp ((Utf8.encode arg).length + 1) < 2 ^ 63) :
    Yields (fun a s' => ∃ b m', a = Word.ofNat b.start ∧ s' = { s with memory := m' } ∧
      s.memory.Grown m' [b] (alignUp ((Utf8.encode arg).length + 1)) ∧
      m'.Holds b (Utf8.encode arg ++ [0])) (placeArgument arg s) := by
  refine (yields_reserve htiled hcycle hspace).bind ?_
  rintro _ _ ⟨b, m', rfl, rfl, hgrown, htaken⟩
  have henough := htaken.enough
  have hle := le_alignUp ((Utf8.encode arg).length + 1)
  have hroom : (Utf8.encode arg).length ≤ b.size := by omega
  obtain ⟨hstart, hspans⟩ := hgrown.spans hspace hroom
  have hint := Word.toInt_ofNat hstart
  obtain ⟨m'', hwrite, hwritten⟩ := (m'.atomic_write _ _ (by omega)).ok hspans
  have hgrown' := hgrown.written hwritten hint (by omega)
  rw [bind_ok (changeMemory_eq_ok (u := ()).mpr ⟨m'', hwrite, rfl⟩)]
  refine .ok ⟨b, m'', rfl, rfl, hgrown', by simp [hgrown'.live], ?_, hstart,
    htaken.hasBytes hwritten hint (by omega)⟩
  rw [List.length_append, List.length_singleton]
  omega

/-- How many bytes of the heap the texts of the arguments take. -/
def textsSize (args : List String) : Nat :=
  (args.map fun arg => alignUp ((Utf8.encode arg).length + 1)).sum

theorem yields_texts {args : List String} (htiled : s.memory.Tiled) (hcycle : s.cycle = 0)
    (hspace : dataBase + s.memory.bytes.size + textsSize args < 2 ^ 63) :
    Yields (fun addresses s' => ∃ texts m', addresses = (texts.map fun b => Word.ofNat b.start) ∧
      s' = { s with memory := m' } ∧ s.memory.Grown m' texts (textsSize args) ∧
      List.Forall₂ (fun b arg => m'.Holds b (Utf8.encode arg ++ [0])) texts args)
      (args.mapM placeArgument s) := by
  induction args generalizing s with
  | nil => exact .ok ⟨[], s.memory, rfl, rfl, .refl htiled, .nil⟩
  | cons arg args ih =>
    rw [textsSize, List.map_cons, List.sum_cons, ← textsSize] at hspace ⊢
    rw [List.mapM_cons]
    refine (yields_placeArgument arg htiled hcycle (by omega)).bind ?_
    rintro _ _ ⟨b, m₁, rfl, rfl, hgrown₁, hholds⟩
    have hsize₁ := hgrown₁.size_le
    refine (ih (s := { s with memory := m₁ }) hgrown₁.tiled hcycle ?_).bind ?_
    · show dataBase + m₁.bytes.size + textsSize args < 2 ^ 63
      omega
    rintro _ _ ⟨texts, m₂, rfl, rfl, hgrown₂, htexts⟩
    exact .ok ⟨b :: texts, m₂, rfl, rfl, hgrown₁.trans hgrown₂, .cons (hgrown₂.holds hholds) htexts⟩

theorem storeWords_of_spans (ws : List Word) {a : Word}
    (hspans : s.memory.Spans a (wordSize * ws.length))
    (hspace : dataBase + s.memory.bytes.size < 2 ^ 63) :
    ∃ m', storeWords a ws s = .ok () { s with memory := m' } ∧
      s.memory.Written m' a (ws.flatMap Word.toBytes) := by
  induction ws generalizing s a with
  | nil => exact ⟨s.memory, rfl, .refl _ a⟩
  | cons w ws ih =>
    obtain ⟨hpos, hlow, hhigh⟩ := hspans
    rw [List.length_cons, Nat.cast_succ, mul_add, mul_one] at hhigh
    have hrest : 0 ≤ (wordSize * ws.length : Int) := Int.mul_nonneg (by omega) (by omega)
    have hnext : (wordsAbove a 1).toInt = a.toInt + wordSize :=
      (toInt_wordsAbove_ofNat (n := 1) (by omega) (by omega)).trans (by omega)
    obtain ⟨m₁, hstore, hwritten₁, -⟩ :=
      (s.memory.atomic_storeWord a w).ok ⟨by omega, hlow, by omega⟩
    obtain ⟨m₂, hstores, hwritten₂⟩ := ih (s := { s with memory := m₁ }) (a := wordsAbove a 1)
      ⟨by omega, by omega, by rw [hnext, hwritten₁.size]; omega⟩
      (by rw [hwritten₁.size]; exact hspace)
    refine ⟨m₂, ?_, hwritten₁.append hwritten₂ (by omega) (by rw [hnext, Word.length_toBytes])⟩
    rw [storeWords, bind_ok (changeMemory_eq_ok (u := ()).mpr ⟨m₁, hstore, rfl⟩), hstores]

theorem length_flatMap_toBytes (ws : List Word) :
    (ws.flatMap Word.toBytes).length = wordSize * ws.length := by
  induction ws with
  | nil => rfl
  | cons w ws ih =>
    rw [List.flatMap_cons, List.length_append, ih, Word.length_toBytes, List.length_cons,
      Nat.mul_succ, Nat.add_comm]

/-- The words of the vector: the addresses of the texts and a zero. -/
def vectorWords (texts : List Block) : List Word := (texts.map fun b => Word.ofNat b.start) ++ [0]

/-- The arguments stand in the blocks `texts`, and the vector of their addresses in another one. -/
structure Placed (m m' : Memory) (args : List String) (texts : List Block) (vector : Block) :
    Prop where
  grown : m.Grown m' (texts ++ [vector]) (argumentsSize args)
  text : List.Forall₂ (fun b arg => m'.Holds b (Utf8.encode arg ++ [0])) texts args
  words : m'.Holds vector ((vectorWords texts).flatMap Word.toBytes)

theorem yields_placeArguments {args : List String} (htiled : s.memory.Tiled) (hcycle : s.cycle = 0)
    (hspace : dataBase + s.memory.bytes.size + argumentsSize args < 2 ^ 63) :
    Yields (fun a s' => ∃ texts vector m', a = Word.ofNat vector.start ∧
      s' = { s with memory := m' } ∧ Placed s.memory m' args texts vector)
      (placeArguments args s) := by
  have hcost : argumentsSize args = textsSize args + alignUp ((args.length + 1) * wordSize) := rfl
  refine (yields_texts htiled hcycle (by omega)).bind ?_
  rintro _ _ ⟨texts, m₁, rfl, rfl, hgrown₁, htexts⟩
  have hsize₁ := hgrown₁.size_le
  have hspace₁ : dataBase + m₁.bytes.size + alignUp ((args.length + 1) * wordSize) < 2 ^ 63 := by
    omega
  refine (yields_reserve (s := { s with memory := m₁ }) hgrown₁.tiled hcycle hspace₁).bind ?_
  rintro _ _ ⟨vector, m₂, rfl, rfl, hgrown₂, htaken⟩
  have hlength : (vectorWords texts).length = args.length + 1 := by
    rw [vectorWords, List.length_append, List.length_map, htexts.length_eq, List.length_singleton]
  have henough := htaken.enough
  have hsize₂ : m₂.bytes.size ≤ m₁.bytes.size + _ := hgrown₂.size_le
  have hbytes := length_flatMap_toBytes (vectorWords texts)
  rw [hlength, Nat.mul_comm] at hbytes
  obtain ⟨hstart, hspans⟩ := hgrown₂.spans hspace₁ henough
  obtain ⟨m₃, hstore, hwritten⟩ := storeWords_of_spans (s := { s with memory := m₂ })
    (vectorWords texts) (a := Word.ofNat vector.start)
    (by rw [hlength, mul_comm]; exact_mod_cast hspans)
    (by show dataBase + m₂.bytes.size < 2 ^ 63; omega)
  have hgrown₃ := hgrown₂.written hwritten (Word.toInt_ofNat hstart) (by omega)
  rw [← vectorWords, bind_ok hstore]
  refine .ok ⟨texts, vector, m₃, rfl, rfl, hgrown₁.trans hgrown₃, ?_, ?_⟩
  · exact htexts.imp fun b arg hholds => hgrown₃.holds hholds
  · exact ⟨by simp [hgrown₃.live], by omega, hstart, hwritten.hasBytes⟩

/-! ## The call of the entry point -/

end Machine

namespace Memory

variable {m m' m'' : Memory} {sp w : Word} {ws : List Word} {b : Block} {bs : List UInt8}

/-- The words `ws` have been pushed, the first one last, and nothing else has changed. -/
structure Pushed (m : Memory) (sp : Word) (m' : Memory) (ws : List Word) : Prop where
  parts : ∃ bytes, m' = { m with bytes }
  size : m'.bytes.size = m.bytes.size
  kept : ∀ x, ¬(m.stackBase ≤ x ∧ x < m.stackTop) → m'.byteAt x = m.byteAt x
  sp_eq : sp.toInt + wordSize * ws.length = m.stackTop
  base_le : m.stackBase ≤ sp.toInt
  words : m'.HasBytes sp (ws.flatMap Word.toBytes)

/-- The data of a program are the first bytes of its memory. -/
theorem byteAt_ofData {data : Array UInt8} {limits : Limits} {k : Nat}
    (hextent : extent data limits < 2 ^ 64) (hk : k < data.size) :
    (ofData data limits).byteAt (dataBase + k) = data[k]? := by
  rw [byteAt_of_le (by omega), Nat.add_sub_cancel_left, getElem?_ofData_of_lt hextent hk]

/-- A block in use keeps what it holds. -/
theorem Pushed.holds (h : Pushed m sp m' ws) (htiled : m.Tiled) (hb : m.Holds b bs) :
    m'.Holds b bs := by
  obtain ⟨bytes, rfl⟩ := h.parts
  have hbounds := htiled.bounds (List.mem_append_left m.freed hb.live)
  have hint := Word.toInt_ofNat hb.start_lt
  refine ⟨hb.live, hb.enough, hb.start_lt, fun k hk => ?_⟩
  rw [h.kept _ (by omega), hb.hasBytes k hk]

/-- The word at a place of the stack, counted from the one that was pushed last. -/
theorem Pushed.loadWord (h : Pushed m sp m' ws) (hspace : m.stackTop < 2 ^ 63) {i : Nat}
    (hw : ws[i]? = some w) : m'.loadWord (Machine.wordsAbove sp (Word.ofNat i)) = .ok w := by
  have hsp := h.sp_eq
  have hbase := h.base_le
  exact loadWord_of_hasBytes (h.words.word (by omega) (by omega) hw)

end Memory

namespace Machine

open Setting (bind_ok bind_error get_ok modify_ok)

variable {s : Machine} {m : Memory} {ws : List Word}

/-- A step executes its instruction, whatever the sink holds then, unless it is traced and the sink
refuses the trace. -/
theorem step_cases {loaded : Loaded} {i : Instr} (hcode : loaded.code[s.pc]? = some i)
    (fuel : Nat) :
    (∃ out, step loaded fuel s =
      execute loaded fuel i { s with pc := s.pc + 1, cycle := s.cycle + 1, out }) ∨
    loaded.trace = true ∧
      ∃ s', step loaded fuel s = .error (.faulted (.output Sink.failure)) s' := by
  have hstep : step loaded fuel s =
      (do
        if loaded.trace then emit (Utf8.encode (i.traceRow (s.cycle + 1) ++ "\n"))
        execute loaded fuel i : Exec Unit) { s with pc := s.pc + 1, cycle := s.cycle + 1 } := by
    rw [step, bind_ok (get_ok s), hcode]
    exact bind_ok (modify_ok _ s)
  by_cases htrace : loaded.trace = true
  · rw [hstep, if_pos htrace]
    generalize Utf8.encode (i.traceRow (s.cycle + 1) ++ "\n") = row
    by_cases haccepts : s.out.accepts row = true
    · refine .inl ⟨s.out.write row, bind_ok (a := ()) ?_⟩
      simp only [emit, haccepts, if_true]
    · refine .inr ⟨htrace, { s with
        pc := s.pc + 1
        cycle := s.cycle + 1
        out := s.out.write row }, bind_error ?_⟩
      simp only [emit, haccepts, if_neg, Bool.false_eq_true, not_false_eq_true]
  · exact .inl ⟨s.out, by rw [hstep, if_neg htrace]⟩

section Stack

variable (hbase : dataBase ≤ m.stackBase) (htop : m.stackTop ≤ dataBase + m.bytes.size)
  (h : m.Pushed s.sp s.memory ws)

include hbase htop h

/-- A word is pushed, or there is no room for it. -/
theorem push_cases (w : Word) :
    (∃ capacity s', push w s = .error (.faulted (.stackOverflow capacity)) s' ∧
      s'.cycle = s.cycle) ∨
    ∃ m', push w s = .ok () { s with sp := wordsAbove s.sp (-1), memory := m' } ∧
      m.Pushed (wordsAbove s.sp (-1)) m' (w :: ws) := by
  have hlow := h.base_le
  have hsp := h.sp_eq
  have hnext := toInt_wordsAbove_neg_one (a := s.sp) (by omega)
  obtain ⟨bytes, hparts⟩ := h.parts
  have hsame : s.memory.stackBase = m.stackBase := by rw [hparts]
  have hint : (Word.ofNat s.memory.stackBase).toInt = s.memory.stackBase := by
    have hlt := s.sp.toInt_lt
    exact Word.toInt_ofNat (by omega)
  by_cases hroom : wordsAbove s.sp (-1) < Word.ofNat s.memory.stackBase
  · refine .inl ⟨s.memory.stackSize, { s with sp := wordsAbove s.sp (-1) }, ?_, rfl⟩
    have hcheck : checkStack { s with sp := wordsAbove s.sp (-1) } =
        .error (.faulted (.stackOverflow s.memory.stackSize))
          { s with sp := wordsAbove s.sp (-1) } := by
      rw [checkStack, bind_ok (get_ok _), if_pos hroom]
      rfl
    rw [push, bind_ok (modify_ok _ s)]
    exact bind_error hcheck
  · have hle := Int64.not_lt.mp hroom
    rw [Int64.not_lt, Int64.le_iff_toInt_le, hint] at hroom
    have hrest : 0 ≤ (wordSize * ws.length : Int) := Int.mul_nonneg (by omega) (by omega)
    have hspans : s.memory.Spans (wordsAbove s.sp (-1)) wordSize :=
      ⟨by omega, by omega, by rw [h.size]; omega⟩
    obtain ⟨m', hstore, hwritten, -⟩ := (s.memory.atomic_storeWord _ w).ok hspans
    have hlength := Word.length_toBytes w
    refine .inr ⟨m', push_eq_ok.mpr ⟨hle, m', hstore, rfl⟩, ?_, hwritten.size.trans h.size,
      fun x hx => ?_, ?_, by omega, ?_⟩
    · obtain ⟨bytes', hparts'⟩ := hwritten.parts
      exact ⟨bytes', by rw [hparts', hparts]⟩
    · rw [hwritten.kept x (by omega), h.kept x hx]
    · rw [List.length_cons, Nat.cast_succ, mul_add, mul_one]
      omega
    · rw [List.flatMap_cons]
      exact hwritten.hasBytes.append (h.words.written hwritten (by omega) (.inl (by omega)))
        (by omega) (by omega)

theorem yields_push (hcycle : s.cycle = 0) (w : Word) :
    Yields (fun _ s' => s'.cycle = 0 ∧ m.Pushed s'.sp s'.memory (w :: ws)) (push w s) := by
  obtain ⟨capacity, s', hpush, hcycle'⟩ | ⟨m', hpush, hpushed⟩ := push_cases hbase htop h w
  · rw [hpush]
    exact .error (.inr ⟨capacity, rfl⟩) (hcycle'.trans hcycle)
  · rw [hpush]
    exact .ok ⟨hcycle, hpushed⟩

/-- A frame is opened above the caller's frame pointer, or there is no room for it. -/
theorem enter_cases (slots : Word) :
    (∃ capacity s', enter slots s = .error (.faulted (.stackOverflow capacity)) s') ∨
    ∃ s', enter slots s = .ok () s' ∧ m.Pushed s'.bp s'.memory (s.bp :: ws) := by
  obtain ⟨capacity, s', hpush, -⟩ | ⟨m', hpush, hpushed⟩ := push_cases hbase htop h s.bp
  · exact .inl ⟨capacity, s', by rw [enter, bind_ok (get_ok s), bind_error hpush]⟩
  · let entered : Machine := { s with
      bp := wordsAbove s.sp (-1)
      sp := wordsAbove (wordsAbove s.sp (-1)) (-slots)
      memory := m' }
    have henter : enter slots s = checkStack entered := by
      rw [enter, bind_ok (get_ok s), bind_ok hpush]
      exact bind_ok (modify_ok _ _)
    by_cases hroom : entered.sp < Word.ofNat entered.memory.stackBase
    · refine .inl ⟨entered.memory.stackSize, entered, ?_⟩
      rw [henter, checkStack, bind_ok (get_ok _), if_pos hroom]
      rfl
    · exact .inr ⟨entered, henter.trans (checkStack_eq_ok.mpr ⟨Int64.not_lt.mp hroom, rfl⟩),
        hpushed⟩

/-- The step that opens a frame. -/
theorem step_enter {loaded : Loaded} {slots : Word}
    (hcode : loaded.code[s.pc]? = some (.enter slots)) (fuel : Nat) :
    (∃ s', step loaded fuel s = .ok () s' ∧ m.Pushed s'.bp s'.memory (s.bp :: ws)) ∨
    ∃ stop s', step loaded fuel s = .error stop s' ∧
      ((∃ capacity, stop = .faulted (.stackOverflow capacity)) ∨
        loaded.trace = true ∧ stop = .faulted (.output Sink.failure)) := by
  obtain ⟨out, hstep⟩ | ⟨htrace, s', hstep⟩ := step_cases hcode fuel
  · rw [hstep]
    obtain ⟨capacity, s', henter⟩ | hopened := enter_cases
      (s := { s with pc := s.pc + 1, cycle := s.cycle + 1, out }) hbase htop h slots
    · exact .inr ⟨_, s', henter, .inl ⟨capacity, rfl⟩⟩
    · exact .inl hopened
  · exact .inr ⟨_, s', hstep, .inr ⟨htrace, rfl⟩⟩

end Stack

end Machine

namespace Program

open Machine Setting

variable {p : Program} {limits : Limits} {args : List String}

/-- What a machine is like that is about to execute the first instruction of the entry point. -/
structure Ready (p : Program) (limits : Limits) (args : List String) (s : Machine) (m : Memory)
    (texts : List Block) (vector : Block) : Prop where
  cycle : s.cycle = 0
  pc : s.pc = (p.symbols.binding SymbolTable.entry).value.toUnsigned
  placed : Placed (Memory.ofData p.data limits) m args texts vector
  pushed : m.Pushed s.sp s.memory
    [Word.ofNat p.code.size, Word.ofNat vector.start, Word.ofNat args.length]

theorem yields_start (files : Descriptors) (out : Sink)
    (hspace : dataBase + Memory.extent p.data limits + argumentsSize args < 2 ^ 63) :
    Yields (fun _ s => ∃ m texts vector, p.Ready limits args s m texts vector)
      (p.start limits args files out) := by
  have hextent : Memory.extent p.data limits < 2 ^ 64 := by omega
  have htop := Memory.stackTop_ofData hextent
  have hsize := Memory.size_ofData p.data limits
  have hbase : dataBase ≤ (Memory.ofData p.data limits).stackBase := Nat.le_add_right _ _
  have hbaseTop := Memory.stackBase_le_stackTop hextent
  have hspace' : dataBase + (Memory.ofData p.data limits).bytes.size + argumentsSize args <
      2 ^ 63 := by omega
  refine (yields_placeArguments (s := idle p.data limits files out)
    (Memory.tiled_ofData p.data limits) rfl hspace').bind ?_
  rintro _ _ ⟨texts, vector, m, rfl, rfl, hplaced⟩
  have hregions := hplaced.grown.regions
  have hbase' : dataBase ≤ m.stackBase := hregions.stackBase ▸ hbase
  have htop' := hplaced.grown.tiled.top_le
  have hsp : (Word.ofNat (Memory.ofData p.data limits).stackTop).toInt = m.stackTop := by
    rw [Word.toInt_ofNat (by omega), hregions.stackTop]
    rfl
  have hpushed₀ : m.Pushed (Word.ofNat (Memory.ofData p.data limits).stackTop) m [] :=
    ⟨⟨_, rfl⟩, rfl, fun _ _ => rfl, by rw [hsp]; simp,
      by rw [hsp, hregions.stackBase, hregions.stackTop]; exact_mod_cast hbaseTop,
      fun k hk => absurd hk (Nat.not_lt_zero k)⟩
  refine (yields_push hbase' htop' (s := { idle p.data limits files out with memory := m }) hpushed₀
    rfl (Word.ofNat args.length)).bind fun _ s₁ ⟨hcycle₁, hpushed₁⟩ => ?_
  refine (yields_push hbase' htop' hpushed₁ hcycle₁ (Word.ofNat vector.start)).bind
    fun _ s₂ ⟨hcycle₂, hpushed₂⟩ => ?_
  refine (yields_push hbase' htop' hpushed₂ hcycle₂ (Word.ofNat p.code.size)).bind
    fun _ s₃ ⟨hcycle₃, hpushed₃⟩ => ?_
  exact .ok ⟨m, texts, vector, hcycle₃, rfl, hplaced, hpushed₃⟩

/-- What the entry point of a program finds when it has opened its frame: the number of arguments
and their vector above the return address, and the exit sequence as where to return to. The vector
has the addresses of the arguments and then a zero. It and the arguments are in blocks of their own,
and the data are as they were. -/
structure Called (p : Program) (limits : Limits) (args : List String) (s : Machine)
    (count argv : Word) (texts : List Block) (vector : Block) : Prop where
  count_eq : s.memory.loadWord (wordsAbove s.bp 3) = .ok count ∧ count.toInt = args.length
  argv_eq : s.memory.loadWord (wordsAbove s.bp 2) = .ok argv
  exit : s.memory.loadWord (wordsAbove s.bp 1) = .ok (Word.ofNat p.code.size)
  text : ∀ i (hi : i < args.length), ∃ a b,
    s.memory.loadWord (wordsAbove argv (Word.ofNat i)) = .ok a ∧
    s.memory.cstring a = .ok (Utf8.encode args[i]) ∧
    texts[i]? = some b ∧ a.toInt = b.start ∧ (Utf8.encode args[i]).length + 1 ≤ b.size
  stop : s.memory.loadWord (wordsAbove argv (Word.ofNat args.length)) = .ok 0
  room : argv.toInt = vector.start ∧ (args.length + 1) * wordSize ≤ vector.size
  live : s.memory.live = vector :: texts.reverse
  length : texts.length = args.length
  heap : ∀ b ∈ s.memory.live, s.memory.stackTop ≤ b.start ∧
    b.start + b.size ≤ dataBase + s.memory.bytes.size
  disjoint : (vector :: texts).Pairwise Block.Disjoint
  data : ∀ k < p.data.size, s.memory.byteAt (dataBase + k) = p.data[k]?
  region : ∀ x < (Memory.ofData p.data limits).stackBase,
    s.memory.byteAt x = (Memory.ofData p.data limits).byteAt x

theorem Ready.called {s s' : Machine} {m : Memory} {texts : List Block} {vector : Block}
    (h : p.Ready limits args s m texts vector)
    (hargs : ∀ arg ∈ args, '\x00' ∉ arg.toList)
    (hspace : dataBase + Memory.extent p.data limits + argumentsSize args < 2 ^ 63)
    (hpushed : m.Pushed s'.bp s'.memory
      [s.bp, Word.ofNat p.code.size, Word.ofNat vector.start, Word.ofNat args.length]) :
    p.Called limits args s' (Word.ofNat args.length) (Word.ofNat vector.start) texts vector := by
  have hextent : Memory.extent p.data limits < 2 ^ 64 := by omega
  have hgrown := h.placed.grown
  have htiled := hgrown.tiled
  have hsize := hgrown.size_le
  have hfirst := Memory.size_ofData p.data limits
  have hfirst' := Memory.stackTop_ofData hextent
  have htop := htiled.top_le
  have hstack : m.stackTop < 2 ^ 63 := by omega
  have hlength := h.placed.text.length_eq
  have hwords := hpushed.holds htiled h.placed.words
  have hbounds := htiled.bounds (List.mem_append_left m.freed h.placed.words.live)
  have henough := hwords.enough
  rw [length_flatMap_toBytes, vectorWords, List.length_append, List.length_map, hlength,
    List.length_singleton] at henough
  have hvector := Word.toInt_ofNat hwords.start_lt
  have hword : ∀ i w, (vectorWords texts)[i]? = some w →
      s'.memory.loadWord (wordsAbove (Word.ofNat vector.start) (Word.ofNat i)) = .ok w := by
    intro i w hw
    refine Memory.loadWord_of_hasBytes (hwords.hasBytes.word (by omega) ?_ hw)
    rw [vectorWords, List.length_append, List.length_map, hlength, List.length_singleton, hvector]
    exact_mod_cast Nat.lt_of_le_of_lt (Nat.add_le_add_left henough vector.start) (by omega)
  obtain ⟨bytes, hparts⟩ := hpushed.parts
  have hlive : s'.memory.live = vector :: texts.reverse := by
    rw [hparts]
    show m.live = _
    rw [hgrown.live, List.reverse_append]
    exact List.append_nil _
  have hregion : ∀ x < (Memory.ofData p.data limits).stackBase,
      s'.memory.byteAt x = (Memory.ofData p.data limits).byteAt x := by
    intro x hx
    have hle := Memory.stackBase_le_stackTop hextent
    rw [hpushed.kept x (by rw [hgrown.regions.stackBase]; omega), hgrown.below x (by omega)]
  have hcount : args.length < 2 ^ 63 := by
    rw [wordSize] at henough
    omega
  refine ⟨⟨hpushed.loadWord hstack (i := 3) rfl, Word.toInt_ofNat hcount⟩,
    hpushed.loadWord hstack (i := 2) rfl, hpushed.loadWord hstack (i := 1) rfl, fun i hi => ?_, ?_,
    ⟨hvector, by rwa [Nat.mul_comm]⟩, hlive, hlength, fun b hb => ?_, ?_, fun k hk => ?_, hregion⟩
  · have hi' : i < texts.length := by omega
    have hholds := hpushed.holds htiled (h.placed.text.get hi' hi)
    have hfits := hholds.enough
    rw [List.length_append, List.length_singleton] at hfits
    refine ⟨Word.ofNat texts[i].start, texts[i], hword i _ ?_,
      Memory.cstring_of_hasBytes hholds.hasBytes ?_, List.getElem?_eq_getElem hi',
      Word.toInt_ofNat hholds.start_lt, hfits⟩
    · rw [vectorWords, List.getElem?_append_left (by rwa [List.length_map]), List.getElem?_map,
        List.getElem?_eq_getElem hi']
      rfl
    · exact zero_not_mem_encode (hargs _ (List.getElem_mem hi))
  · apply hword
    rw [vectorWords, ← hlength, ← List.length_map (f := fun b : Block => Word.ofNat b.start),
      List.getElem?_concat_length]
  · rw [hparts] at hb ⊢
    have hin := htiled.bounds (List.mem_append_left m.freed hb)
    rwa [← hpushed.size, hparts] at hin
  · have hpairwise := (List.pairwise_append.mp htiled.pairwise).1
    have hlive' : m.live = vector :: texts.reverse := by rw [← hlive, hparts]
    rw [hlive'] at hpairwise
    exact (((List.reverse_perm texts).cons vector).pairwise_iff fun hd => hd.symm).mp hpairwise
  · have hlt : dataBase + k < (Memory.ofData p.data limits).stackBase := by
      have hle := le_alignUp (max limits.data.toNat p.data.size)
      rw [Memory.stackBase_ofData hextent]
      omega
    rw [hregion _ hlt, Memory.byteAt_ofData hextent hk]

/-- A program cannot be started for want of heap or stack, and then no instruction is executed. Or
it starts, and once its entry point has opened a frame, it finds its arguments there; the frame may
not fit the stack, and where instructions are traced, the sink may refuse the trace. Every byte of
memory and of the arguments must have an address, which is a signed word (`hspace`). -/
theorem arguments_reach_entry (p : Program) (limits : Limits) (args : List String) (trace : Bool)
    (files : Descriptors) (out : Sink) (hargs : ∀ arg ∈ args, '\x00' ∉ arg.toList)
    (hspace : dataBase + Memory.extent p.data limits + argumentsSize args < 2 ^ 63) :
    (∃ stop s, Exhausts stop ∧ s.cycle = 0 ∧
      ∀ fuel, p.run limits args trace files out fuel = (stop, s)) ∨
    ∃ s, s.cycle = 0 ∧ s.pc = (p.symbols.binding SymbolTable.entry).value.toUnsigned ∧
      (∀ fuel, p.run limits args trace files out fuel = s.run (p.load trace) fuel) ∧
      (p.load trace).code[p.code.size]? = some .push ∧
      (p.load trace).code[p.code.size + 1]? = some (.service .exit) ∧
      ∀ slots, (p.load trace).code[s.pc]? = some (.enter slots) → ∀ fuel,
        (∃ s', step (p.load trace) fuel s = .ok () s' ∧
          ∃ count argv texts vector, p.Called limits args s' count argv texts vector) ∨
        ∃ stop s', step (p.load trace) fuel s = .error stop s' ∧
          ((∃ capacity, stop = .faulted (.stackOverflow capacity)) ∨
            trace = true ∧ stop = .faulted (.output Sink.failure)) := by
  have hyields := yields_start files out hspace
  cases hstart : p.start limits args files out with
  | error stop s =>
    rw [hstart] at hyields
    obtain - | ⟨hstop, hcycle⟩ := hyields
    exact .inl ⟨stop, s, hstop, hcycle, fun fuel => by rw [run, hstart]⟩
  | ok u s =>
    rw [hstart] at hyields
    obtain ⟨m, texts, vector, hready⟩ | - := hyields
    refine .inr ⟨s, hready.cycle, hready.pc, fun fuel => by rw [run, hstart], by simp [load],
      by simp [load], fun slots hcode fuel => ?_⟩
    have hbase : dataBase ≤ m.stackBase :=
      hready.placed.grown.regions.stackBase ▸ Nat.le_add_right _ _
    obtain ⟨s', hstep, hpushed⟩ | hfault :=
      step_enter hbase hready.placed.grown.tiled.top_le hready.pushed hcode fuel
    · exact .inl ⟨s', hstep, _, _, texts, vector, hready.called hargs hspace hpushed⟩
    · exact .inr hfault

/-- A program whose entry point opens a frame and returns. -/
def returning : Program := ⟨#[.enter 0, .leave], #[7], .builtin 64⟩

/-- Room for the call and for three small blocks. -/
def returningLimits : Limits := ⟨0, 0, 8, 40, 0, 64⟩

theorem arguments_reach_returning :
    ∃ s s' count argv texts vector, step (returning.load false) 0 s = .ok () s' ∧
      returning.Called returningLimits ["a", ""] s' count argv texts vector := by
  have hrun : (returning.run returningLimits ["a", ""] false (.start ⟨[], []⟩ []) (.empty none)
      1).1 = .outOfFuel := by decide +kernel
  obtain ⟨stop, s, hstop, -, hfails⟩ | ⟨s, -, hpc, hruns, -, -, hentry⟩ :=
    arguments_reach_entry returning returningLimits ["a", ""] false (.start ⟨[], []⟩ [])
      (.empty none) (by decide) (by decide +kernel)
  · rw [hfails] at hrun
    obtain ⟨_, rfl⟩ | ⟨_, rfl⟩ := hstop
    · cases hrun
    · cases hrun
  · have hcode : (returning.load false).code[s.pc]? = some (.enter 0) := by
      rw [hpc]
      decide +kernel
    obtain ⟨s', hstep, hcalled⟩ | ⟨stop, s', hstep, hstop⟩ := hentry 0 hcode 0
    · exact ⟨s, s', hcalled.imp fun _ => .imp fun _ => .imp fun _ => .imp fun _ h => ⟨hstep, h⟩⟩
    · rw [hruns, Machine.run, hstep] at hrun
      obtain ⟨_, rfl⟩ | ⟨-, rfl⟩ := hstop
      · cases hrun
      · cases hrun

end Program

end MiniC
