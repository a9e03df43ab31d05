import MiniC.Proofs.Format.Texts
import MiniC.Proofs.Heap.Contents
import MiniC.Proofs.Machine.Updates

/-!
# Which accesses succeed, and what they do

All accesses go by one rule: a range is legal if both its ends lie in memory, where the ends are
unbounded integers (`Spans`). The ends are computed with words and unsigned sizes, and what does not
fit them is refused on the way; that this comes to the same is said of the index of a range
(`guarded_index`). An access succeeds exactly if its ranges are legal and its length is not
negative, and otherwise it is a segmentation fault (`Guarded`).

An access that writes is made of checks and one change in a row, and could leave memory half changed
if it failed. No byte is written before the last check has passed, so a fault leaves memory as it
was (`Atomic`). What a successful one does is said of the bytes at addresses: it writes its range
and nothing else (`Written`).
-/

namespace MiniC

namespace Word

/-- The bytes of a word are its digits to the base 256, the lowest one first. -/
theorem lowBytes_eq_map (count n : Nat) :
    lowBytes count n = (List.range count).map fun k => UInt8.ofNat (n / 256 ^ k) := by
  induction count generalizing n with
  | zero => rfl
  | succ count ih =>
    rw [lowBytes, ih, List.range_succ_eq_map, List.map_cons, List.map_map, pow_zero, Nat.div_one]
    congr 1
    apply List.map_congr_left
    intro k _
    rw [Function.comp_apply, Nat.succ_eq_add_one, Nat.pow_succ', Nat.div_div_eq_div_mul]

theorem lowBytes_foldr (bs : List UInt8) :
    lowBytes bs.length (bs.foldr (fun b n => b.toNat + 256 * n) 0) = bs := by
  induction bs with
  | nil => rfl
  | cons b bs ih =>
    have hb := b.toNat_lt
    have hbyte : ∀ n, UInt8.ofNat (b.toNat + 256 * n) = b := fun n => by
      rw [← UInt8.toNat_inj, UInt8.toNat_ofNat']
      omega
    have hrest : ∀ n, (b.toNat + 256 * n) / 256 = n := fun n => by omega
    rw [List.length_cons, List.foldr_cons, lowBytes, hbyte, hrest, ih]

theorem foldr_lt (bs : List UInt8) :
    bs.foldr (fun b n => b.toNat + 256 * n) 0 < 256 ^ bs.length := by
  induction bs with
  | nil => decide
  | cons b bs ih =>
    have hb := b.toNat_lt
    rw [List.foldr_cons, List.length_cons, Nat.pow_succ']
    omega

theorem toBytes_ofBytes {bs : List UInt8} (h : bs.length = wordSize) :
    (ofBytes bs).toBytes = bs := by
  have hlt := foldr_lt bs
  rw [h] at hlt
  rw [toBytes, ofBytes, toUnsigned_ofNat hlt, ← h, lowBytes_foldr]

theorem toBytes_inj {v w : Word} (h : v.toBytes = w.toBytes) : v = w := by
  rw [← ofBytes_toBytes v, h, ofBytes_toBytes]

theorem toInt_ofByte (b : UInt8) : (ofByte b).toInt = (b.toNat : Int).bmod 256 := by
  rw [ofByte, Int8.toInt_toInt64]
  exact BitVec.toInt_eq_toNat_bmod b.toBitVec

/-- The low byte of a word, read as a signed number, is the word cut off to a signed byte. -/
theorem toInt_ofByte_lowByte (v : Word) : (ofByte v.lowByte).toInt = v.toInt.bmod 256 := by
  have hbyte : v.lowByte.toNat = v.toUInt64.toNat % 256 := UInt64.toNat_toUInt8 _
  have hword : v.toInt = (v.toUInt64.toNat : Int).bmod (2 ^ 64) :=
    BitVec.toInt_eq_toNat_bmod v.toBitVec
  rw [toInt_ofByte, hbyte, hword, Int.bmod_bmod_of_dvd (by decide), Int.natCast_emod]
  exact Int.emod_bmod _ 256

end Word

namespace Memory

variable {m m' : Memory} {a : Word} {bs : List UInt8} {α β : Type}

/-! ## Legal ranges -/

/-- A range of the given length lies in memory. It may be empty, also at the end of memory. -/
def Spans (m : Memory) (a : Word) (length : Int) : Prop :=
  0 ≤ length ∧ dataBase ≤ a.toInt ∧ a.toInt + length ≤ dataBase + m.bytes.size

instance (m : Memory) (a : Word) (length : Int) : Decidable (m.Spans a length) :=
  inferInstanceAs (Decidable (_ ∧ _ ∧ _))

theorem offset?_of_spans {length : Nat} (h : m.Spans a length) :
    m.offset? a length = some (a.toInt.toNat - dataBase) := by
  obtain ⟨-, hlow, hhigh⟩ := h
  exact offset?_of_toInt (by omega) (by omega)

theorem offset?_of_not_spans {length : Nat} (h : ¬m.Spans a length) :
    m.offset? a length = none := by
  rw [offset?, if_neg]
  rintro ⟨hlow, hhigh⟩
  exact h ⟨by omega, by omega, by omega⟩

/-! ## Bytes at addresses -/

/-- The bytes `bs` stand in memory from an address on. -/
def HasBytes (m : Memory) (a : Word) (bs : List UInt8) : Prop :=
  ∀ k < bs.length, m.byteAt (a.toInt.toNat + k) = bs[k]?

/-- The memory `m'` is `m` with the bytes `bs` at an address, and without any other change. -/
structure Written (m m' : Memory) (a : Word) (bs : List UInt8) : Prop where
  parts : ∃ bytes, m' = { m with bytes }
  size : m'.bytes.size = m.bytes.size
  hasBytes : m'.HasBytes a bs
  kept : ∀ x : Nat, ¬(a.toInt ≤ x ∧ x < a.toInt + bs.length) → m'.byteAt x = m.byteAt x

theorem byteAt_add {k : Nat} (h : dataBase ≤ a.toInt) :
    m.byteAt (a.toInt.toNat + k) = m.bytes[a.toInt.toNat - dataBase + k]? := by
  have hindex : a.toInt.toNat + k - dataBase = a.toInt.toNat - dataBase + k := by omega
  rw [byteAt_of_le (by omega), hindex]

theorem hasBytes_slice (length : Nat) (h : m.Spans a length) :
    (m.slice (a.toInt.toNat - dataBase) length).length = length ∧
      m.HasBytes a (m.slice (a.toInt.toNat - dataBase) length) := by
  obtain ⟨-, hlow, hhigh⟩ := h
  have hlength : (m.slice (a.toInt.toNat - dataBase) length).length = length := by
    rw [slice, Array.length_toList, Array.size_extract]
    omega
  refine ⟨hlength, fun k hk => ?_⟩
  rw [hlength] at hk
  rw [byteAt_add hlow, getElem?_slice, if_pos hk]

theorem written_put (h : m.Spans a bs.length) :
    Written m (m.put (a.toInt.toNat - dataBase) bs) a bs where
  parts := put_parts ⟨_, rfl⟩
  size := size_put
  hasBytes k hk := by
    obtain ⟨-, hlow, hhigh⟩ := h
    rw [byteAt_add hlow, getElem?_put, if_pos (by omega), Nat.add_sub_cancel_left]
  kept x hx := by
    obtain ⟨-, hlow, hhigh⟩ := h
    by_cases hbase : dataBase ≤ x
    · rw [byteAt_of_le hbase, byteAt_of_le hbase, getElem?_put, if_neg (by omega)]
    · rw [byteAt_of_lt (by omega), byteAt_of_lt (by omega)]

/-- As many bytes from an address on are the same ones. -/
theorem HasBytes.ext {bs' : List UInt8} (h : m.HasBytes a bs) (h' : m.HasBytes a bs')
    (hlength : bs.length = bs'.length) : bs = bs' := by
  apply List.ext_getElem?
  intro k
  by_cases hk : k < bs.length
  · rw [← h k hk, h' k (by omega)]
  · rw [List.getElem?_eq_none (by omega), List.getElem?_eq_none (by omega)]

theorem byteAt_eq_some {x : Nat} {b : UInt8} (h : m.byteAt x = some b) :
    dataBase ≤ x ∧ x < dataBase + m.bytes.size := by
  by_cases hbase : dataBase ≤ x
  · rw [byteAt_of_le hbase] at h
    have hlt := (Array.getElem?_eq_some_iff.mp h).1
    omega
  · rw [byteAt_of_lt (by omega)] at h
    cases h

/-- Where bytes stand, there is memory. -/
theorem HasBytes.spans (h : m.HasBytes a bs) (hbs : bs ≠ []) : m.Spans a bs.length := by
  have hpos := List.length_pos_iff.mpr hbs
  have hbyte : ∀ k (hk : k < bs.length), m.byteAt (a.toInt.toNat + k) = some bs[k] := fun k hk => by
    rw [h k hk, List.getElem?_eq_getElem hk]
  have hfirst := byteAt_eq_some (hbyte 0 hpos)
  have hlast := byteAt_eq_some (hbyte (bs.length - 1) (by omega))
  have hbase := dataBase_pos
  exact ⟨by omega, by omega, by omega⟩

theorem Written.spans {length : Int} (h : Written m m' a bs) (hspans : m.Spans a length) :
    m'.Spans a length := by
  rwa [Spans, h.size]

/-! ## Guarded accesses -/

/-- An access that succeeds exactly under the condition `legal`, with a result as `good` says, and
is a segmentation fault otherwise. -/
structure Guarded (access : Except Fault α) (legal : Prop) (good : α → Prop) : Prop where
  ok : legal → ∃ x, access = .ok x ∧ good x
  fault : ¬legal → ∃ a length, access = .error (.segfault a length)

namespace Guarded

variable {access : Except Fault α} {legal legal' : Prop} {good good' : α → Prop}

theorem imp (h : Guarded access legal good) (hgood : ∀ x, legal → good x → good' x) :
    Guarded access legal good' where
  ok hlegal := by
    obtain ⟨x, hx, hgoodx⟩ := h.ok hlegal
    exact ⟨x, hx, hgood x hlegal hgoodx⟩
  fault := h.fault

theorem congr (h : Guarded access legal good) (hiff : legal ↔ legal') :
    Guarded access legal' good :=
  ⟨fun hlegal => h.ok (hiff.mpr hlegal), fun hlegal => h.fault (mt hiff.mp hlegal)⟩

/-- Two accesses in a row are legal if both are. -/
theorem bind {f : α → Except Fault β} {goodf : β → Prop} (h : Guarded access legal good)
    (hf : ∀ x, good x → Guarded (f x) legal' goodf) :
    Guarded (access >>= f) (legal ∧ legal') goodf where
  ok := by
    rintro ⟨hlegal, hlegal'⟩
    obtain ⟨x, rfl, hx⟩ := h.ok hlegal
    exact (hf x hx).ok hlegal'
  fault hnot := by
    by_cases hlegal : legal
    · obtain ⟨x, rfl, hx⟩ := h.ok hlegal
      exact (hf x hx).fault fun hlegal' => hnot ⟨hlegal, hlegal'⟩
    · obtain ⟨a, length, rfl⟩ := h.fault hlegal
      exact ⟨a, length, rfl⟩

theorem map {f : α → β} {goodf : β → Prop} (h : Guarded access legal good)
    (hf : ∀ x, good x → goodf (f x)) : Guarded (access.map f) legal goodf where
  ok hlegal := by
    obtain ⟨x, rfl, hx⟩ := h.ok hlegal
    exact ⟨f x, rfl, hf x hx⟩
  fault hlegal := by
    obtain ⟨a, length, rfl⟩ := h.fault hlegal
    exact ⟨a, length, rfl⟩

end Guarded

/-! ## Accesses that write -/

/-- A change of memory that succeeds exactly under the condition `legal`, with memory as `good`
says, and is a segmentation fault that changes nothing otherwise. -/
structure Atomic (access : Access Unit) (m : Memory) (legal : Prop) (good : Memory → Prop) :
    Prop where
  ok : legal → ∃ m', access m = .ok () m' ∧ good m'
  fault : ¬legal → ∃ a length, access m = .error (.segfault a length) m

namespace Atomic

variable {access : Access Unit} {legal legal' : Prop} {good good' : Memory → Prop}

theorem imp (h : Atomic access m legal good) (hgood : ∀ m', legal → good m' → good' m') :
    Atomic access m legal good' where
  ok hlegal := by
    obtain ⟨m', hm', hgoodm⟩ := h.ok hlegal
    exact ⟨m', hm', hgood m' hlegal hgoodm⟩
  fault := h.fault

theorem congr (h : Atomic access m legal good) (hiff : legal ↔ legal') :
    Atomic access m legal' good :=
  ⟨fun hlegal => h.ok (hiff.mpr hlegal), fun hlegal => h.fault (mt hiff.mp hlegal)⟩

theorem modify {f : Memory → Memory} (h : good (f m)) :
    Atomic (modify f) m True good :=
  ⟨fun _ => ⟨f m, rfl, h⟩, fun h => absurd trivial h⟩

end Atomic

/-- A check in front of a change. -/
theorem Guarded.look {view : Memory → Except Fault α} {f : α → Access Unit} {legal legal' : Prop}
    {good : α → Prop} {goodf : Memory → Prop} (h : Guarded (view m) legal good)
    (hf : ∀ x, legal → good x → Atomic (f x) m legal' goodf) :
    Atomic (Memory.look view >>= f) m (legal ∧ legal') goodf where
  ok := by
    rintro ⟨hlegal, hlegal'⟩
    obtain ⟨x, hx, hgood⟩ := h.ok hlegal
    obtain ⟨m', hm', hgoodm⟩ := (hf x hlegal hgood).ok hlegal'
    refine ⟨m', ?_, hgoodm⟩
    show EStateM.bind (Memory.look view) f m = _
    rw [EStateM.bind, Memory.look, hx]
    exact hm'
  fault hnot := by
    show ∃ a length, EStateM.bind (Memory.look view) f m = _
    rw [EStateM.bind, Memory.look]
    by_cases hlegal : legal
    · obtain ⟨x, hx, hgood⟩ := h.ok hlegal
      rw [hx]
      exact (hf x hlegal hgood).fault fun hlegal' => hnot ⟨hlegal, hlegal'⟩
    · obtain ⟨a, length, hfault⟩ := h.fault hlegal
      exact ⟨a, length, by rw [hfault]⟩

/-! ## Checks -/

theorem guarded_span (a length : Word) :
    Guarded (span a length) (0 ≤ length.toInt) fun n => (n.toNat : Int) = length.toInt := by
  rw [span]
  cases hsize : length.toSize? with
  | some n =>
    have hn := Word.toSize?_eq_some.mp hsize
    exact ⟨fun _ => ⟨n, rfl, hn.symm⟩, fun hneg => by omega⟩
  | none =>
    refine ⟨fun hle => ?_, fun _ => ⟨a, 0, rfl⟩⟩
    have hlt := length.toInt_lt
    have hsome : length.toSize? = some (UInt64.ofNat length.toInt.toNat) := by
      rw [Word.toSize?_eq_some, UInt64.toNat_ofNat']
      omega
    rw [hsome] at hsize
    cases hsize

/-- The range that is checked with words and sizes is the range of unbounded integers. -/
theorem guarded_index (m : Memory) (a : Word) {n : UInt64} (hn : n.toNat ≤ 2 ^ 63) :
    Guarded (m.index a n) (m.Spans a n.toNat) fun start => start = a.toInt.toNat - dataBase where
  ok h := ⟨_, by rw [index_eq hn, offset?_of_spans h], rfl⟩
  fault h := ⟨a, n.toNat, by rw [index_eq hn, offset?_of_not_spans h]⟩

theorem guarded_read (m : Memory) (a : Word) {n : UInt64} (hn : n.toNat ≤ 2 ^ 63) :
    Guarded (m.read a n) (m.Spans a n.toNat) fun bs =>
      bs.length = n.toNat ∧ m.HasBytes a bs where
  ok h := by
    obtain ⟨start, hstart, heq⟩ := (guarded_index m a hn).ok h
    have hbytes := hasBytes_slice n.toNat h
    rw [← heq] at hbytes
    exact ⟨_, by rw [read, hstart]; rfl, hbytes⟩
  fault h := by
    obtain ⟨b, length, hfault⟩ := (guarded_index m a hn).fault h
    exact ⟨b, length, by rw [read, hfault]; rfl⟩

theorem guarded_range (m : Memory) (a length : Word) :
    Guarded (span a length >>= m.read a) (m.Spans a length.toInt) fun bs =>
      (bs.length : Int) = length.toInt ∧ m.HasBytes a bs := by
  have hlegal : 0 ≤ length.toInt ∧ m.Spans a length.toInt ↔ m.Spans a length.toInt :=
    and_iff_right_of_imp fun h => h.1
  refine Guarded.congr ((guarded_span a length).bind fun n hn => ?_) hlegal
  have hlt := length.toInt_lt
  have hsize : n.toNat ≤ 2 ^ 63 := by omega
  rw [← hn]
  refine (guarded_read m a hsize).imp ?_
  rintro bs - ⟨hlength, hbytes⟩
  exact ⟨by rw [hlength], hbytes⟩

theorem atomic_write (m : Memory) (a : Word) (bs : List UInt8) (hbs : bs.length ≤ 2 ^ 63) :
    Atomic (write a bs) m (m.Spans a bs.length) fun m' => Written m m' a bs where
  ok h := ⟨_, by rw [write_apply hbs, offset?_of_spans h], written_put h⟩
  fault h := ⟨a, bs.length, by rw [write_apply hbs, offset?_of_not_spans h]⟩

/-- Filling a range writes the same byte at each of its places. -/
theorem overwriteAll_eq (bytes : Array UInt8) (start : Nat) (value : UInt8) (count : Nat) :
    overwriteAll bytes start value count = overwrite bytes start (List.replicate count value) := by
  apply Array.ext_getElem?
  intro j
  rw [getElem?_overwriteAll, getElem?_overwrite, List.length_replicate]
  split_ifs with hj
  · rw [List.getElem?_replicate, if_pos (by omega)]
  · rfl

/-! ## The difference of two ranges -/

/-- What the comparison of two lists of bytes yields. -/
def difference (ls rs : List UInt8) : Word :=
  match (ls.zip rs).find? fun (l, r) => l != r with
  | some (l, r) => Word.ofNat l.toNat - Word.ofNat r.toNat
  | none => 0

theorem difference_nil_left (rs : List UInt8) : difference [] rs = 0 := rfl

theorem difference_nil_right (ls : List UInt8) : difference ls [] = 0 := by
  rw [difference, List.zip_nil_right]
  rfl

theorem difference_cons_self (b : UInt8) (ls rs : List UInt8) :
    difference (b :: ls) (b :: rs) = difference ls rs := by
  rw [difference, List.zip_cons_cons, List.find?_cons_of_neg (by simp)]
  rfl

theorem difference_cons_of_ne {l r : UInt8} (h : l ≠ r) (ls rs : List UInt8) :
    difference (l :: ls) (r :: rs) = Word.ofNat l.toNat - Word.ofNat r.toNat := by
  rw [difference, List.zip_cons_cons, List.find?_cons_of_pos (by simpa using h)]

theorem toInt_difference_cons {l r : UInt8} (h : l ≠ r) (ls rs : List UInt8) :
    (difference (l :: ls) (r :: rs)).toInt = (l.toNat : Int) - r.toNat := by
  have hl := l.toNat_lt
  have hr := r.toNat_lt
  rw [difference_cons_of_ne h, Int64.toInt_sub, Word.toInt_ofNat (by omega),
    Word.toInt_ofNat (by omega)]
  exact Int.bmod_eq_of_le (by omega) (by omega)

theorem difference_comm (ls rs : List UInt8) : difference rs ls = -difference ls rs := by
  induction ls generalizing rs with
  | nil => rw [difference_nil_left, difference_nil_right, Int64.neg_zero]
  | cons l ls ih =>
    cases rs with
    | nil => rw [difference_nil_left, difference_nil_right, Int64.neg_zero]
    | cons r rs =>
      by_cases h : l = r
      · rw [h, difference_cons_self, difference_cons_self, ih]
      · rw [difference_cons_of_ne h, difference_cons_of_ne (Ne.symm h), Int64.neg_sub]

theorem difference_eq_zero_iff {ls rs : List UInt8} (h : ls.length = rs.length) :
    difference ls rs = 0 ↔ ls = rs := by
  induction ls generalizing rs with
  | nil =>
    obtain rfl := List.length_eq_zero_iff.mp h.symm
    exact iff_of_true rfl rfl
  | cons l ls ih =>
    obtain ⟨r, rs, rfl⟩ := List.exists_cons_of_length_eq_add_one h.symm
    by_cases hne : l = r
    · rw [hne, difference_cons_self, ih (Nat.succ.inj h), List.cons.injEq, eq_self, true_and]
    · refine iff_of_false (fun hzero => ?_) fun heq => hne (List.cons.inj heq).1
      have hint := toInt_difference_cons hne ls rs
      rw [hzero, Int64.toInt_zero] at hint
      exact hne (UInt8.toNat_inj.mp (by omega))

theorem toInt_difference {k : Nat} {ls rs : List UInt8} {l r : UInt8}
    (htake : ls.take k = rs.take k) (hl : ls[k]? = some l) (hr : rs[k]? = some r) (hne : l ≠ r) :
    (difference ls rs).toInt = (l.toNat : Int) - r.toNat := by
  induction k generalizing ls rs with
  | zero =>
    cases ls with
    | nil => cases hl
    | cons l' ls =>
      cases rs with
      | nil => cases hr
      | cons r' rs =>
        obtain rfl := Option.some.inj hl
        obtain rfl := Option.some.inj hr
        exact toInt_difference_cons hne ls rs
  | succ k ih =>
    cases ls with
    | nil => cases hl
    | cons l' ls =>
      cases rs with
      | nil => cases hr
      | cons r' rs =>
        rw [List.take_succ_cons, List.take_succ_cons] at htake
        obtain ⟨rfl, htail⟩ := List.cons.inj htake
        rw [difference_cons_self]
        exact ih htail hl hr

/-! ## Each access -/

/-- What the comparison of two ranges of equal length yields: zero if they hold the same bytes, and
otherwise the difference, as unsigned bytes, of the first two that differ. -/
structure Compares (ls rs : List UInt8) (v : Word) : Prop where
  zero_iff : v = 0 ↔ ls = rs
  first : ∀ k l r, ls.take k = rs.take k → ls[k]? = some l → rs[k]? = some r → l ≠ r →
    v.toInt = (l.toNat : Int) - r.toNat

theorem guarded_loadWord (m : Memory) (a : Word) :
    Guarded (m.loadWord a) (m.Spans a wordSize) fun v => m.HasBytes a v.toBytes := by
  refine (guarded_read m a (by decide)).map ?_
  rintro bs ⟨hlength, hbytes⟩
  rwa [Word.toBytes_ofBytes hlength]

theorem guarded_loadByte (m : Memory) (a : Word) :
    Guarded (m.loadByte a) (m.Spans a 1) fun v =>
      ∃ b : UInt8, m.HasBytes a [b] ∧ v.toInt = (b.toNat : Int).bmod 256 := by
  refine (guarded_read m a (by decide)).map ?_
  rintro bs ⟨hlength, hbytes⟩
  obtain ⟨b, rfl⟩ := List.length_eq_one_iff.mp hlength
  exact ⟨b, hbytes, Word.toInt_ofByte b⟩

theorem loadWord_of_hasBytes {v : Word} (h : m.HasBytes a v.toBytes) : m.loadWord a = .ok v := by
  have hne : v.toBytes ≠ [] := List.ne_nil_of_length_eq_add_one (Word.length_toBytes v)
  have hspans := h.spans hne
  rw [Word.length_toBytes] at hspans
  obtain ⟨w, hload, hbytes⟩ := (guarded_loadWord m a).ok hspans
  have hsame : w.toBytes = v.toBytes := hbytes.ext h (by simp)
  rw [hload, Word.toBytes_inj hsame]

theorem atomic_storeWord (m : Memory) (a v : Word) :
    Atomic (storeWord a v) m (m.Spans a wordSize) fun m' =>
      Written m m' a v.toBytes ∧ m'.loadWord a = .ok v := by
  have hwrite := atomic_write m a v.toBytes (by rw [Word.length_toBytes]; decide)
  rw [Word.length_toBytes] at hwrite
  exact hwrite.imp fun m' _ hwritten => ⟨hwritten, loadWord_of_hasBytes hwritten.hasBytes⟩

theorem atomic_storeByte (m : Memory) (a v : Word) :
    Atomic (storeByte a v) m (m.Spans a 1) fun m' =>
      Written m m' a [v.lowByte] ∧ ∃ w, m'.loadByte a = .ok w ∧ w.toInt = v.toInt.bmod 256 := by
  refine (atomic_write m a [v.lowByte] Nat.one_le_two_pow).imp
    fun m' hspans hwritten => ⟨hwritten, ?_⟩
  obtain ⟨w, hload, b, hbytes, hw⟩ := (guarded_loadByte m' a).ok (hwritten.spans hspans)
  obtain rfl := (List.cons.inj (hbytes.ext hwritten.hasBytes rfl)).1
  exact ⟨w, hload, by rw [hw, ← Word.toInt_ofByte, Word.toInt_ofByte_lowByte]⟩

theorem atomic_fill (m : Memory) (a : Word) (value : UInt8) (length : Word) :
    Atomic (fill a value length) m (m.Spans a length.toInt) fun m' =>
      Written m m' a (List.replicate length.toInt.toNat value) := by
  have hlegal : 0 ≤ length.toInt ∧ m.Spans a length.toInt ∧ True ↔ m.Spans a length.toInt :=
    ⟨fun h => h.2.1, fun h => ⟨h.1, h, trivial⟩⟩
  have hlt := length.toInt_lt
  refine Atomic.congr ((guarded_span a length).look fun n _ hn => ?_) hlegal
  have hsize : n.toNat ≤ 2 ^ 63 := by omega
  rw [← hn, Int.toNat_natCast]
  refine (guarded_index m a hsize).look fun start hspans hstart => .modify ?_
  rw [overwriteAll_eq, hstart]
  exact written_put (by rwa [List.length_replicate])

theorem atomic_copy (m : Memory) (dest source length : Word) :
    Atomic (copy dest source length) m (m.Spans dest length.toInt ∧ m.Spans source length.toInt)
      fun m' => ∃ bs : List UInt8, (bs.length : Int) = length.toInt ∧ m.HasBytes source bs ∧
        Written m m' dest bs := by
  have hlegal : 0 ≤ length.toInt ∧ m.Spans source length.toInt ∧ m.Spans dest length.toInt ∧ True ↔
      m.Spans dest length.toInt ∧ m.Spans source length.toInt :=
    ⟨fun h => ⟨h.2.2.1, h.2.1⟩, fun h => ⟨h.1.1, h.2, h.1, trivial⟩⟩
  have hlt := length.toInt_lt
  refine Atomic.congr ((guarded_span dest length).look fun n _ hn => ?_) hlegal
  have hsize : n.toNat ≤ 2 ^ 63 := by omega
  rw [← hn]
  refine (guarded_index m source hsize).look fun start hsource hstart => ?_
  refine (guarded_index m dest hsize).look fun target hdest htarget => .modify ?_
  obtain ⟨hlength, hbytes⟩ := hasBytes_slice n.toNat hsource
  rw [hstart, htarget]
  exact ⟨_, by rw [hlength], hbytes, written_put (by rwa [hlength])⟩

theorem guarded_difference (m : Memory) (left right length : Word) :
    Guarded (m.compare left right length) (m.Spans left length.toInt ∧ m.Spans right length.toInt)
      fun v => ∃ ls rs : List UInt8, (ls.length : Int) = length.toInt ∧
        (rs.length : Int) = length.toInt ∧ m.HasBytes left ls ∧ m.HasBytes right rs ∧
        v = difference ls rs := by
  have hlegal : 0 ≤ length.toInt ∧ m.Spans left length.toInt ∧ m.Spans right length.toInt ∧ True ↔
      m.Spans left length.toInt ∧ m.Spans right length.toInt :=
    ⟨fun h => ⟨h.2.1, h.2.2.1⟩, fun h => ⟨h.1.1, h.1, h.2, trivial⟩⟩
  refine Guarded.congr ((guarded_span left length).bind fun n hn => ?_) hlegal
  rw [← hn]
  have hlt := length.toInt_lt
  refine (guarded_read m left (by omega)).bind ?_
  rintro ls ⟨hls, hleft⟩
  refine (guarded_read m right (by omega)).bind ?_
  rintro rs ⟨hrs, hright⟩
  refine ⟨fun _ => ⟨difference ls rs, ?_, ls, rs, by rw [hls], by rw [hrs], hleft, hright, rfl⟩,
    fun h => absurd trivial h⟩
  split
  next hfind => rw [difference, hfind]
  next hfind => rw [difference, hfind]

theorem guarded_compare (m : Memory) (left right length : Word) :
    Guarded (m.compare left right length) (m.Spans left length.toInt ∧ m.Spans right length.toInt)
      fun v => (∃ ls rs : List UInt8, (ls.length : Int) = length.toInt ∧
          (rs.length : Int) = length.toInt ∧ m.HasBytes left ls ∧ m.HasBytes right rs ∧
          Compares ls rs v) ∧
        m.compare right left length = .ok (-v) := by
  refine (guarded_difference m left right length).imp ?_
  rintro v ⟨hspansLeft, hspansRight⟩ ⟨ls, rs, hls, hrs, hleft, hright, rfl⟩
  refine ⟨⟨ls, rs, hls, hrs, hleft, hright, ?_⟩, ?_⟩
  · exact ⟨difference_eq_zero_iff (by omega), fun k l r => toInt_difference⟩
  · -- The other way round the same bytes are compared.
    obtain ⟨v, hv, rs', ls', hrs', hls', hright', hleft', rfl⟩ :=
      (guarded_difference m right left length).ok ⟨hspansRight, hspansLeft⟩
    obtain rfl := hleft.ext hleft' (by omega)
    obtain rfl := hright.ext hright' (by omega)
    rw [hv, difference_comm]

theorem byteAbove_of_spans (h : m.Spans a 0) (k : Nat) :
    m.byteAbove a k = m.byteAt (a.toInt.toNat + k) := by
  rw [byteAbove, offset?_of_spans h, Option.bind_some, byteAt_add h.2.1]

theorem guarded_cstring (m : Memory) (a : Word) :
    Guarded (m.cstring a) (m.Spans a 0 ∧ ∃ k, m.byteAt (a.toInt.toNat + k) = some 0)
      fun text => m.HasBytes a text ∧ 0 ∉ text ∧
        m.byteAt (a.toInt.toNat + text.length) = some 0 where
  ok := by
    rintro ⟨hspans, k, hk⟩
    have habove := byteAbove_of_spans hspans
    obtain ⟨text, htext⟩ := cstring_of_byteAbove ⟨k, (habove k).trans hk⟩
    have hIs := isText_take htext (text.length + 1)
    rw [List.take_of_length_le (by omega)] at hIs
    refine ⟨text, htext, fun j hj => ?_, hIs.not_mem, ?_⟩
    · rw [← habove, hIs.bytes j hj]
    · rw [← habove]
      exact hIs.stop.resolve_left (by omega)
  fault hlegal := by
    refine ⟨a, _, cstring_of_not_byteAbove ?_⟩
    rintro ⟨k, hk⟩
    by_cases hspans : m.Spans a 0
    · exact hlegal ⟨hspans, k, (byteAbove_of_spans hspans k).symm.trans hk⟩
    · rw [byteAbove, offset?_of_not_spans hspans] at hk
      cases hk

/-- Every access succeeds exactly if its length is not negative and its ranges lie in memory, the
ends of a range being unbounded integers, and is a segmentation fault otherwise. Reads yield the
bytes of the range, a word having its lowest byte first. Writes change the bytes of their range and
nothing else, and what is loaded afterwards is what was stored, for a byte cut off to a signed one.
A copy is of what the source held before, wherever the destination lies. A comparison the other way
round yields the opposite. A text is read if its address lies in memory or right behind it and a NUL
follows. -/
theorem accesses_exact (m : Memory) :
    (∀ a length, Guarded (span a length >>= m.read a) (m.Spans a length.toInt) fun bs =>
      (bs.length : Int) = length.toInt ∧ m.HasBytes a bs) ∧
    (∀ a, Guarded (m.loadWord a) (m.Spans a 8) fun v =>
      m.HasBytes a ((List.range 8).map fun k => UInt8.ofNat (v.toUnsigned / 256 ^ k))) ∧
    (∀ a, Guarded (m.loadByte a) (m.Spans a 1) fun v =>
      ∃ b : UInt8, m.HasBytes a [b] ∧ v.toInt = (b.toNat : Int).bmod 256) ∧
    (∀ a v, Atomic (storeWord a v) m (m.Spans a 8) fun m' =>
      Written m m' a ((List.range 8).map fun k => UInt8.ofNat (v.toUnsigned / 256 ^ k)) ∧
      m'.loadWord a = .ok v) ∧
    (∀ a v, Atomic (storeByte a v) m (m.Spans a 1) fun m' =>
      Written m m' a [v.lowByte] ∧
      ∃ w, m'.loadByte a = .ok w ∧ w.toInt = v.toInt.bmod 256) ∧
    (∀ a value length, Atomic (fill a value length) m (m.Spans a length.toInt) fun m' =>
      Written m m' a (List.replicate length.toInt.toNat value)) ∧
    (∀ dest source length, Atomic (copy dest source length) m
      (m.Spans dest length.toInt ∧ m.Spans source length.toInt) fun m' =>
        ∃ bs : List UInt8, (bs.length : Int) = length.toInt ∧ m.HasBytes source bs ∧
          Written m m' dest bs) ∧
    (∀ left right length, Guarded (m.compare left right length)
      (m.Spans left length.toInt ∧ m.Spans right length.toInt) fun v =>
        (∃ ls rs : List UInt8, (ls.length : Int) = length.toInt ∧
          (rs.length : Int) = length.toInt ∧ m.HasBytes left ls ∧ m.HasBytes right rs ∧
          Compares ls rs v) ∧
        m.compare right left length = .ok (-v)) ∧
    (∀ a, Guarded (m.cstring a) (m.Spans a 0 ∧ ∃ k, m.byteAt (a.toInt.toNat + k) = some 0)
      fun text => m.HasBytes a text ∧ 0 ∉ text ∧
        m.byteAt (a.toInt.toNat + text.length) = some 0) := by
  have hword : ∀ v : Word, v.toBytes =
      (List.range 8).map fun k => UInt8.ofNat (v.toUnsigned / 256 ^ k) :=
    fun v => Word.lowBytes_eq_map wordSize v.toUnsigned
  simp only [← hword]
  exact ⟨guarded_range m, guarded_loadWord m, guarded_loadByte m, atomic_storeWord m,
    atomic_storeByte m, atomic_fill m, atomic_copy m, guarded_compare m, guarded_cstring m⟩

end Memory

end MiniC
