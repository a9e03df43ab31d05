import Mathlib
import MiniC.Proofs.Format.Expansion
import MiniC.Proofs.Machine.Cells
import MiniC.Proofs.Source.Spelling

/-!
# How integers are shown

The text that shows an integer consists of blanks, a mark, digits and blanks again. `Shows` says
what each of them is: which number the digits spell, how many of them there are, what the mark is
and on which side the blanks stand. Every conversion for integers makes such a text in every field
(`IntConversion.shows_pad`), and a field can be asked for with sizes that are written out or with
sizes that are arguments (`format_integer`).
-/

namespace MiniC.Format

open Source (exists_digitChar)

/-! ## Digits -/

/-- The digits from zero on. -/
def digitBytes (upper : Bool) : List UInt8 :=
  ((['0', '1', '2', '3', '4', '5', '6', '7', '8', '9'] ++
    if upper then ['A', 'B', 'C', 'D', 'E', 'F'] else ['a', 'b', 'c', 'd', 'e', 'f'])).map
      Char.toUInt8

/-- The number that digits spell in a radix. -/
def numberOf (radix : Nat) (upper : Bool) (digits : List UInt8) : Nat :=
  digits.foldl (fun n b => n * radix + (digitBytes upper).idxOf b) 0

/-- Digits of a radix, in the given case. -/
def AreDigits (radix : Nat) (upper : Bool) (digits : List UInt8) : Prop :=
  ∀ b ∈ digits, b ∈ (digitBytes upper).take radix

section Digits

variable {radix : Nat} {upper : Bool}

theorem numberOf_append (left right : List UInt8) :
    numberOf radix upper (left ++ right) =
      numberOf radix upper left * radix ^ right.length + numberOf radix upper right := by
  have hshift : ∀ (n : Nat) (ds : List UInt8),
      ds.foldl (fun n b => n * radix + (digitBytes upper).idxOf b) n =
        n * radix ^ ds.length + numberOf radix upper ds := by
    intro n ds
    induction ds generalizing n with
    | nil => simp [numberOf]
    | cons b ds ih =>
      rw [numberOf, List.foldl_cons, List.foldl_cons, ih, ih (0 * radix + _), List.length_cons,
        pow_succ]
      ring
  rw [numberOf, List.foldl_append, hshift]
  rfl

theorem numberOf_zeros (count : Nat) (digits : List UInt8) :
    numberOf radix upper (List.replicate count '0'.toUInt8 ++ digits) =
      numberOf radix upper digits := by
  have hzeros : numberOf radix upper (List.replicate count '0'.toUInt8) = 0 := by
    induction count with
    | zero => rfl
    | succ count ih =>
      rw [List.replicate_succ', numberOf_append, ih]
      cases upper <;> simp [numberOf, digitBytes]
  rw [numberOf_append, hzeros, Nat.zero_mul, Nat.zero_add]

theorem idxOf_lt {b : UInt8} (h : b ∈ (digitBytes upper).take radix) :
    (digitBytes upper).idxOf b < radix := by
  have hlt := List.idxOf_lt_length_of_mem h
  rw [← List.take_append_drop radix (digitBytes upper), List.idxOf_append_of_mem h]
  exact hlt.trans_le (List.length_take_le _ _)

/-- Digits spell a number below the power of the radix that has one zero for each of them. -/
theorem numberOf_lt {digits : List UInt8} (h : AreDigits radix upper digits) :
    numberOf radix upper digits < radix ^ digits.length := by
  induction digits with
  | nil => simp [numberOf]
  | cons b digits ih =>
    obtain ⟨hb, hdigits⟩ := List.forall_mem_cons.mp h
    have hfirst : numberOf radix upper [b] = (digitBytes upper).idxOf b := by simp [numberOf]
    rw [← List.singleton_append, numberOf_append, hfirst, List.length_append, pow_add]
    calc (digitBytes upper).idxOf b * radix ^ digits.length + numberOf radix upper digits
        < (digitBytes upper).idxOf b * radix ^ digits.length + radix ^ digits.length :=
          Nat.add_lt_add_left (ih hdigits) _
      _ = ((digitBytes upper).idxOf b + 1) * radix ^ digits.length := by ring
      _ ≤ radix ^ [b].length * radix ^ digits.length := by
          rw [List.length_singleton, pow_one]
          exact Nat.mul_le_mul_right _ (idxOf_lt hb)

/-- Digits begin with a zero if and only if one less would do. -/
theorem head?_eq_zero_iff {digits : List UInt8} (h : AreDigits radix upper digits) :
    digits.head? = some '0'.toUInt8 ↔
      0 < digits.length ∧ numberOf radix upper digits < radix ^ (digits.length - 1) := by
  cases digits with
  | nil => simp
  | cons b digits =>
    have hrest := numberOf_lt (List.forall_mem_cons.mp h).2
    have hfirst : numberOf radix upper [b] = (digitBytes upper).idxOf b := by simp [numberOf]
    have hzero : (digitBytes upper).idxOf b = 0 ↔ b = '0'.toUInt8 := by
      rw [digitBytes, List.cons_append, List.map_cons]
      by_cases hb : b = '0'.toUInt8
      · rw [hb, List.idxOf_cons_self]
        simp
      · rw [List.idxOf_cons_ne _ (Ne.symm hb)]
        simp [hb]
    rw [← List.singleton_append, numberOf_append, hfirst]
    simp only [List.singleton_append, List.head?_cons, Option.some.injEq, List.length_cons,
      Nat.add_sub_cancel, Nat.succ_pos, true_and, ← hzero]
    constructor
    · intro hb
      rw [hb]
      omega
    · intro hlt
      by_contra hb
      have := Nat.le_mul_of_pos_left (radix ^ digits.length) (Nat.pos_of_ne_zero hb)
      omega

theorem areDigits_zeros (hradix : 1 < radix) (count : Nat) :
    AreDigits radix upper (List.replicate count '0'.toUInt8) := by
  intro b hb
  rw [List.eq_of_mem_replicate hb, digitBytes, List.cons_append, List.map_cons,
    List.take_cons (by omega)]
  exact List.mem_cons_self

theorem AreDigits.append {left right : List UInt8} (hleft : AreDigits radix upper left)
    (hright : AreDigits radix upper right) : AreDigits radix upper (left ++ right) := by
  intro b hb
  rcases List.mem_append.mp hb with hb | hb
  · exact hleft b hb
  · exact hright b hb

/-- The byte of a digit, in the given case. -/
def digitByte (upper : Bool) (c : Char) : UInt8 := (if upper then c.toUpper else c).toUInt8

theorem digitByte_digitChar {k : Nat} (hk : k < radix) (hle : radix ≤ 16) :
    digitByte upper (Nat.digitChar k) ∈ (digitBytes upper).take radix ∧
      (digitBytes upper).idxOf (digitByte upper (Nat.digitChar k)) = k := by
  have key : ∀ upper, ∀ radix < 17, ∀ k < radix,
      digitByte upper (Nat.digitChar k) ∈ (digitBytes upper).take radix ∧
        (digitBytes upper).idxOf (digitByte upper (Nat.digitChar k)) = k := by decide +kernel
  exact key upper radix (by omega) k hk

/-- The digits of a number, in the given case. -/
def digitsOf (radix : Nat) (upper : Bool) (n : Nat) : List UInt8 :=
  (Nat.toDigits radix n).map (digitByte upper)

theorem areDigits_digitsOf (hradix : 1 < radix) (hle : radix ≤ 16) (n : Nat) :
    AreDigits radix upper (digitsOf radix upper n) := by
  intro b hb
  obtain ⟨c, hc, rfl⟩ := List.mem_map.mp hb
  obtain ⟨k, hk, rfl⟩ := exists_digitChar hradix hc
  exact (digitByte_digitChar hk hle).1

theorem numberOf_digitsOf (hradix : 1 < radix) (hle : radix ≤ 16) (n : Nat) :
    numberOf radix upper (digitsOf radix upper n) = n := by
  induction n using Nat.strongRecOn with
  | ind n ih =>
    have hsingle : ∀ k < radix, numberOf radix upper [digitByte upper (Nat.digitChar k)] = k := by
      intro k hk
      have hindex := (@digitByte_digitChar radix upper k hk hle).2
      simp [numberOf, hindex]
    by_cases hn : n < radix
    · rw [digitsOf, Nat.toDigits_of_lt_base hn]
      exact hsingle n hn
    · have hrest := ih (n / radix) (Nat.div_lt_self (by omega) hradix)
      rw [digitsOf] at hrest ⊢
      rw [Nat.toDigits_of_base_le hradix (Nat.le_of_not_lt hn), List.map_append, numberOf_append,
        hrest, List.map_singleton, hsingle _ (Nat.mod_lt n (by omega)), List.length_singleton,
        pow_one, Nat.div_add_mod']

theorem length_digitsOf (hradix : 1 < radix) (n : Nat) :
    (digitsOf radix upper n).length = Nat.log radix n + 1 := by
  rw [digitsOf, List.length_map]
  have hpos : 0 < (Nat.toDigits radix n).length := Nat.length_toDigits_pos
  refine le_antisymm ?_ ?_
  · exact (Nat.length_toDigits_le_iff hradix (Nat.succ_pos _)).mpr
      (Nat.lt_pow_succ_log_self hradix n)
  · by_contra hlt
    have hn : n < radix ^ Nat.log radix n :=
      (Nat.length_toDigits_le_iff hradix (by omega)).mp (by omega)
    have hne : n ≠ 0 := by
      rintro rfl
      simp at hlt
    exact absurd (Nat.pow_log_le_self radix hne) (by omega)

end Digits

/-! ## Conversions -/

/-- The conversions that show an integer. -/
inductive IntConversion where
  | d
  | i
  | u
  | x
  | X
  | o
  | p
  deriving DecidableEq

namespace IntConversion

def letter : IntConversion → UInt8
  | d => 'd'.toUInt8
  | i => 'i'.toUInt8
  | u => 'u'.toUInt8
  | x => 'x'.toUInt8
  | X => 'X'.toUInt8
  | o => 'o'.toUInt8
  | p => 'p'.toUInt8

def radix : IntConversion → Nat
  | d | i | u => 10
  | x | X | p => 16
  | o => 8

def isUpper : IntConversion → Bool
  | X => true
  | _ => false

/-- The number that is shown: without its sign, or read as unsigned. -/
def magnitude (c : IntConversion) (v : Word) : Nat :=
  match c with
  | d | i => v.toInt.natAbs
  | _ => (v.toInt % 2 ^ 64).toNat

/-- What stands in front of the digits. -/
def mark (c : IntConversion) (flags : FormatFlags) (v : Word) : List UInt8 :=
  match c with
  | d | i =>
    if v < 0 then ['-'.toUInt8]
    else if flags.plus then ['+'.toUInt8]
    else if flags.space then [' '.toUInt8]
    else []
  | x => if flags.alternate ∧ v ≠ 0 then ['0'.toUInt8, 'x'.toUInt8] else []
  | X => if flags.alternate ∧ v ≠ 0 then ['0'.toUInt8, 'X'.toUInt8] else []
  | p => ['0'.toUInt8, 'x'.toUInt8]
  | u | o => []

/-- How many digits are shown before the field is filled up: as many as the number has and the
precision asks for, with none for zero where the precision is zero. The alternate form of octal
numbers begins with a zero. -/
def digitCount (c : IntConversion) (f : Field) (v : Word) : Nat :=
  let n := c.magnitude v
  let count := if n = 0 ∧ f.precision = some 0 then 0
    else max (f.precision.getD 0) (Nat.log c.radix n + 1)
  if c = o ∧ f.flags.alternate ∧ (count = 0 ∨ c.radix ^ (count - 1) ≤ n) then count + 1 else count

/-- Whether the field is filled up with zeros in front of the digits. -/
def fillsWithZeros (f : Field) : Bool := f.flags.zero && !f.flags.left && f.precision.isNone

/-- The text that shows an integer in a field: blanks, a mark, digits and blanks. -/
structure Shows (c : IntConversion) (f : Field) (v : Word) (text : List UInt8) (before : Nat)
    (digits : List UInt8) (behind : Nat) : Prop where
  text_eq : text = List.replicate before ' '.toUInt8 ++ c.mark f.flags v ++ digits ++
    List.replicate behind ' '.toUInt8
  length_eq : text.length = max f.width ((c.mark f.flags v).length + digits.length)
  areDigits : AreDigits c.radix c.isUpper digits
  numberOf_eq : numberOf c.radix c.isUpper digits = c.magnitude v
  count_eq : digits.length =
    if fillsWithZeros f then max (c.digitCount f v) (f.width - (c.mark f.flags v).length)
    else c.digitCount f v
  padding : if f.flags.left then before = 0 else behind = 0

/-! ## What conversions do -/

/-- The digits that are shown before the field is filled up. -/
def body (c : IntConversion) (f : Field) (v : Word) : List UInt8 :=
  let digits := f.digits c.radix c.isUpper (c.magnitude v)
  if c = o ∧ f.flags.alternate ∧ digits.head? ≠ some '0'.toUInt8 then '0'.toUInt8 :: digits
  else digits

/-- Every conversion fills up a field that holds a mark and digits. -/
theorem ofByte_letter (c : IntConversion) : Conversion.ofByte c.letter =
    .value fun f _ v => .ok (f.pad (c.mark f.flags v) (c.body f v)) := by
  have hvalue : ∀ render : Field → Word → List UInt8,
      (∀ f v, render f v = f.pad (c.mark f.flags v) (c.body f v)) →
      (Conversion.value fun f _ v => .ok (render f v)) =
        .value fun f _ v => .ok (f.pad (c.mark f.flags v) (c.body f v)) := by
    intro render h
    simp only [h]
  cases c with
  | d | i =>
    refine hvalue Field.signed fun f v => ?_
    simp [Field.signed, body, magnitude, mark, Field.sign, radix, isUpper]
  | u =>
    refine hvalue Field.unsigned fun f v => ?_
    simp [Field.unsigned, body, magnitude, mark, radix, isUpper, Word.toUnsigned_eq]
  | x =>
    refine hvalue (Field.hexadecimal · false) fun f v => ?_
    simp [Field.hexadecimal, body, magnitude, mark, radix, isUpper, Word.toUnsigned_eq]
  | X =>
    refine hvalue (Field.hexadecimal · true) fun f v => ?_
    simp [Field.hexadecimal, body, magnitude, mark, radix, isUpper, Word.toUnsigned_eq]
  | o =>
    refine hvalue Field.octal fun f v => ?_
    simp [Field.octal, body, magnitude, mark, radix, isUpper, Word.toUnsigned_eq]
  | p =>
    refine hvalue Field.pointer fun f v => ?_
    simp [Field.pointer, body, magnitude, mark, radix, isUpper, Word.toUnsigned_eq]

theorem radix_bounds (c : IntConversion) : 1 < c.radix ∧ c.radix ≤ 16 := by
  cases c <;> decide

section Digits

variable (f : Field) {radix : Nat} (upper : Bool)

theorem digits_eq (n : Nat) : f.digits radix upper n =
    if n = 0 ∧ f.precision = some 0 then []
    else List.replicate (f.precision.getD 0 - (digitsOf radix upper n).length) '0'.toUInt8 ++
      digitsOf radix upper n := by
  have hbytes : digitsOf radix upper n =
      (if upper then (Nat.toDigits radix n).map Char.toUpper else Nat.toDigits radix n).map
        Char.toUInt8 := by
    cases upper
    · rfl
    · exact List.map_map.symm
  rw [hbytes]
  rfl

theorem areDigits_digits (hradix : 1 < radix) (hle : radix ≤ 16) (n : Nat) :
    AreDigits radix upper (f.digits radix upper n) := by
  rw [digits_eq]
  split_ifs with h
  · simp [AreDigits]
  · exact (areDigits_zeros hradix _).append (areDigits_digitsOf hradix hle n)

theorem numberOf_digits (hradix : 1 < radix) (hle : radix ≤ 16) (n : Nat) :
    numberOf radix upper (f.digits radix upper n) = n := by
  rw [digits_eq]
  split_ifs with h
  · exact h.1.symm
  · rw [numberOf_zeros, numberOf_digitsOf hradix hle]

theorem length_digits (hradix : 1 < radix) (n : Nat) : (f.digits radix upper n).length =
    if n = 0 ∧ f.precision = some 0 then 0 else max (f.precision.getD 0) (Nat.log radix n + 1) := by
  rw [digits_eq]
  split_ifs with h
  · rfl
  · rw [List.length_append, List.length_replicate, length_digitsOf hradix]
    omega

end Digits

section Body

variable (c : IntConversion) (f : Field) (v : Word)

theorem areDigits_body : AreDigits c.radix c.isUpper (c.body f v) := by
  have hdigits := areDigits_digits f c.isUpper c.radix_bounds.1 c.radix_bounds.2 (c.magnitude v)
  unfold body
  dsimp only
  split_ifs
  · exact (areDigits_zeros c.radix_bounds.1 1).append hdigits
  · exact hdigits

theorem numberOf_body : numberOf c.radix c.isUpper (c.body f v) = c.magnitude v := by
  have hdigits := numberOf_digits f c.isUpper c.radix_bounds.1 c.radix_bounds.2 (c.magnitude v)
  unfold body
  dsimp only
  split_ifs
  · exact (numberOf_zeros 1 _).trans hdigits
  · exact hdigits

theorem length_body : (c.body f v).length = c.digitCount f v := by
  obtain ⟨hradix, hle⟩ := c.radix_bounds
  have hhead := head?_eq_zero_iff (areDigits_digits f c.isUpper hradix hle (c.magnitude v))
  rw [numberOf_digits f c.isUpper hradix hle] at hhead
  unfold body digitCount
  dsimp only
  rw [← length_digits f c.isUpper hradix]
  have hiff : (f.digits c.radix c.isUpper (c.magnitude v)).head? ≠ some '0'.toUInt8 ↔
      (f.digits c.radix c.isUpper (c.magnitude v)).length = 0 ∨
        c.radix ^ ((f.digits c.radix c.isUpper (c.magnitude v)).length - 1) ≤ c.magnitude v := by
    rw [ne_eq, hhead]
    omega
  simp only [hiff]
  split_ifs <;> rfl

end Body

/-- A field is filled up with blanks on one side or with zeros. -/
theorem pad_eq (f : Field) (mark body : List UInt8) : ∃ before zeros behind,
    f.pad mark body = List.replicate before ' '.toUInt8 ++ mark ++
      (List.replicate zeros '0'.toUInt8 ++ body) ++ List.replicate behind ' '.toUInt8 ∧
    before + zeros + behind = f.width - (mark.length + body.length) ∧
    zeros = (if fillsWithZeros f then f.width - (mark.length + body.length) else 0) ∧
    if f.flags.left then before = 0 else behind = 0 := by
  have hpad : f.pad mark body =
      if f.flags.left then
        mark ++ body ++ List.replicate (f.width - (mark.length + body.length)) ' '.toUInt8
      else if fillsWithZeros f then
        mark ++ List.replicate (f.width - (mark.length + body.length)) '0'.toUInt8 ++ body
      else List.replicate (f.width - (mark.length + body.length)) ' '.toUInt8 ++ mark ++ body := by
    cases hleft : f.flags.left <;> simp [Field.pad, fillsWithZeros, hleft]
  rw [hpad]
  split_ifs with hleft hzeros hzeros
  · simp [fillsWithZeros, hleft] at hzeros
  · exact ⟨0, 0, _, rfl, by simp, rfl, rfl⟩
  · exact ⟨0, _, 0, by simp, by simp, rfl, rfl⟩
  · exact ⟨f.width - (mark.length + body.length), 0, 0, by simp, by simp, rfl, rfl⟩

theorem shows_pad (c : IntConversion) (f : Field) (v : Word) : ∃ before digits behind,
    c.Shows f v (f.pad (c.mark f.flags v) (c.body f v)) before digits behind := by
  obtain ⟨before, zeros, behind, htext, hsum, hzeros, hside⟩ :=
    pad_eq f (c.mark f.flags v) (c.body f v)
  have hlength := c.length_body f v
  refine ⟨before, List.replicate zeros '0'.toUInt8 ++ c.body f v, behind, htext, ?_, ?_, ?_, ?_,
    hside⟩
  · rw [htext]
    simp only [List.length_append, List.length_replicate]
    omega
  · exact (areDigits_zeros c.radix_bounds.1 zeros).append (c.areDigits_body f v)
  · rw [numberOf_zeros, c.numberOf_body f v]
  · rw [List.length_append, List.length_replicate, hlength, hzeros, hlength]
    split_ifs <;> omega

end IntConversion

/-! ## Asking for a field -/

theorem span_of_stop {p : UInt8 → Bool} {bytes rest : List UInt8} (hbytes : ∀ b ∈ bytes, p b = true)
    (hrest : ∀ b ∈ rest.head?, p b = false) :
    (bytes ++ rest).takeWhile p = bytes ∧ (bytes ++ rest).dropWhile p = rest := by
  rw [List.takeWhile_append_of_pos hbytes, List.dropWhile_append_of_pos hbytes]
  cases rest with
  | nil => simp
  | cons b rest => simp [hrest b rfl]

/-- A byte that no part of a directive before the conversion can hold. -/
def endsParts (b : UInt8) : Bool :=
  !FormatFlags.isFlag b && !Byte.isDigit b && !Directive.isLength b && b ≠ '*'.toUInt8 &&
    b ≠ '.'.toUInt8

/-- A size that is a star or is spelled with digits. -/
def SizeText.IsSpelled : SizeText → Prop
  | star => True
  | digits ds => ∀ b ∈ ds, Byte.isDigit b = true

theorem SizeText.read_bytes {s : SizeText} (hs : s.IsSpelled) {rest : List UInt8}
    (hrest : ∀ b ∈ rest.head?, Byte.isDigit b = false ∧ b ≠ '*'.toUInt8) :
    read (s.bytes ++ rest) = (s, rest) := by
  cases s with
  | star => rfl
  | digits ds =>
    have hstar : (ds ++ rest).head? ≠ some '*'.toUInt8 := by
      cases ds with
      | nil => exact fun h => (hrest _ h).2 rfl
      | cons b ds =>
        rintro ⟨⟩
        exact absurd (hs _ List.mem_cons_self) (by decide)
    obtain ⟨htake, hdrop⟩ := span_of_stop hs fun b hb => (hrest b hb).1
    rw [bytes, read, if_neg hstar, htake, hdrop]

theorem Spelling.readPrecision_bytes {p : Option SizeText} (hp : ∀ s ∈ p, s.IsSpelled)
    {b : UInt8} (hb : endsParts b = true) :
    readPrecision (precisionBytes p ++ [b]) = (p, [b]) := by
  simp only [endsParts, Bool.and_eq_true, Bool.not_eq_true', decide_eq_true_eq, ne_eq] at hb
  cases p with
  | none => simp [precisionBytes, readPrecision, hb]
  | some s =>
    have hread := @SizeText.read_bytes s (hp s rfl) [b] (by simp [hb])
    simp [precisionBytes, readPrecision, hread]

/-- A directive is read as it is spelled. -/
theorem Spelling.read_bytes {s : Spelling} (hflags : ∀ b ∈ s.flags, FormatFlags.isFlag b = true)
    (hwidth : s.width.IsSpelled) (hfirst : ∀ b ∈ s.width.bytes.head?, FormatFlags.isFlag b = false)
    (hprecision : ∀ size ∈ s.precision, size.IsSpelled) (hlength : s.length = []) {b : UInt8}
    (hs : s.conversion = some b) (hb : endsParts b = true) : read s.bytes = (s, []) := by
  obtain ⟨flags, width, precision, length, conversion⟩ := s
  subst hlength hs
  have hends := hb
  simp only [endsParts, Bool.and_eq_true, Bool.not_eq_true', decide_eq_true_eq, ne_eq] at hends
  -- what follows the width begins with the point or is the conversion
  have hbehind : ∀ x ∈ (precisionBytes precision ++ [b]).head?,
      FormatFlags.isFlag x = false ∧ Byte.isDigit x = false ∧ x ≠ '*'.toUInt8 := by
    cases precision with
    | none => simp [precisionBytes, hends]
    | some size =>
      rintro x ⟨⟩
      decide
  have hflag : ∀ x ∈ (width.bytes ++ (precisionBytes precision ++ [b])).head?,
      FormatFlags.isFlag x = false := by
    cases hw : width.bytes with
    | nil => exact fun x hx => (hbehind x hx).1
    | cons first rest => exact fun x hx => hfirst x (by rw [hw]; exact hx)
  obtain ⟨htake, hdrop⟩ := span_of_stop hflags hflag
  have hsize := SizeText.read_bytes hwidth fun x hx => (hbehind x hx).2
  simp only [bytes, List.append_nil, Option.toList_some, List.append_assoc]
  simp only [read, htake, hdrop, hsize, readPrecision_bytes hprecision hb]
  simp [hends]

/-- The flags, each spelled once. -/
def flagBytes (flags : FormatFlags) : List UInt8 :=
  (if flags.left then ['-'.toUInt8] else []) ++ (if flags.plus then ['+'.toUInt8] else []) ++
    (if flags.space then [' '.toUInt8] else []) ++ (if flags.zero then ['0'.toUInt8] else []) ++
    if flags.alternate then ['#'.toUInt8] else []

theorem flagBytes_facts (flags : FormatFlags) : FormatFlags.ofBytes (flagBytes flags) = flags ∧
    ∀ b ∈ flagBytes flags, FormatFlags.isFlag b = true := by
  obtain ⟨left, plus, space, zero, alternate⟩ := flags
  revert left plus space zero alternate
  decide +kernel

theorem decimal_digit {b : UInt8} (h : b ∈ (digitBytes false).take 10) :
    Byte.isDigit b = true ∧ Byte.digitValue b = (digitBytes false).idxOf b ∧
      (b ≠ '0'.toUInt8 → FormatFlags.isFlag b = false) := by
  revert b
  decide +kernel

theorem areDigits_decimal (n : Nat) : AreDigits 10 false (digitsOf 10 false n) :=
  areDigits_digitsOf (by decide) (by decide) n

theorem value_digitsOf (n : Nat) : SizeText.value (digitsOf 10 false n) = n := by
  have hvalue : SizeText.value (digitsOf 10 false n) = numberOf 10 false (digitsOf 10 false n) :=
    List.foldl_ext _ _ _ fun k b hb => by rw [(decimal_digit (areDigits_decimal n b hb)).2.1]
  rw [hvalue, numberOf_digitsOf (by decide) (by decide)]

/-- A number other than zero does not begin with what could be a flag. -/
theorem isFlag_head {n : Nat} (h : n ≠ 0) :
    ∀ b ∈ (digitsOf 10 false n).head?, FormatFlags.isFlag b = false := by
  intro b hb
  refine (decimal_digit (areDigits_decimal n b (List.mem_of_mem_head? hb))).2.2 ?_
  rintro rfl
  have hlt := ((head?_eq_zero_iff (areDigits_decimal n)).mp hb).2
  rw [numberOf_digitsOf (by decide) (by decide), length_digitsOf (by decide),
    Nat.add_sub_cancel] at hlt
  exact absurd (Nat.pow_log_le_self 10 h) (by omega)

/-- The directive that asks for a field with sizes that are written out. -/
def written (f : Field) (b : UInt8) : Spelling where
  flags := flagBytes f.flags
  width := .digits (if f.width = 0 then [] else digitsOf 10 false f.width)
  precision := f.precision.map fun n => .digits (digitsOf 10 false n)
  length := []
  conversion := some b

/-- The directive that asks for a field with sizes that are arguments. -/
def starred (f : Field) (b : UInt8) : Spelling :=
  ⟨flagBytes f.flags, .star, some .star, [], some b⟩

/-- The arguments that give the sizes of a field. A precision that is absent is given as -1. -/
def sizeArguments (f : Field) : List Word :=
  [Word.ofNat f.width, f.precision.elim (-1) Word.ofNat]

section Fields

variable {f : Field} {b : UInt8}

theorem field_eq {s : Spelling} {args : List Word} (hflags : s.flags = flagBytes f.flags)
    (hleft : s.width.setsLeft args = false) (hwidth : s.width.width args = f.width)
    (hprecision : s.precision.bind (·.precision (s.behindWidth args)) = f.precision) :
    s.field args = f := by
  simp only [Spelling.field, hflags, (flagBytes_facts f.flags).1, hleft, hwidth, hprecision,
    Bool.or_false]

theorem read_written (hb : endsParts b = true) :
    Spelling.read (written f b).bytes = (written f b, []) := by
  refine Spelling.read_bytes (flagBytes_facts f.flags).2 ?_ ?_ ?_ rfl rfl hb
  · show ∀ x ∈ (if f.width = 0 then [] else digitsOf 10 false f.width), _
    split_ifs
    · simp
    · exact fun x hx => (decimal_digit (areDigits_decimal f.width x hx)).1
  · show ∀ x ∈ (if f.width = 0 then [] else digitsOf 10 false f.width).head?, _
    split_ifs with hzero
    · simp
    · exact isFlag_head hzero
  · intro size hsize
    obtain ⟨n, -, rfl⟩ := Option.mem_map.mp hsize
    exact fun x hx => (decimal_digit (areDigits_decimal n x hx)).1

theorem behindSizes_written (args : List Word) : (written f b).behindSizes args = args := by
  cases hn : f.precision <;>
    simp [Spelling.behindSizes, Spelling.behindWidth, written, SizeText.argumentCount, hn]

theorem read_starred (hb : endsParts b = true) :
    Spelling.read (starred f b).bytes = (starred f b, []) := by
  refine Spelling.read_bytes (flagBytes_facts f.flags).2 trivial ?_ ?_ rfl rfl hb
  · rintro x ⟨⟩
    decide
  · rintro size ⟨⟩
    trivial

variable (hw : f.width ≤ 2 ^ 20) (hp : ∀ n ∈ f.precision, n ≤ 2 ^ 20)
include hw hp

theorem field_written (args : List Word) : (written f b).field args = f := by
  have hsize : ∀ n ≤ 2 ^ 20, min (SizeText.value (digitsOf 10 false n)) (2 ^ 64 - 1) = n := by
    intro n hn
    rw [value_digitsOf]
    omega
  refine field_eq rfl rfl ?_ ?_
  · by_cases hzero : f.width = 0
    · simp [written, SizeText.width, SizeText.value, hzero]
    · simp only [written, SizeText.width, if_neg hzero]
      exact hsize f.width hw
  · cases hn : f.precision with
    | none => simp [written, hn]
    | some n =>
      simp only [written, hn, Option.map_some, Option.bind_some, SizeText.precision]
      exact congrArg some (hsize n (hp n hn))

theorem field_starred (args : List Word) :
    (starred f b).field (sizeArguments f ++ args) = f := by
  have hsize : ∀ n ≤ 2 ^ 20, (Word.ofNat n).toInt = n := fun n hn =>
    Int64.toInt_ofNat_of_lt (by omega)
  have hpos : ∀ n ≤ 2 ^ 20, ¬ Word.ofNat n < 0 := by
    intro n hn hneg
    rw [Int64.lt_iff_toInt_lt, hsize n hn] at hneg
    simp at hneg
    omega
  refine field_eq rfl ?_ ?_ ?_
  · simp [starred, SizeText.setsLeft, sizeArguments, hpos f.width hw]
  · simp [starred, SizeText.width, sizeArguments, hsize f.width hw]
  · cases hn : f.precision with
    | none =>
      have hneg : (-1 : Word) < 0 := by decide
      simp [starred, SizeText.precision, Spelling.behindWidth, SizeText.argumentCount,
        sizeArguments, hn, hneg]
    | some n =>
      have hle := hp n hn
      simp [starred, SizeText.precision, Spelling.behindWidth, SizeText.argumentCount,
        sizeArguments, hn, hpos n hle, hsize n hle]

end Fields

/-- A directive for an integer fills up the field that it asks for. -/
theorem format_directive (m : Memory) {s : Spelling} {c : IntConversion} {f : Field}
    {args : List Word} (hread : Spelling.read s.bytes = (s, []))
    (hs : s.conversion = some c.letter) (hf : s.field args = f) (hw : f.width ≤ 2 ^ 20)
    (hp : ∀ n ∈ f.precision, n ≤ 2 ^ 20) :
    format m ('%'.toUInt8 :: s.bytes) args =
      .ok (f.pad (c.mark f.flags ((s.behindSizes args).headD 0))
        (c.body f ((s.behindSizes args).headD 0))) := by
  have hgranted : (sizesOf f).findSome? (Request.fault? m) = none := by
    rw [List.findSome?_eq_none_iff]
    intro r hr
    rw [Request.fault?_eq_none_iff]
    rcases List.mem_cons.mp hr with rfl | hr
    · exact hw
    · obtain ⟨n, hn, rfl⟩ := Option.map_eq_some_iff.mp (Option.mem_toList.mp hr)
      exact hp n hn
  have hconvert : s.convert m args f =
      .ok (f.pad (c.mark f.flags ((s.behindSizes args).headD 0))
        (c.body f ((s.behindSizes args).headD 0)), (s.behindSizes args).tail) := by
    simp only [Spelling.convert, hs, c.ofByte_letter]
    rfl
  rw [format_eq, pieces_percent, hread, pieces_nil, renderAll, Piece.render, s.render_eq, hf,
    hgranted]
  dsimp only
  rw [hconvert]
  simp [renderAll, Except.map]

/-- Every integer is shown as its conversion says in every field that is not too large, whether the
sizes are written out or are arguments. -/
theorem format_integer (m : Memory) (c : IntConversion) (f : Field) (v : Word) (args : List Word)
    (hw : f.width ≤ 2 ^ 20) (hp : ∀ n ∈ f.precision, n ≤ 2 ^ 20) :
    ∃ text before digits behind,
      format m ('%'.toUInt8 :: (written f c.letter).bytes) (v :: args) = .ok text ∧
      format m ('%'.toUInt8 :: (starred f c.letter).bytes) (sizeArguments f ++ v :: args) =
        .ok text ∧
      c.Shows f v text before digits behind := by
  have hends : endsParts c.letter = true := by cases c <;> decide
  obtain ⟨before, digits, behind, hshows⟩ := c.shows_pad f v
  refine ⟨_, before, digits, behind, ?_, ?_, hshows⟩
  · rw [format_directive m (read_written hends) rfl (field_written hw hp _) hw hp,
      behindSizes_written]
    rfl
  · exact format_directive m (read_starred hends) rfl (field_starred hw hp _) hw hp

/-- The least word in hexadecimal, filled up with zeros, and as a signed number whose precision
turns the zeros into blanks. -/
theorem format_integer_least :
    let m : Memory := ⟨#[], 0x10000, 0x10000, 0, [], []⟩
    let f : Field := ⟨⟨false, true, false, true, true⟩, 24, none⟩
    let g : Field := ⟨⟨false, true, false, true, true⟩, 24, some 21⟩
    (∃ text before digits behind,
      format m ('%'.toUInt8 :: (written f 'X'.toUInt8).bytes) [Int64.minValue] = .ok text ∧
      format m ('%'.toUInt8 :: (starred f 'X'.toUInt8).bytes) [24, -1, Int64.minValue] = .ok text ∧
      IntConversion.X.Shows f Int64.minValue text before digits behind) ∧
    ∃ text before digits behind,
      format m ('%'.toUInt8 :: (written g 'd'.toUInt8).bytes) [Int64.minValue] = .ok text ∧
      format m ('%'.toUInt8 :: (starred g 'd'.toUInt8).bytes) [24, 21, Int64.minValue] = .ok text ∧
      IntConversion.d.Shows g Int64.minValue text before digits behind :=
  ⟨format_integer _ .X _ _ [] (by decide) (by simp),
    format_integer _ .d _ _ [] (by decide) (by simp)⟩

end MiniC.Format
