import Mathlib
import MiniC.Proofs.Format.Expansion
import MiniC.Proofs.Machine.Cells

/-!
# Texts of bounded length

`%.*s` shows the text at an address up to its first NUL, or up to the precision if that is sooner.
What is shown depends on no byte behind it (`IsText.ext`). Whether it is shown at all does: the text
is read up to its NUL before it is cut off, so a buffer without one is refused unless some byte
behind it, anywhere up to the end of memory, happens to be zero (`format_precisionText`).
-/

namespace MiniC

namespace Memory

variable {m : Memory} {a : Word}

/-- The byte `k` places above an address. -/
def byteAbove (m : Memory) (a : Word) (k : Nat) : Option UInt8 :=
  (m.offset? a 0).bind fun start => m.bytes[start + k]?

/-! ## The first NUL -/

/-- A NUL that is found is the first one. -/
theorem findNul?_eq_some {bytes : Array UInt8} {start count nul : Nat}
    (h : findNul? bytes start count = some nul) :
    start ≤ nul ∧ bytes[nul]? = some 0 ∧ ∀ j, start ≤ j → j < nul → bytes[j]? ≠ some 0 := by
  induction count generalizing start with
  | zero => simp [findNul?] at h
  | succ count ih =>
    rw [findNul?] at h
    split_ifs at h with hstart
    · obtain rfl := Option.some.inj h
      exact ⟨le_rfl, hstart, fun j hj hlt => absurd hj (by omega)⟩
    · obtain ⟨hle, hnul, hfirst⟩ := ih h
      refine ⟨by omega, hnul, fun j hj hlt => ?_⟩
      by_cases hj' : j = start
      · rwa [hj']
      · exact hfirst j (by omega) hlt

/-- A search that finds nothing has passed no NUL. -/
theorem findNul?_eq_none {bytes : Array UInt8} {start count : Nat}
    (h : findNul? bytes start count = none) :
    ∀ j, start ≤ j → j < start + count → bytes[j]? ≠ some 0 := by
  induction count generalizing start with
  | zero => exact fun j hj hlt => absurd hj (by omega)
  | succ count ih =>
    rw [findNul?] at h
    split_ifs at h with hstart
    intro j hj hlt
    by_cases hj' : j = start
    · rwa [hj']
    · exact ih h j (by omega) (by omega)

/-! ## Texts in memory -/

/-- The text at an address, of which at most `limit` bytes are wanted: it ends in front of a NUL or
has as many bytes as are wanted, and holds no NUL. -/
structure IsText (m : Memory) (a : Word) (limit : Nat) (text : List UInt8) : Prop where
  length_le : text.length ≤ limit
  bytes : ∀ k < text.length, m.byteAbove a k = text[k]?
  not_mem : 0 ∉ text
  stop : text.length = limit ∨ m.byteAbove a text.length = some 0

/-- Where the text does not end there is a byte other than NUL. -/
theorem IsText.byteAbove_ne {limit : Nat} {text : List UInt8} (h : m.IsText a limit text) {k : Nat}
    (hk : k < text.length) : m.byteAbove a k ≠ some 0 := by
  rw [h.bytes k hk]
  exact fun hzero => h.not_mem (List.mem_of_getElem? hzero)

/-- Two memories that agree on the bytes of a text and on the one that ends it have the same text.
-/
theorem IsText.ext {m' : Memory} {limit : Nat} {text text' : List UInt8}
    (h : m.IsText a limit text) (h' : m'.IsText a limit text')
    (hagree : ∀ k < limit, k ≤ text.length → m'.byteAbove a k = m.byteAbove a k) :
    text' = text := by
  have hlimit := h.length_le
  have hlimit' := h'.length_le
  -- Neither text can end inside the other one: there the other one has a byte that is no NUL.
  have hlength : text'.length = text.length := by
    rcases Nat.lt_trichotomy text'.length text.length with hlt | heq | hgt
    · rcases h'.stop with hstop | hstop
      · omega
      · rw [hagree _ (by omega) (by omega)] at hstop
        exact absurd hstop (h.byteAbove_ne hlt)
    · exact heq
    · rcases h.stop with hstop | hstop
      · omega
      · rw [← hagree _ (by omega) le_rfl] at hstop
        exact absurd hstop (h'.byteAbove_ne hgt)
  apply List.ext_getElem?
  intro k
  by_cases hk : k < text.length
  · rw [← h'.bytes k (by omega), ← h.bytes k hk, hagree k (by omega) (by omega)]
  · rw [List.getElem?_eq_none (by omega), List.getElem?_eq_none (by omega)]

/-- A text that can be read, cut off at a limit. -/
theorem isText_take {text : List UInt8} (h : m.cstring a = .ok text) (limit : Nat) :
    m.IsText a limit (text.take limit) := by
  rw [cstring_eq] at h
  split at h
  · cases h
  next start hstart =>
  split at h
  next nul hnul =>
    obtain ⟨hle, hzero, hfirst⟩ := findNul?_eq_some hnul
    have hin : nul < m.bytes.size := (Array.getElem?_eq_some_iff.mp hzero).1
    have habove : ∀ k, m.byteAbove a k = m.bytes[start + k]? := fun k => by
      rw [byteAbove, hstart, Option.bind_some]
    have hget : ∀ k, text[k]? = if k < nul - start then m.bytes[start + k]? else none := fun k => by
      rw [← Except.ok.inj h, getElem?_slice]
    have hlength : text.length = nul - start := by
      rw [← Except.ok.inj h, slice, Array.length_toList, Array.size_extract]
      omega
    refine ⟨List.length_take_le _ _, fun k hk => ?_, fun hmem => ?_, ?_⟩
    · rw [List.length_take] at hk
      rw [List.getElem?_take_of_lt (by omega), hget, if_pos (by omega), habove]
    · obtain ⟨k, hk⟩ := List.mem_iff_getElem?.mp (List.mem_of_mem_take hmem)
      rw [hget] at hk
      split_ifs at hk with hlt
      exact hfirst (start + k) (by omega) (by omega) hk
    · rw [List.length_take, hlength, habove]
      rcases Nat.le_total limit (nul - start) with hlimit | hlimit
      · exact .inl (by omega)
      · rw [show start + min limit (nul - start) = nul by omega]
        exact .inr hzero
  · cases h

/-- A text can be read if there is a NUL above its address. -/
theorem cstring_of_byteAbove (h : ∃ k, m.byteAbove a k = some 0) :
    ∃ text, m.cstring a = .ok text := by
  obtain ⟨k, hk⟩ := h
  rw [byteAbove, Option.bind_eq_some_iff] at hk
  obtain ⟨start, hstart, hzero⟩ := hk
  have hin := (Array.getElem?_eq_some_iff.mp hzero).1
  cases hnul : findNul? m.bytes start (m.bytes.size - start) with
  | some nul =>
    refine ⟨m.slice start (nul - start), ?_⟩
    simp only [cstring_eq, hstart, hnul]
  | none => exact absurd hzero (findNul?_eq_none hnul _ (by omega) (by omega))

/-- The number of bytes that a read up to a NUL asks for if it meets none: all those up to the end
of memory and one more, or none at an address that lies outside. -/
def unterminatedLength (m : Memory) (a : Word) : Nat :=
  (m.offset? a 0).elim 0 fun start => m.bytes.size - start + 1

/-- Without a NUL above its address a text cannot be read. -/
theorem cstring_of_not_byteAbove (h : ¬∃ k, m.byteAbove a k = some 0) :
    m.cstring a = .error (.segfault a (m.unterminatedLength a)) := by
  cases hstart : m.offset? a 0 with
  | none => simp only [cstring_eq, unterminatedLength, hstart, Option.elim_none]
  | some start =>
    cases hnul : findNul? m.bytes start (m.bytes.size - start) with
    | some nul =>
      obtain ⟨hle, hzero, -⟩ := findNul?_eq_some hnul
      refine absurd ⟨nul - start, ?_⟩ h
      rw [byteAbove, hstart, Option.bind_some, Nat.add_sub_cancel' hle, hzero]
    | none => simp only [cstring_eq, unterminatedLength, hstart, hnul, Option.elim_some]

end Memory

namespace Format

/-! ## Formats -/

/-- A text whose precision is an argument. -/
def precisionText : List UInt8 := ['%', '.', '*', 's'].map Char.toUInt8

/-- The directive that the format consists of. -/
def precisionSpelling : Spelling := ⟨[], .digits [], some .star, [], some 's'.toUInt8⟩

theorem pieces_precisionText : pieces precisionText = [.directive precisionSpelling] := by
  rw [precisionText, List.map_cons, pieces_percent]
  exact congrArg (Piece.directive precisionSpelling :: ·) pieces_nil

theorem field_precisionSpelling (a : Word) {p : Nat} (hp : p < 2 ^ 63) :
    precisionSpelling.field [Word.ofNat p, a] = ⟨.ofBytes [], 0, some p⟩ := by
  have hint : (Word.ofNat p).toInt = p := Word.toInt_ofNat hp
  have hneg : ¬Word.ofNat p < 0 := by
    rw [Int64.lt_iff_toInt_lt, hint, Int64.toInt_zero]
    omega
  have hprecision : SizeText.star.precision [Word.ofNat p, a] = some p := by
    rw [SizeText.precision, List.headD_cons, if_neg hneg, hint, Int.toNat_natCast]
  simp only [Spelling.field, precisionSpelling, Spelling.behindWidth, SizeText.argumentCount,
    List.drop_zero, Option.bind_some, hprecision]
  rfl

theorem convert_precisionSpelling (m : Memory) (w a : Word) (f : Field) :
    precisionSpelling.convert m [w, a] f = (f.string m a).map (·, []) := by
  show (f.string m a >>= fun text => .ok (text, [])) = _
  cases f.string m a <;> rfl

/-- The text is read first and cut off afterwards. -/
theorem format_precisionText_eq (m : Memory) (a : Word) {p : Nat} (hp : p ≤ 2 ^ 20) :
    format m precisionText [Word.ofNat p, a] = (m.cstring a).map (List.take p) := by
  have hsizes : (sizesOf ⟨.ofBytes [], 0, some p⟩).findSome? (Request.fault? m) = none := by
    have hmax : p ≤ maxField := hp
    simp [sizesOf, Request.fault?, hmax]
  have hshow (body : List UInt8) : Field.text ⟨.ofBytes [], 0, some p⟩ body = body := by
    simp [Field.text, Field.pad, FormatFlags.ofBytes]
  rw [format_eq, pieces_precisionText, renderAll, Piece.render, Spelling.render_eq,
    field_precisionSpelling a (by omega), hsizes]
  simp only [convert_precisionSpelling, Field.string]
  cases m.cstring a with
  | error e => rfl
  | ok text =>
    show Except.ok (Field.text _ (text.take p) ++ []) = Except.ok (text.take p)
    rw [hshow, List.append_nil]

/-- With a precision `p`, if a NUL lies anywhere above the address, the text is shown up to its
first NUL or up to `p` bytes, and no byte behind these matters. Without a NUL the format fails, even
if there are `p` bytes to show. -/
theorem format_precisionText (m : Memory) (a : Word) (p : Nat) (hp : p ≤ 2 ^ 20) :
    ((∃ k, m.byteAbove a k = some 0) →
      ∃ text, format m precisionText [Word.ofNat p, a] = .ok text ∧ m.IsText a p text ∧
        ∀ m' : Memory, (∃ k, m'.byteAbove a k = some 0) →
          (∀ k < p, k ≤ text.length → m'.byteAbove a k = m.byteAbove a k) →
          format m' precisionText [Word.ofNat p, a] = .ok text) ∧
    ((¬∃ k, m.byteAbove a k = some 0) →
      format m precisionText [Word.ofNat p, a] =
        .error (.segfault a (m.unterminatedLength a))) := by
  refine ⟨fun hnul => ?_, fun hnul => ?_⟩
  · obtain ⟨text, htext⟩ := Memory.cstring_of_byteAbove hnul
    have hcut := Memory.isText_take htext p
    refine ⟨text.take p, by rw [format_precisionText_eq m a hp, htext]; rfl, hcut, ?_⟩
    intro m' hnul' hagree
    obtain ⟨text', htext'⟩ := Memory.cstring_of_byteAbove hnul'
    have hsame := hcut.ext (Memory.isText_take htext' p) hagree
    rw [format_precisionText_eq m' a hp, htext', ← hsame]
    rfl
  · rw [format_precisionText_eq m a hp, Memory.cstring_of_not_byteAbove hnul]
    rfl

/-- Three bytes of a buffer of eight, behind which a NUL follows. -/
theorem format_precisionText_three :
    let m : Memory := ⟨#[65, 66, 67, 68, 69, 70, 71, 72, 0], 0x10009, 0x10009, 0, [], []⟩
    format m precisionText [3, 0x10000] = .ok [65, 66, 67] ∧ m.IsText 0x10000 3 [65, 66, 67] := by
  intro m
  obtain ⟨text, hformat, htext, -⟩ := (format_precisionText m 0x10000 3 (by decide)).1 ⟨8, by cbv⟩
  have hshown : format m precisionText [3, 0x10000] = .ok [65, 66, 67] := by cbv
  obtain rfl : text = [65, 66, 67] := Except.ok.inj (hformat.symm.trans hshown)
  exact ⟨hshown, htext⟩

/-- The same three bytes are refused if memory ends with the buffer. -/
theorem not_format_precisionText :
    let m : Memory := ⟨#[65, 66, 67, 68, 69, 70, 71, 72], 0x10008, 0x10008, 0, [], []⟩
    m.read 0x10000 3 = .ok [65, 66, 67] ∧
      format m precisionText [3, 0x10000] = .error (.segfault 0x10000 9) :=
  ⟨by cbv, by cbv⟩

end Format

end MiniC
