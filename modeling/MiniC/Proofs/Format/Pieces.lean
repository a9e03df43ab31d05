import Mathlib
import MiniC.Format
import MiniC.Proofs.Compiling.Pools

/-!
# The pieces of a format

A format is read as a sequence of pieces: plain bytes, and directives as they are spelled. The
spellings make up the format again (`bytes_pieces`), and the pieces of two formats in a row are
those of the first and those of the second, if the first does not end inside a directive
(`pieces_append`).

Expanding a format is rendering its pieces one after the other (`format_eq`). How many arguments a
piece takes can be seen from its spelling (`Spelling.argumentCount`), whatever the arguments are.
-/

namespace MiniC.Format

/-! ## Spellings -/

/-- A width or precision as it is spelled: a star, or digits, of which there may be none. -/
inductive SizeText where
  | star
  | digits (digits : List UInt8)
  deriving DecidableEq

namespace SizeText

def bytes : SizeText → List UInt8
  | star => ['*'.toUInt8]
  | digits ds => ds

/-- Reads a size in front of other bytes. -/
def read (bytes : List UInt8) : SizeText × List UInt8 :=
  if bytes.head? = some '*'.toUInt8 then (star, bytes.tail)
  else (digits (bytes.takeWhile Byte.isDigit), bytes.dropWhile Byte.isDigit)

/-- The number that decimal digits spell. -/
def value (digits : List UInt8) : Nat := digits.foldl (fun n d => n * 10 + Byte.digitValue d) 0

/-- What the size is: one that is written counts up to `2 ^ 64 - 1`. -/
def size : SizeText → FieldSize
  | star => .argument
  | digits ds => .given (min (value ds) (2 ^ 64 - 1))

/-- How many arguments the size takes. -/
def argumentCount : SizeText → Nat
  | star => 1
  | digits _ => 0

end SizeText

/-- A directive as it is spelled behind its `%`. -/
structure Spelling where
  flags : List UInt8
  width : SizeText
  precision : Option SizeText
  length : List UInt8
  /-- The byte that names the conversion; a format that ends before it ends inside the directive. -/
  conversion : Option UInt8
  deriving DecidableEq

/-- The letters of the conversions that show a value. -/
def valueLetters : List UInt8 :=
  ['d', 'i', 'u', 'x', 'X', 'o', 'p', 'c', 's'].map Char.toUInt8

namespace Spelling

def precisionBytes : Option SizeText → List UInt8
  | none => []
  | some size => '.'.toUInt8 :: size.bytes

def bytes (s : Spelling) : List UInt8 :=
  s.flags ++ s.width.bytes ++ precisionBytes s.precision ++ s.length ++ s.conversion.toList

/-- Reads a precision where a point announces one. -/
def readPrecision (bytes : List UInt8) : Option SizeText × List UInt8 :=
  if bytes.head? = some '.'.toUInt8 then
    (some (SizeText.read bytes.tail).1, (SizeText.read bytes.tail).2)
  else (none, bytes)

/-- Reads a directive behind its `%`, in front of other bytes. Each part is as long as can be. -/
def read (bytes : List UInt8) : Spelling × List UInt8 :=
  let width := SizeText.read (bytes.dropWhile FormatFlags.isFlag)
  let precision := readPrecision width.2
  let last := precision.2.dropWhile Directive.isLength
  (⟨bytes.takeWhile FormatFlags.isFlag, width.1, precision.1,
    precision.2.takeWhile Directive.isLength, last.head?⟩, last.tail)

/-- What the directive asks for. -/
def directive (s : Spelling) : Directive :=
  ⟨.ofBytes s.flags, s.width.size, s.precision.map SizeText.size, s.conversion⟩

/-- How many arguments the directive takes: one for each star, and one for a value to show. -/
def argumentCount (s : Spelling) : Nat :=
  s.width.argumentCount + (s.precision.elim 0 SizeText.argumentCount +
    if ∃ b ∈ s.conversion, b ∈ valueLetters then 1 else 0)

end Spelling

/-! ## Reading a directive -/

theorem eq_toUInt8 {b : UInt8} {c : Char} (h : Char.ofUInt8 b = c) : b = c.toUInt8 := by
  rw [← h]
  simp [Char.ofUInt8, Char.toUInt8]

theorem ofUInt8_eq_iff {b : UInt8} {c : Char} (hc : Char.ofUInt8 c.toUInt8 = c) :
    Char.ofUInt8 b = c ↔ b = c.toUInt8 :=
  ⟨eq_toUInt8, fun h => h ▸ hc⟩

/-- Saturating at every digit comes to the same as saturating once at the end. -/
theorem foldl_saturate (digits : List UInt8) (value : UInt64) (n : Nat)
    (h : value.toNat = min n (2 ^ 64 - 1)) :
    (digits.foldl (fun value d =>
        saturate ((saturate (value.toNat * 10)).toNat + Byte.digitValue d)) value).toNat =
      min (digits.foldl (fun n d => n * 10 + Byte.digitValue d) n) (2 ^ 64 - 1) := by
  induction digits generalizing value n with
  | nil => exact h
  | cons d digits ih =>
    refine ih _ _ ?_
    simp only [toNat_saturate, maxSize, h]
    omega

theorem toNat_decimalValue (digits : List UInt8) :
    (Directive.decimalValue digits).toNat = min (SizeText.value digits) (2 ^ 64 - 1) :=
  foldl_saturate digits 0 0 rfl

theorem readSize_eq (bytes : List UInt8) :
    Directive.readSize bytes = ((SizeText.read bytes).1.size, (SizeText.read bytes).2) := by
  cases bytes with
  | nil => rfl
  | cons b rest =>
    simp only [Directive.readSize, SizeText.read, List.head?_cons, Option.some.injEq,
      ofUInt8_eq_iff (c := '*') rfl, toNat_decimalValue]
    split <;> rfl

theorem readPrecision_eq (bytes : List UInt8) :
    Directive.readPrecision bytes =
      ((Spelling.readPrecision bytes).1.map SizeText.size, (Spelling.readPrecision bytes).2) := by
  cases bytes with
  | nil => rfl
  | cons b rest =>
    simp only [Directive.readPrecision, Spelling.readPrecision, readSize_eq, List.head?_cons,
      List.tail_cons, Option.some.injEq, ofUInt8_eq_iff (c := '.') rfl]
    split <;> rfl

/-- A directive is what its spelling asks for. -/
theorem parse_eq (bytes : List UInt8) :
    Directive.parse bytes = ((Spelling.read bytes).1.directive, (Spelling.read bytes).2) := by
  simp only [Directive.parse, readSize_eq, readPrecision_eq, Spelling.read, Spelling.directive]

theorem SizeText.bytes_read (bytes : List UInt8) :
    (read bytes).1.bytes ++ (read bytes).2 = bytes := by
  unfold read
  split_ifs with h
  · exact List.cons_head?_tail h
  · exact List.takeWhile_append_dropWhile

theorem Spelling.bytes_readPrecision (bytes : List UInt8) :
    precisionBytes (readPrecision bytes).1 ++ (readPrecision bytes).2 = bytes := by
  unfold readPrecision
  split_ifs with h
  · rw [precisionBytes, List.cons_append, SizeText.bytes_read]
    exact List.cons_head?_tail h
  · rfl

/-- The spelling of a directive and the bytes behind it are what was read. -/
theorem Spelling.bytes_read (bytes : List UInt8) :
    (read bytes).1.bytes ++ (read bytes).2 = bytes := by
  have hlast : ∀ l : List UInt8, l.head?.toList ++ l.tail = l := by rintro (_ | _) <;> rfl
  simp only [read, Spelling.bytes, List.append_assoc, hlast, List.takeWhile_append_dropWhile,
    bytes_readPrecision, SizeText.bytes_read]

theorem Spelling.read_suffix (bytes : List UInt8) : (read bytes).2 <:+ bytes :=
  ⟨_, bytes_read bytes⟩

theorem span_append {p : UInt8 → Bool} {bytes : List UInt8} (h : bytes.dropWhile p ≠ [])
    (more : List UInt8) :
    (bytes ++ more).takeWhile p = bytes.takeWhile p ∧
      (bytes ++ more).dropWhile p = bytes.dropWhile p ++ more := by
  have htake : (bytes.takeWhile p).length ≠ bytes.length := by
    intro heq
    have hsum := congrArg List.length (List.takeWhile_append_dropWhile (p := p) (l := bytes))
    rw [List.length_append, heq] at hsum
    exact h (List.length_eq_zero_iff.mp (by omega))
  rw [List.takeWhile_append, if_neg htake, List.dropWhile_append, if_neg (by simpa using h)]
  exact ⟨rfl, rfl⟩

theorem SizeText.read_append {bytes : List UInt8} (h : (read bytes).2 ≠ []) (more : List UInt8) :
    read (bytes ++ more) = ((read bytes).1, (read bytes).2 ++ more) := by
  cases bytes with
  | nil => exact absurd rfl h
  | cons b rest =>
    by_cases hstar : b = '*'.toUInt8
    · subst hstar
      rfl
    · have hread : ∀ l, read (b :: l) =
          (digits ((b :: l).takeWhile Byte.isDigit), (b :: l).dropWhile Byte.isDigit) := fun l => by
        rw [read, if_neg (by simpa using hstar)]
      rw [hread] at h
      obtain ⟨htake, hdrop⟩ := span_append h more
      rw [List.cons_append, hread, hread, ← List.cons_append, htake, hdrop]

theorem Spelling.readPrecision_append {bytes : List UInt8} (h : (readPrecision bytes).2 ≠ [])
    (more : List UInt8) :
    readPrecision (bytes ++ more) = ((readPrecision bytes).1, (readPrecision bytes).2 ++ more) := by
  cases bytes with
  | nil => exact absurd rfl h
  | cons b rest =>
    by_cases hpoint : b = '.'.toUInt8
    · subst hpoint
      have hread := @SizeText.read_append rest h more
      show (some (SizeText.read (rest ++ more)).1, (SizeText.read (rest ++ more)).2) = _
      rw [hread]
      rfl
    · have hread : ∀ l, readPrecision (b :: l) = (none, b :: l) := fun l => by
        rw [readPrecision, if_neg (by simpa using hpoint)]
      rw [List.cons_append, hread, hread, List.cons_append]

/-- Bytes behind a directive that is finished do not change how it is read. -/
theorem Spelling.read_append {bytes : List UInt8} (h : (read bytes).1.conversion.isSome = true)
    (more : List UInt8) :
    read (bytes ++ more) = ((read bytes).1, (read bytes).2 ++ more) := by
  -- the conversion is the last byte that is read, so every part before it ends where a byte stands
  have hlast : (readPrecision (SizeText.read (bytes.dropWhile FormatFlags.isFlag)).2).2.dropWhile
      Directive.isLength ≠ [] := by
    intro hnil
    simp [read, hnil] at h
  have hprecision :
      (readPrecision (SizeText.read (bytes.dropWhile FormatFlags.isFlag)).2).2 ≠ [] := by
    intro hnil
    exact hlast (by rw [hnil]; rfl)
  have hwidth : (SizeText.read (bytes.dropWhile FormatFlags.isFlag)).2 ≠ [] := by
    intro hnil
    exact hprecision (by rw [hnil]; rfl)
  have hflags : bytes.dropWhile FormatFlags.isFlag ≠ [] := by
    intro hnil
    exact hwidth (by rw [hnil]; rfl)
  obtain ⟨hflagBytes, hbehind⟩ := span_append hflags more
  obtain ⟨hlength, hend⟩ := span_append hlast more
  simp only [read, hflagBytes, hbehind, SizeText.read_append hwidth,
    readPrecision_append hprecision, hlength, hend, List.head?_append_of_ne_nil _ hlast,
    List.tail_append_of_ne_nil hlast]

/-! ## Reading a format -/

inductive Piece where
  | plain (b : UInt8)
  | directive (s : Spelling)
  deriving DecidableEq

namespace Piece

def bytes : Piece → List UInt8
  | plain b => [b]
  | directive s => '%'.toUInt8 :: s.bytes

def argumentCount : Piece → Nat
  | plain _ => 0
  | directive s => s.argumentCount

/-- Whether the piece is not a directive that the format ends inside. -/
def isFinished : Piece → Bool
  | plain _ => true
  | directive s => s.conversion.isSome

end Piece

def pieces : List UInt8 → List Piece
  | [] => []
  | b :: rest =>
    if b = '%'.toUInt8 then .directive (Spelling.read rest).1 :: pieces (Spelling.read rest).2
    else .plain b :: pieces rest
termination_by bytes => bytes.length
decreasing_by
  · exact Nat.lt_succ_of_le (Spelling.read_suffix rest).length_le
  · exact Nat.lt_succ_self _

theorem pieces_nil : pieces [] = [] := by rw [pieces]

theorem pieces_percent (rest : List UInt8) : pieces ('%'.toUInt8 :: rest) =
    .directive (Spelling.read rest).1 :: pieces (Spelling.read rest).2 := by
  rw [pieces, if_pos rfl]

theorem pieces_plain {b : UInt8} (h : b ≠ '%'.toUInt8) (rest : List UInt8) :
    pieces (b :: rest) = .plain b :: pieces rest := by
  rw [pieces, if_neg h]

/-- A format is made up of its pieces. -/
theorem bytes_pieces (bytes : List UInt8) : (pieces bytes).flatMap Piece.bytes = bytes := by
  fun_induction pieces bytes with
  | case1 => rfl
  | case2 rest ih =>
    rw [List.flatMap_cons, ih, Piece.bytes, List.cons_append, Spelling.bytes_read]
  | case3 b rest hb ih => rw [List.flatMap_cons, ih, Piece.bytes, List.singleton_append]

/-- Whether the format does not end inside a directive. -/
def isFinished (bytes : List UInt8) : Bool := (pieces bytes).all Piece.isFinished

/-- How many arguments the directives of the format take. -/
def argumentCount (bytes : List UInt8) : Nat := ((pieces bytes).map Piece.argumentCount).sum

theorem pieces_append {bytes : List UInt8} (h : isFinished bytes = true) (more : List UInt8) :
    pieces (bytes ++ more) = pieces bytes ++ pieces more := by
  unfold isFinished at h
  fun_induction pieces bytes with
  | case1 => rfl
  | case2 rest ih =>
    obtain ⟨hfinished, hrest⟩ := Bool.and_eq_true_iff.mp h
    rw [List.cons_append, pieces_percent, Spelling.read_append hfinished, ih hrest,
      List.cons_append]
  | case3 b rest hb ih =>
    obtain ⟨-, hrest⟩ := Bool.and_eq_true_iff.mp h
    rw [List.cons_append, pieces_plain hb, ih hrest, List.cons_append]

/-! ## Rendering piece by piece -/

/-- The text of a piece, and the arguments left. -/
def Piece.render (m : Memory) (args : List Word) : Piece → Except Fault (List UInt8 × List Word)
  | plain b => .ok ([b], args)
  | directive s => s.directive.render m args

/-- The text of some pieces. -/
def renderAll (m : Memory) : List Piece → List Word → Except Fault (List UInt8)
  | [], _ => .ok []
  | p :: ps, args =>
    match p.render m args with
    | .error e => .error e
    | .ok (text, args) => (renderAll m ps args).map (text ++ ·)

theorem formatLoop_eq (m : Memory) {fuel : Nat} {bytes : List UInt8} (h : bytes.length < fuel)
    (args : List Word) (made : List (List UInt8)) :
    formatLoop m fuel bytes args made =
      (renderAll m (pieces bytes) args).map (made.reverse.flatten ++ ·) := by
  induction fuel generalizing bytes args made with
  | zero => omega
  | succ fuel ih =>
    cases bytes with
    | nil => simp [formatLoop, pieces_nil, renderAll, Except.map]
    | cons b rest =>
      rw [List.length_cons] at h
      by_cases hb : b = '%'.toUInt8
      · have hlt : (Spelling.read rest).2.length < fuel := by
          have := (Spelling.read_suffix rest).length_le
          omega
        rw [formatLoop, if_pos ((ofUInt8_eq_iff rfl).mpr hb), hb, pieces_percent, renderAll,
          Piece.render]
        simp only [parse_eq]
        cases (Spelling.read rest).1.directive.render m args with
        | error e => rfl
        | ok r =>
          show formatLoop m fuel _ r.2 (r.1 :: made) = Except.map _ (Except.map _ _)
          rw [ih hlt]
          cases renderAll m (pieces (Spelling.read rest).2) r.2 <;> simp [Except.map]
      · rw [formatLoop, if_neg fun h => hb ((ofUInt8_eq_iff rfl).mp h), pieces_plain hb,
          renderAll, ih (by omega)]
        simp only [Piece.render]
        cases renderAll m (pieces rest) args <;> simp [Except.map]

/-- Expanding a format is rendering its pieces. -/
theorem format_eq (m : Memory) (bytes : List UInt8) (args : List Word) :
    format m bytes args = renderAll m (pieces bytes) args := by
  rw [format, formatLoop_eq m (Nat.lt_succ_self _)]
  cases renderAll m (pieces bytes) args <;> rfl

end MiniC.Format
