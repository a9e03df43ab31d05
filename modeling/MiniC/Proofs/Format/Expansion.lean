import Mathlib
import MiniC.Proofs.Format.Pieces
import MiniC.Proofs.Machine.Ranges

/-!
# What a format asks for

Before a directive shows anything it asks for a width, for a precision and, where it shows a text,
for the bytes at an address (`Spelling.requests`). Which requests a format makes can be told from
the format and the arguments alone, since a directive takes as many arguments as its spelling says.

A directive fails with the fault of the first request that is refused, and shows something if none
is (`Spelling.render_spec`). The same holds of a format as a whole (`renderAll_eq_error_iff`), and
two formats in a row ask for what the first asks for and then for what the second does
(`format_append`).
-/

namespace MiniC.Format

/-! ## Requests -/

/-- A request for a field of some size, or for the text at an address. -/
inductive Request where
  | size (n : Nat)
  | text (address : Word)
  deriving DecidableEq

/-- Why a request is refused: the size is past the greatest one, or the text cannot be read. -/
def Request.fault? (m : Memory) : Request → Option Fault
  | size n => if n ≤ maxField then none else some (.fieldTooWide n)
  | text address =>
    match m.cstring address with
    | .ok _ => none
    | .error e => some e

namespace SizeText

/-- The width that is asked for. An argument counts without its sign. -/
def width (args : List Word) : SizeText → Nat
  | star => (args.headD 0).toInt.natAbs
  | digits ds => min (value ds) (2 ^ 64 - 1)

/-- The precision that is asked for. A negative argument asks for none. -/
def precision (args : List Word) : SizeText → Option Nat
  | star => if args.headD 0 < 0 then none else some (args.headD 0).toInt.toNat
  | digits ds => some (min (value ds) (2 ^ 64 - 1))

/-- Whether the width sets the text left, which a negative argument does. -/
def setsLeft (args : List Word) : SizeText → Bool
  | star => args.headD 0 < 0
  | digits _ => false

end SizeText

/-- The sizes of a field, the width first. -/
def sizesOf (f : Field) : List Request :=
  .size f.width :: (f.precision.map Request.size).toList

namespace Spelling

variable (s : Spelling) (args : List Word)

/-- The arguments behind the one that gives the width. -/
def behindWidth : List Word := args.drop s.width.argumentCount

/-- The arguments behind those that give the sizes. The first of them is shown. -/
def behindSizes : List Word := (s.behindWidth args).drop (s.precision.elim 0 SizeText.argumentCount)

/-- The field that the directive asks for. -/
def field : Field where
  flags :=
    let flags := FormatFlags.ofBytes s.flags
    { flags with left := flags.left || s.width.setsLeft args }
  width := s.width.width args
  precision := s.precision.bind (·.precision (s.behindWidth args))

/-- The text that the directive asks for, if any. -/
def textRequests : List Request :=
  if s.conversion = some 's'.toUInt8 then [.text ((s.behindSizes args).headD 0)] else []

/-- What the directive asks for, the width before the precision and both before the text. -/
def requests : List Request := sizesOf (s.field args) ++ s.textRequests args

end Spelling

def Piece.requests (args : List Word) : Piece → List Request
  | plain _ => []
  | directive s => s.requests args

/-- What pieces ask for, each of them behind the arguments that those before it take. -/
def requestsOf : List Piece → List Word → List Request
  | [], _ => []
  | p :: ps, args => p.requests args ++ requestsOf ps (args.drop p.argumentCount)

/-! ## Rendering a directive -/

theorem check_eq (m : Memory) (n : Nat) :
    Field.check n = match (Request.size n).fault? m with
      | none => .ok n
      | some e => .error e := by
  rw [Field.check, Request.fault?]
  split_ifs <;> rfl

namespace Spelling

variable (m : Memory) (s : Spelling) (args : List Word)

theorem fieldWidth_eq :
    s.directive.fieldWidth args = (Field.check (s.field args).width).map fun n =>
      (n, s.width.setsLeft args, s.behindWidth args) := by
  rw [Directive.fieldWidth]
  cases hw : s.width with
  | star =>
    simp only [directive, hw, SizeText.size, field, SizeText.width, SizeText.setsLeft, behindWidth,
      SizeText.argumentCount, List.drop_one]
    cases Field.check (args.headD 0).toInt.natAbs <;> rfl
  | digits ds =>
    simp only [directive, hw, SizeText.size, field, SizeText.width, SizeText.setsLeft, behindWidth,
      SizeText.argumentCount, List.drop_zero]
    cases Field.check (min (SizeText.value ds) (2 ^ 64 - 1)) <;> rfl

theorem fieldPrecision_eq :
    s.directive.fieldPrecision (s.behindWidth args) =
      match (s.field args).precision with
      | none => .ok (none, s.behindSizes args)
      | some n => (Field.check n).map fun n => (some n, s.behindSizes args) := by
  rw [Directive.fieldPrecision]
  cases hp : s.precision with
  | none => simp [directive, hp, field, behindSizes]
  | some size =>
    cases size with
    | star =>
      simp only [directive, hp, Option.map_some, SizeText.size, field, Option.bind_some,
        SizeText.precision, behindSizes, Option.elim_some, SizeText.argumentCount, List.drop_one]
      split_ifs with hneg
      · rfl
      · dsimp only
        cases Field.check ((s.behindWidth args).headD 0).toInt.toNat <;> rfl
    | digits ds =>
      simp only [directive, hp, Option.map_some, SizeText.size, field, Option.bind_some,
        SizeText.precision, behindSizes, Option.elim_some, SizeText.argumentCount, List.drop_zero]
      cases Field.check (min (SizeText.value ds) (2 ^ 64 - 1)) <;> rfl

/-- What is left of a directive once its field is known. -/
def convert (f : Field) : Except Fault (List UInt8 × List Word) :=
  match s.conversion with
  | none => .ok (['%'.toUInt8], s.behindSizes args)
  | some b =>
    match Conversion.ofByte b with
    | .plain text => .ok (text, s.behindSizes args)
    | .value text? => do
      .ok (← text? f m ((s.behindSizes args).headD 0), (s.behindSizes args).tail)

/-- A directive asks for its sizes first, the width before the precision. -/
theorem render_eq :
    s.directive.render m args =
      match (sizesOf (s.field args)).findSome? (Request.fault? m) with
      | some e => .error e
      | none => s.convert m args (s.field args) := by
  have hfield : ∀ p, (s.field args).precision = p →
      s.field args = { s.field args with precision := p } := fun p hp => by rw [← hp]
  rw [Directive.render, fieldWidth_eq, check_eq m, sizesOf, List.findSome?_cons]
  cases (Request.size (s.field args).width).fault? m with
  | some e => rfl
  | none =>
    show (s.directive.fieldPrecision (s.behindWidth args) >>= _) = _
    rw [fieldPrecision_eq]
    cases hp : (s.field args).precision with
    | none =>
      rw [hfield none hp]
      rfl
    | some n =>
      simp only [Option.map_some, Option.toList_some, List.findSome?_singleton, check_eq m]
      cases (Request.size n).fault? m with
      | some e => rfl
      | none =>
        rw [hfield (some n) hp]
        rfl

/-- A conversion shows a value, which only the one for texts can fail to do, or leaves a text. -/
theorem ofByte_cases (b : UInt8) :
    (b ∈ valueLetters ∧ b ≠ 's'.toUInt8 ∧ ∃ text : Field → Word → List UInt8,
      Conversion.ofByte b = .value fun f _ w => .ok (text f w)) ∨
    (b = 's'.toUInt8 ∧ Conversion.ofByte b = .value fun f m w => f.string m w) ∨
    (b ∉ valueLetters ∧ ∃ text, Conversion.ofByte b = .plain text) := by
  by_cases hb : b ∈ valueLetters
  · simp only [valueLetters, List.map_cons, List.map_nil, List.mem_cons, List.not_mem_nil,
      or_false] at hb
    rcases hb with rfl | rfl | rfl | rfl | rfl | rfl | rfl | rfl | rfl
    case inr.inr.inr.inr.inr.inr.inr.inr => exact .inr (.inl ⟨rfl, rfl⟩)
    all_goals exact .inl ⟨by decide, by decide, _, rfl⟩
  · refine .inr (.inr ⟨hb, ?_⟩)
    unfold Conversion.ofByte
    split
    case h_10 | h_11 => exact ⟨_, rfl⟩
    all_goals
      rename_i hc
      exact absurd (eq_toUInt8 hc ▸ by decide) hb

theorem drop_argumentCount_of_value {b : UInt8} (hs : s.conversion = some b)
    (hb : b ∈ valueLetters) : args.drop s.argumentCount = (s.behindSizes args).tail := by
  rw [argumentCount, if_pos ⟨b, hs, hb⟩, behindSizes, behindWidth, ← List.drop_one, List.drop_drop,
    List.drop_drop]

theorem drop_argumentCount_of_plain (h : ∀ b ∈ s.conversion, b ∉ valueLetters) :
    args.drop s.argumentCount = s.behindSizes args := by
  rw [argumentCount, if_neg (fun ⟨b, hs, hb⟩ => h b hs hb), behindSizes, behindWidth,
    List.drop_drop, Nat.add_zero]

/-- A directive whose field is known fails only where it shows a text that cannot be read. -/
theorem convert_eq (f : Field) :
    match (s.textRequests args).findSome? (Request.fault? m) with
    | some e => s.convert m args f = .error e
    | none => ∃ text, s.convert m args f = .ok (text, args.drop s.argumentCount) := by
  cases hs : s.conversion with
  | none =>
    rw [drop_argumentCount_of_plain s args (by simp [hs])]
    simp [textRequests, convert, hs]
  | some b =>
    rcases ofByte_cases b with ⟨hb, hne, text, hof⟩ | ⟨rfl, hof⟩ | ⟨hb, text, hof⟩
    · rw [drop_argumentCount_of_value s args hs hb]
      simp only [textRequests, convert, hs, hof, Option.some.injEq, if_neg hne, List.findSome?_nil]
      exact ⟨_, rfl⟩
    · rw [drop_argumentCount_of_value s args hs (by decide)]
      simp only [textRequests, convert, hs, hof, if_true, List.findSome?_singleton,
        Request.fault?, Field.string]
      cases m.cstring ((s.behindSizes args).headD 0) with
      | error e => rfl
      | ok bytes => exact ⟨_, rfl⟩
    · have hne : b ≠ 's'.toUInt8 := by
        rintro rfl
        exact hb (by decide)
      rw [drop_argumentCount_of_plain s args (by simpa [hs] using hb)]
      simp only [textRequests, convert, hs, hof, Option.some.injEq, if_neg hne, List.findSome?_nil]
      exact ⟨_, rfl⟩

/-- A directive fails with the fault of the first request that is refused. If none is, it shows
something and takes as many arguments as its spelling says. -/
theorem render_spec :
    match (s.requests args).findSome? (Request.fault? m) with
    | some e => s.directive.render m args = .error e
    | none => ∃ text, s.directive.render m args = .ok (text, args.drop s.argumentCount) := by
  rw [render_eq, requests, List.findSome?_append]
  cases (sizesOf (s.field args)).findSome? (Request.fault? m) with
  | some e => rfl
  | none => exact s.convert_eq m args (s.field args)

end Spelling

/-! ## Rendering all pieces -/

/-- A piece behaves as its requests say, and takes as many arguments as it should. -/
theorem Piece.render_spec (m : Memory) (args : List Word) (p : Piece) :
    match (p.requests args).findSome? (Request.fault? m) with
    | some e => p.render m args = .error e
    | none => ∃ text, p.render m args = .ok (text, args.drop p.argumentCount) := by
  cases p with
  | plain b => exact ⟨[b], rfl⟩
  | directive s => exact s.render_spec m args

/-- Pieces fail with the fault of the first request that is refused. -/
theorem renderAll_eq_error_iff (m : Memory) (ps : List Piece) (args : List Word) (e : Fault) :
    renderAll m ps args = .error e ↔
      (requestsOf ps args).findSome? (Request.fault? m) = some e := by
  induction ps generalizing args with
  | nil => simp [renderAll, requestsOf]
  | cons p ps ih =>
    have hp := p.render_spec m args
    rw [renderAll, requestsOf, List.findSome?_append]
    cases hfault : (p.requests args).findSome? (Request.fault? m) with
    | some e' =>
      simp only [hfault] at hp
      simp [hp]
    | none =>
      simp only [hfault] at hp
      obtain ⟨text, hp⟩ := hp
      rw [hp, Option.none_or, ← ih]
      dsimp only
      cases renderAll m ps (args.drop p.argumentCount) <;> simp [Except.map]

/-- Pieces in a row are rendered one behind the other. -/
theorem renderAll_append (m : Memory) (ps qs : List Piece) (args : List Word) :
    renderAll m (ps ++ qs) args =
      match renderAll m ps args with
      | .error e => .error e
      | .ok text =>
        (renderAll m qs (args.drop (ps.map Piece.argumentCount).sum)).map (text ++ ·) := by
  induction ps generalizing args with
  | nil => cases h : renderAll m qs args <;> simp [renderAll, h, Except.map]
  | cons p ps ih =>
    have hp := p.render_spec m args
    rw [List.cons_append, renderAll, renderAll, List.map_cons, List.sum_cons, ← List.drop_drop]
    cases hfault : (p.requests args).findSome? (Request.fault? m) with
    | some e =>
      simp only [hfault] at hp
      rw [hp]
    | none =>
      simp only [hfault] at hp
      obtain ⟨text, hp⟩ := hp
      rw [hp]
      dsimp only
      rw [ih]
      cases renderAll m ps (args.drop p.argumentCount) with
      | error e => rfl
      | ok rest =>
        dsimp only [Except.map]
        cases renderAll m qs _ <;> simp

/-! ## Formats -/

/-- Two formats in a row, the first of which does not end inside a directive, are expanded one
behind the other. The second has the arguments that the directives of the first leave. -/
theorem format_append (m : Memory) (args : List Word) (first second : List UInt8)
    (h : isFinished first = true) :
    format m (first ++ second) args =
      match format m first args with
      | .error e => .error e
      | .ok text => (format m second (args.drop (argumentCount first))).map (text ++ ·) := by
  rw [format_eq, format_eq, format_eq, pieces_append h, renderAll_append]
  rfl

/-- A star in front of an unknown letter, a percent sign, a NUL and a text, behind which a number is
shown. -/
theorem format_append_mixed :
    let m : Memory := ⟨#[104, 105, 0], 0x10003, 0x10003, 0, [], []⟩
    let first := ['%', '-', '*', 'q', '%', '%', '\x00', '%', '.', '*', 'l', 's'].map Char.toUInt8
    let second := ['%', '+', 'd'].map Char.toUInt8
    isFinished first = true ∧ argumentCount first = 3 ∧
      format m (first ++ second) [9, 1, 0x10000, 7] =
        .ok (['%', 'q', '%', '\x00', 'h', '+', '7'].map Char.toUInt8) :=
  ⟨by cbv, by cbv, (format_append _ _ _ _ (by cbv)).trans (by cbv)⟩

theorem cstring_eq_error {m : Memory} {address : Word} {e : Fault}
    (h : m.cstring address = .error e) : ∃ length, e = .segfault address length := by
  rw [Memory.cstring_eq] at h
  split at h
  · exact ⟨_, (Except.error.inj h).symm⟩
  · split at h
    · cases h
    · exact ⟨_, (Except.error.inj h).symm⟩

namespace Request

/-- What is asked for is there: the size is not too large, or the text can be read. -/
def Granted (m : Memory) : Request → Prop
  | size n => n ≤ 2 ^ 20
  | text address => ∃ bytes, m.cstring address = .ok bytes

theorem fault?_eq_none_iff (m : Memory) (r : Request) : r.fault? m = none ↔ r.Granted m := by
  cases r with
  | size n =>
    have hmax : maxField = 2 ^ 20 := rfl
    simp only [fault?, Granted]
    split_ifs with hn
    · simp only [true_iff]
      omega
    · simp only [false_iff]
      omega
  | text address => cases h : m.cstring address <;> simp [fault?, Granted, h]

theorem fault?_eq_fieldTooWide_iff (m : Memory) (r : Request) (w : Nat) :
    r.fault? m = some (.fieldTooWide w) ↔ r = size w ∧ 2 ^ 20 < w := by
  cases r with
  | size n =>
    have hmax : maxField = 2 ^ 20 := rfl
    simp only [fault?]
    split_ifs with hn
    · simp only [size.injEq, false_iff]
      rintro ⟨rfl, hw⟩
      omega
    · simp only [Option.some.injEq, Fault.fieldTooWide.injEq, size.injEq]
      constructor
      · rintro rfl
        exact ⟨rfl, by omega⟩
      · exact fun h => h.1
  | text address =>
    simp only [fault?, reduceCtorEq, false_and, iff_false]
    cases h : m.cstring address with
    | ok bytes => simp
    | error e =>
      obtain ⟨length, rfl⟩ := cstring_eq_error h
      simp

end Request

/-- A format is made up of its pieces. It fails because a size is too large if and only if its
pieces, from left to right, ask for that size and for nothing before that is not there. -/
theorem format_eq_fieldTooWide_iff (m : Memory) (bytes : List UInt8) (args : List Word) (w : Nat) :
    (pieces bytes).flatMap Piece.bytes = bytes ∧
    (format m bytes args = .error (.fieldTooWide w) ↔
      ∃ before after, requestsOf (pieces bytes) args = before ++ .size w :: after ∧ 2 ^ 20 < w ∧
        ∀ r ∈ before, r.Granted m) := by
  refine ⟨bytes_pieces bytes, ?_⟩
  rw [format_eq, renderAll_eq_error_iff, List.findSome?_eq_some_iff]
  simp only [Request.fault?_eq_fieldTooWide_iff, Request.fault?_eq_none_iff]
  constructor
  · rintro ⟨before, r, after, hrequests, ⟨rfl, hw⟩, hbefore⟩
    exact ⟨before, after, hrequests, hw, hbefore⟩
  · rintro ⟨before, after, hrequests, hw, hbefore⟩
    exact ⟨before, .size w, after, hrequests, ⟨rfl, hw⟩, hbefore⟩

end MiniC.Format
