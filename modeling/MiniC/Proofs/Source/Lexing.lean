import MiniC.Proofs.Source.Language
import MiniC.Proofs.Syntax.Bindings

/-!
# Reading a printed text

The lexemes of a printed text are the tokens that were printed, in order, with the end behind them.
Only a name can fail to be read: that is so when the table of names is full (`lexemes_textOf`).
A token is read up to its end, which is the end of the text or a blank (`AtGap`).

A name is read as the number that it has in the table at the end, which is also the number that it
had when it was met, since the table only grows.
-/

namespace MiniC.Source

/-! ## Bytes -/

theorem encode_append (s t : String) : Utf8.encode (s ++ t) = Utf8.encode s ++ Utf8.encode t := by
  simp [Utf8.encode, String.toByteArray_append]

/-- The byte of a character below 128. -/
def byte (c : Char) : UInt8 := UInt8.ofNat c.toNat

theorem encode_ofList {cs : List Char} (h : ∀ c ∈ cs, c.toNat < 128) :
    Utf8.encode (String.ofList cs) = cs.map byte := by
  rw [Utf8.encode, String.toByteArray_ofList]
  induction cs with
  | nil => rfl
  | cons c cs ih =>
    have hc : c.toNat ≤ 127 := Nat.le_of_lt_succ (h c (by simp))
    have ih := ih fun c hc => h c (List.mem_cons_of_mem _ hc)
    rw [List.utf8Encode_cons, List.utf8Encode_singleton, String.utf8EncodeChar.eq_def]
    simp [hc, ih, byte]

theorem encode_eq {s : String} (h : ∀ c ∈ s.toList, c.toNat < 128) :
    Utf8.encode s = s.toList.map byte := by
  rw [← encode_ofList h, String.ofList_toList]

theorem ofUInt8_byte {c : Char} (h : c.toNat < 128) : Char.ofUInt8 (byte c) = c := by
  apply Char.toNat_inj.mp
  have hbyte : (Char.ofUInt8 (byte c)).toNat = (byte c).toNat := by
    simp [Char.ofUInt8, Char.toNat]
  rw [hbyte, byte, UInt8.toNat_ofNat', Nat.mod_eq_of_lt (by omega)]

theorem lt_of_isAlpha {c : Char} (h : c.isAlpha = true) : c.toNat < 128 := by
  simp only [Char.isAlpha, Char.isUpper, Char.isLower, Bool.or_eq_true, Bool.and_eq_true,
    decide_eq_true_eq] at h
  have hval : c.toNat = c.val.toNat := rfl
  rcases h with ⟨-, h⟩ | ⟨-, h⟩
  all_goals
    rw [hval]
    have := UInt32.le_iff_toNat_le.mp h
    simp at this
    omega

theorem lt_of_isDigit {c : Char} (h : c.isDigit = true) : c.toNat < 128 := by
  simp only [Char.isDigit, Bool.and_eq_true, decide_eq_true_eq] at h
  have hval : c.toNat = c.val.toNat := rfl
  rw [hval]
  have := UInt32.le_iff_toNat_le.mp h.2
  simp at this
  omega

/-! ## Blanks -/

/-- A byte that begins a token. -/
def isSolid (b : UInt8) (rest : List UInt8) : Bool :=
  b ≠ Byte.newline && b ≠ 0 && Char.ofUInt8 b ≠ '#' && !Byte.isBlank b &&
    !(Char.ofUInt8 b = '/' ∧ rest.head? = some '/'.toUInt8)

theorem skip_space (rest : List UInt8) (line : Nat) :
    Lexer.skip false (32 :: rest) line = Lexer.skip false rest line := by
  rw [Lexer.skip]
  rfl

theorem skip_solid {b : UInt8} {rest : List UInt8} (h : isSolid b rest = true) (line : Nat) :
    Lexer.skip false (b :: rest) line = (b :: rest, line) := by
  simp only [isSolid, Bool.and_eq_true, Bool.not_eq_true', decide_eq_true_eq,
    decide_eq_false_iff_not] at h
  obtain ⟨⟨⟨⟨h₁, h₂⟩, h₃⟩, h₄⟩, h₅⟩ := h
  rw [Lexer.skip, if_neg h₁, if_neg h₂, if_neg (by simp), if_neg h₃, if_neg h₅, h₄]
  rfl

/-- Bytes that may begin no token. -/
def unsolid : List UInt8 := [0, 9, 10, 12, 13, 32, 35, 47]

theorem isSolid_of_notMem {b : UInt8} (h : b ∉ unsolid) (rest : List UInt8) :
    isSolid b rest = true := by
  have hchar : ∀ c : Char, byte c ∈ unsolid → c.toNat < 128 → Char.ofUInt8 b ≠ c := by
    rintro c hc hlt hb
    have : byte (Char.ofUInt8 b) = b := by simp [byte, Char.ofUInt8, Char.toNat]
    rw [← hb, this] at hc
    exact h hc
  have hne : ∀ b' ∈ unsolid, b ≠ b' := fun b' hb' hb => h (hb ▸ hb')
  simp [isSolid, Byte.isBlank, hchar '#' (by decide) (by decide), hchar '/' (by decide) (by decide),
    hne 0 (by decide), hne 9 (by decide), hne 10 (by decide), hne 12 (by decide),
    hne 13 (by decide), hne 32 (by decide), Byte.newline]

/-- A byte of a class that holds none of the others begins a token. -/
theorem isSolid_of_class {p : UInt8 → Bool} {b : UInt8} (hp : ∀ b ∈ unsolid, p b = false)
    (h : p b = true) (rest : List UInt8) : isSolid b rest = true := by
  refine isSolid_of_notMem (fun hb => ?_) rest
  rw [hp b hb] at h
  exact absurd h (by decide)

theorem isLetter_unsolid : ∀ b ∈ unsolid, Byte.isLetter b = false := by
  intro b hb
  simp only [unsolid, List.mem_cons, List.not_mem_nil, or_false] at hb
  rcases hb with rfl | rfl | rfl | rfl | rfl | rfl | rfl | rfl <;> rfl

theorem isDigit_unsolid : ∀ b ∈ unsolid, Byte.isDigit b = false := by
  intro b hb
  simp only [unsolid, List.mem_cons, List.not_mem_nil, or_false] at hb
  rcases hb with rfl | rfl | rfl | rfl | rfl | rfl | rfl | rfl <;> rfl

/-- What may stand behind a token: nothing, or a blank. -/
def AtGap (tail : List UInt8) : Prop := ∀ b ∈ tail.head?, Byte.isBlank b = true

theorem atGap_space (tail : List UInt8) : AtGap (32 :: tail) := by
  rintro b ⟨⟩
  rfl

/-- A class of bytes without blanks ends where the token does. -/
theorem takeWhile_append {p : UInt8 → Bool} {bytes tail : List UInt8} (h : AtGap tail)
    (hp : ∀ b, Byte.isBlank b = true → p b = false) (hbytes : ∀ b ∈ bytes, p b = true) :
    (bytes ++ tail).takeWhile p = bytes ∧ (bytes ++ tail).dropWhile p = tail := by
  rw [List.takeWhile_append_of_pos hbytes, List.dropWhile_append_of_pos hbytes]
  cases tail with
  | nil => simp
  | cons b tail =>
    have hb : ¬p b = true := by simp [hp b (h b rfl)]
    rw [List.takeWhile_cons_of_neg hb, List.dropWhile_cons_of_neg hb]
    simp

/-- What holds of every blank. -/
theorem forall_isBlank {P : UInt8 → Prop} (h : ∀ b ∈ [32, 9, 10, 12, 13], P b) :
    ∀ b, Byte.isBlank b = true → P b := by
  intro b hb
  refine h b ?_
  simpa [Byte.isBlank, or_assoc] using hb

/-! ## Words -/

theorem Name.isWord (x : Name) : isWord x.text = true := by
  have h := x.isName
  rw [Source.isName, Bool.and_eq_true] at h
  exact h.1

theorem isWord_of_mem_spellings : ∀ entry ∈ Keyword.spellings, isWord entry.1 = true := by
  decide

theorem name_mem_spellings (k : Keyword) : (k.name, k) ∈ Keyword.spellings := by
  cases k <;> decide

theorem toList_of_isWord {text : String} (h : isWord text = true) :
    ∃ first rest, text.toList = first :: rest ∧ (first.isAlpha || first = '_') = true ∧
      ∀ c ∈ rest, (c.isAlpha || c = '_' || c.isDigit) = true := by
  unfold isWord at h
  split at h
  · simp at h
  · rename_i first rest htext
    rw [Bool.and_eq_true, List.all_eq_true] at h
    exact ⟨first, rest, htext, h⟩

theorem lt_of_isNameChar {c : Char} (h : (c.isAlpha || c = '_' || c.isDigit) = true) :
    c.toNat < 128 := by
  simp only [Bool.or_eq_true, decide_eq_true_eq] at h
  rcases h with (h | rfl) | h
  · exact lt_of_isAlpha h
  · decide
  · exact lt_of_isDigit h

theorem isNameByte_byte {c : Char} (h : (c.isAlpha || c = '_' || c.isDigit) = true) :
    Byte.isNameByte (byte c) = true := by
  simpa [Byte.isNameByte, Byte.isLetter, Byte.isDigit, ofUInt8_byte (lt_of_isNameChar h)] using h

theorem isLetter_byte {c : Char} (h : (c.isAlpha || c = '_') = true) :
    Byte.isLetter (byte c) = true := by
  have hlt : c.toNat < 128 := lt_of_isNameChar (by rw [h]; rfl)
  simpa [Byte.isLetter, ofUInt8_byte hlt] using h

theorem spelling_map_byte {cs : List Char} (h : ∀ c ∈ cs, c.toNat < 128) :
    Lexer.spelling (cs.map byte) = String.ofList cs := by
  rw [Lexer.spelling, List.map_map]
  congr 1
  conv_rhs => rw [← List.map_id cs]
  exact List.map_congr_left fun c hc => ofUInt8_byte (h c hc)

/-- A word is read up to its end, and looked up in the table. -/
theorem next_word {text : String} (h : isWord text = true) {tail : List UInt8} (hgap : AtGap tail)
    (line : Nat) (t : SymbolTable) :
    (∃ reason, t.intern text = .error reason ∧
      Lexer.next ⟨Utf8.encode text ++ tail, line, t⟩ = (.error reason, ⟨tail, line, t⟩)) ∨
    ∃ id t', t.intern text = .ok (id, t') ∧
      Lexer.next ⟨Utf8.encode text ++ tail, line, t⟩ =
        (.ok (Lexer.nameToken t' id), ⟨tail, line, t'⟩) := by
  obtain ⟨first, rest, htext, hfirst, hrest⟩ := toList_of_isWord h
  have hascii : ∀ c ∈ first :: rest, c.toNat < 128 := by
    intro c hc
    rcases List.mem_cons.mp hc with rfl | hc
    · exact lt_of_isNameChar (by rw [hfirst]; rfl)
    · exact lt_of_isNameChar (hrest c hc)
  have hname : ∀ b ∈ rest.map byte, Byte.isNameByte b = true := by
    intro b hb
    obtain ⟨c, hc, rfl⟩ := List.mem_map.mp hb
    exact isNameByte_byte (hrest c hc)
  obtain ⟨htake, hdrop⟩ := takeWhile_append hgap (forall_isBlank (by decide +kernel)) hname
  have hletter := isLetter_byte hfirst
  have hnul : byte first ≠ 0 := by
    intro h0
    rw [h0] at hletter
    exact absurd hletter (by decide)
  have hspelling : Lexer.spelling (byte first :: rest.map byte) = text := by
    rw [← List.map_cons, spelling_map_byte hascii, ← htext, String.ofList_toList]
  rw [encode_eq (by rw [htext]; exact hascii), htext, List.map_cons, List.cons_append]
  simp only [Lexer.next, skip_solid (isSolid_of_class isLetter_unsolid hletter _), if_neg hnul,
    if_pos hletter,
    htake, hdrop, hspelling]
  cases hi : t.intern text with
  | error reason => exact .inl ⟨reason, rfl, rfl⟩
  | ok r => exact .inr ⟨r.1, r.2, rfl, rfl⟩

/-! ## Numbers -/

theorem digitValue_byte {k : Nat} (h : k < 16) :
    Byte.digitValue (byte (Nat.digitChar k)) = k := by
  interval_cases k <;> decide

theorem valueOf_toDigits {radix : Nat} (hradix : 1 < radix) (hle : radix ≤ 16) (n : Nat) :
    Lexer.valueOf radix ((Nat.toDigits radix n).map byte) = Word.ofNat n := by
  induction n using Nat.strongRecOn with
  | ind n ih =>
    by_cases hn : n < radix
    · rw [Nat.toDigits_of_lt_base hn, Lexer.valueOf]
      simp [digitValue_byte (Nat.lt_of_lt_of_le hn hle)]
    · have hlast := digitValue_byte (Nat.lt_of_lt_of_le (Nat.mod_lt n (by omega)) hle)
      have hrest := ih (n / radix) (Nat.div_lt_self (by omega) hradix)
      rw [Lexer.valueOf] at hrest
      rw [Nat.toDigits_of_base_le hradix (Nat.le_of_not_lt hn), List.map_append, Lexer.valueOf,
        List.foldl_append, hrest, List.map_singleton, List.foldl_cons, List.foldl_nil, hlast,
        Word.ofNat, Word.ofNat, Word.ofNat, Word.ofNat, ← Int64.ofNat_mul, ← Int64.ofNat_add,
        Nat.div_add_mod']

/-- A number other than 0 does not begin with the digit 0. -/
theorem toDigits_eq_cons {n : Nat} (h : 0 < n) :
    ∃ first rest, Nat.toDigits 10 n = first :: rest ∧ first ≠ '0' := by
  induction n using Nat.strongRecOn with
  | ind n ih =>
    by_cases hn : n < 10
    · refine ⟨Nat.digitChar n, [], Nat.toDigits_of_lt_base hn, ?_⟩
      interval_cases n <;> decide
    · obtain ⟨first, rest, heq, hne⟩ := ih (n / 10) (by omega) (by omega)
      refine ⟨first, rest ++ [Nat.digitChar (n % 10)], ?_, hne⟩
      rw [Nat.toDigits_of_base_le (by decide) (by omega), heq, List.cons_append]

theorem isDigit_byte {c : Char} (h : c.isDigit = true) : Byte.isDigit (byte c) = true := by
  rw [Byte.isDigit, ofUInt8_byte (lt_of_isDigit h), h]

theorem isLetter_byte_of_isDigit {c : Char} (h : c.isDigit = true) :
    Byte.isLetter (byte c) = false := by
  rw [Byte.isLetter, ofUInt8_byte (lt_of_isDigit h)]
  simp only [Char.isDigit, Bool.and_eq_true, decide_eq_true_eq, ge_iff_le,
    UInt32.le_iff_toNat_le] at h
  have hne : c ≠ '_' := by
    rintro rfl
    exact absurd h.2 (by decide)
  simp [Char.isAlpha, Char.isUpper, Char.isLower, hne, UInt32.le_iff_toNat_le] at h ⊢
  omega

theorem number_zero {tail : List UInt8} (hgap : AtGap tail) :
    Lexer.number (byte '0') tail = (0, tail) := by
  cases tail with
  | nil => rfl
  | cons b tail =>
    refine forall_isBlank (P := fun b => Lexer.number (byte '0') (b :: tail) = (0, b :: tail)) ?_ b
      (hgap b rfl)
    simp only [List.forall_mem_cons]
    exact ⟨rfl, rfl, rfl, rfl, rfl, by simp⟩

/-- The digits of a number are read up to their end. -/
theorem number_toDigits {n : Nat} {first : Char} {rest : List Char}
    (h : Nat.toDigits 10 n = first :: rest) {tail : List UInt8} (hgap : AtGap tail) :
    Lexer.number (byte first) (rest.map byte ++ tail) = (Word.ofNat n, tail) := by
  have hdigit : ∀ c ∈ first :: rest, c.isDigit = true := fun c hc =>
    Nat.isDigit_of_mem_toDigits (by decide) (by decide) (h ▸ hc)
  have hbytes : ∀ b ∈ rest.map byte, Byte.isDigit b = true := by
    intro b hb
    obtain ⟨c, hc, rfl⟩ := List.mem_map.mp hb
    exact isDigit_byte (hdigit c (List.mem_cons_of_mem _ hc))
  rcases Nat.eq_zero_or_pos n with rfl | hn
  · obtain ⟨rfl, rfl⟩ : first = '0' ∧ rest = [] := by simpa using h.symm
    exact number_zero hgap
  · obtain ⟨first', rest', heq, hne⟩ := toDigits_eq_cons hn
    obtain ⟨rfl, rfl⟩ : first = first' ∧ rest = rest' := by simpa [h] using heq
    obtain ⟨htake, hdrop⟩ := takeWhile_append hgap (forall_isBlank (by decide +kernel)) hbytes
    unfold Lexer.number
    rw [ofUInt8_byte (lt_of_isDigit (hdigit first (by simp))), if_neg hne, htake, hdrop,
      ← List.map_cons, ← h, valueOf_toDigits (by decide) (by decide)]

theorem next_digit {c : Char} (hc : c.isDigit = true) {rest rest' : List UInt8} {value : Word}
    (h : Lexer.number (byte c) rest = (value, rest')) (line : Nat) (t : SymbolTable) :
    Lexer.next ⟨byte c :: rest, line, t⟩ = (.ok (.number value), ⟨rest', line, t⟩) := by
  have hdigit := isDigit_byte hc
  have hletter := isLetter_byte_of_isDigit hc
  have hnul : byte c ≠ 0 := by
    intro h0
    rw [h0] at hdigit
    exact absurd hdigit (by decide)
  simp only [Lexer.next, skip_solid (isSolid_of_class isDigit_unsolid hdigit _), if_neg hnul,
    hletter, hdigit, h, if_true, Bool.false_eq_true, if_false]

theorem next_number (n : Nat) {tail : List UInt8} (hgap : AtGap tail) (line : Nat)
    (t : SymbolTable) :
    Lexer.next ⟨Utf8.encode n.repr ++ tail, line, t⟩ =
      (.ok (.number (Word.ofNat n)), ⟨tail, line, t⟩) := by
  obtain ⟨first, rest, hdigits⟩ :=
    List.exists_cons_of_ne_nil (Nat.toDigits_ne_nil (b := 10) (n := n))
  have hdigit : ∀ c ∈ first :: rest, c.isDigit = true := fun c hc =>
    Nat.isDigit_of_mem_toDigits (by decide) (by decide) (hdigits ▸ hc)
  rw [Nat.repr_eq_ofList_toDigits, hdigits, encode_ofList fun c hc => lt_of_isDigit (hdigit c hc),
    List.map_cons, List.cons_append]
  exact next_digit (hdigit first (by simp)) (number_toDigits hdigits hgap) line t

/-! ## Operators and delimiters -/

theorem next_operator {b : UInt8} {rest rest' : List UInt8} {token : Token} {line : Nat}
    {t : SymbolTable} (hsolid : isSolid b rest = true)
    (hclass : b ≠ 0 ∧ Byte.isLetter b = false ∧ Byte.isDigit b = false ∧ Char.ofUInt8 b ≠ '"' ∧
      Char.ofUInt8 b ≠ '\'')
    (h : Lexer.operator b rest = (token, rest')) :
    Lexer.next ⟨b :: rest, line, t⟩ = (.ok token, ⟨rest', line, t⟩) := by
  obtain ⟨h₁, h₂, h₃, h₄, h₅⟩ := hclass
  simp only [Lexer.next, skip_solid hsolid, if_neg h₁, h₂, h₃, if_neg h₄, if_neg h₅, h,
    Bool.false_eq_true, if_false]

/-- No operator of two bytes ends in a blank. -/
theorem operator_of_atGap (b : UInt8) {tail : List UInt8} (hgap : AtGap tail) :
    Lexer.operator b tail = ((Lexer.single? (Char.ofUInt8 b)).getD (.illegal b), tail) := by
  have hpair : ∀ second ∈ tail.head?,
      Lexer.pair? (Char.ofUInt8 b) (Char.ofUInt8 second) = none := by
    intro second hsecond
    refine forall_isBlank (P := fun s => Lexer.pair? (Char.ofUInt8 b) (Char.ofUInt8 s) = none) ?_
      second (hgap second hsecond)
    have hblank : ∀ s ∈ ([32, 9, 10, 12, 13] : List UInt8),
        Char.ofUInt8 s ∉ ['=', '+', '-', '<', '>', '|', '&'] := by decide +kernel
    intro s hs
    have := hblank s hs
    unfold Lexer.pair?
    split <;> simp_all
  have hbind : (tail.head?.bind fun second =>
      Lexer.pair? (Char.ofUInt8 b) (Char.ofUInt8 second)) = none :=
    Option.bind_eq_none_iff.mpr hpair
  rw [Lexer.operator, hbind]

theorem next_mark {token : Token} (h : isMark token = true) {tail : List UInt8} (hgap : AtGap tail)
    (line : Nat) (t : SymbolTable) :
    Lexer.next ⟨Utf8.encode token.text ++ tail, line, t⟩ = (.ok token, ⟨tail, line, t⟩) := by
  have hslash : ¬tail.head? = some '/'.toUInt8 := fun h => absurd (hgap _ h) (by decide)
  have key : ∃ b rest, Utf8.encode token.text = b :: rest ∧
      isSolid b (rest ++ tail) = true ∧
      (b ≠ 0 ∧ Byte.isLetter b = false ∧ Byte.isDigit b = false ∧ Char.ofUInt8 b ≠ '"' ∧
        Char.ofUInt8 b ≠ '\'') ∧
      Lexer.operator b (rest ++ tail) = (token, tail) := by
    cases token with
    | eof | illegal byte | ident id | number value | string bytes | keyword k => simp [isMark] at h
    | binary op =>
      cases op with
      | div =>
        refine ⟨_, [], rfl, ?_, by decide, operator_of_atGap _ hgap⟩
        simp [isSolid, hslash]
        decide
      | _ => first
        | exact ⟨_, [], rfl, rfl, by decide, operator_of_atGap _ hgap⟩
        | exact ⟨_, [_], rfl, rfl, by decide, rfl⟩
    | _ => first
      | exact ⟨_, [], rfl, rfl, by decide, operator_of_atGap _ hgap⟩
      | exact ⟨_, [_], rfl, rfl, by decide, rfl⟩
  obtain ⟨b, rest, htext, hsolid, hclass, hop⟩ := key
  rw [htext]
  exact next_operator hsolid hclass hop

/-! ## Tokens -/

/-- The number of a name in a table. -/
def idOf (t : SymbolTable) (x : Name) : SymbolId := (t.lookup x.text).getD 0

/-- The token that is read for a printed one. -/
def Lex.token (t : SymbolTable) : Lex → Token
  | name x => .ident (idOf t x)
  | number n => .number (Word.ofNat n)
  | keyword k => .keyword k
  | mark token _ => token

/-- A name is in the table. -/
def Lex.Found (t : SymbolTable) : Lex → Prop
  | name x => (t.lookup x.text).isSome = true
  | _ => True

variable {t t' : SymbolTable} {id : SymbolId}

theorem idOf_eq {x : Name} (h : t.lookup x.text = some id) : idOf t x = id := by
  rw [idOf, h, Option.getD_some]

theorem nameToken_name (hf : t.Fresh) {x : Name} (h : t.lookup x.text = some id) :
    Lexer.nameToken t id = .ident id := by
  obtain ⟨s, hs, hname, hbinding⟩ := SymbolTable.binding_of_lookup hf h
  have hkind : ∀ k, s.binding.kind ≠ .keyword k := by
    intro k hk
    rcases hf.unbound s hs with hb | hb
    · simp only [SymbolTable.builtinSymbols, SymbolTable.keywordSymbols,
        SymbolTable.serviceSymbols, List.mem_append, List.mem_map, List.mem_singleton] at hb
      rcases hb with (⟨⟨text, k'⟩, hmem, rfl⟩ | ⟨service, -, rfl⟩) | rfl
      · have hx := x.isName
        rw [Source.isName, Bool.and_eq_true, List.all_eq_true] at hx
        have := hx.2 _ hmem
        simp only [ne_eq, decide_not, Bool.not_eq_true', decide_eq_false_iff_not] at this
        exact this hname
      · simp at hk
      · simp [Binding.unbound] at hk
    · rw [hb] at hk
      simp [Binding.unbound] at hk
  rw [Lexer.nameToken, hbinding]
  split
  · rename_i k hk
    exact absurd hk (hkind k)
  · rfl

theorem nameToken_keyword (hf : t.Fresh) {word : String} {k : Keyword}
    (hword : (word, k) ∈ Keyword.spellings) (h : t.lookup word = some id) :
    Lexer.nameToken t id = .keyword k := by
  have key : ∀ entry ∈ Keyword.spellings,
      (SymbolTable.builtinSymbols.findIdx? (·.name == entry.1)).bind
        (SymbolTable.builtinSymbols[·]?) = some ⟨entry.1, ⟨.keyword entry.2, .char, 0⟩⟩ := by
    decide
  obtain ⟨i, hi, hs⟩ := Option.bind_eq_some_iff.mp (key _ hword)
  obtain rfl : i = id := Option.some.inj ((SymbolTable.lookup_of_builtin hf hi).symm.trans h)
  obtain ⟨hlt, -⟩ := List.getElem?_eq_some_iff.mp hs
  have hget : t.symbols[i]? = some ⟨word, ⟨.keyword k, .char, 0⟩⟩ := by
    obtain ⟨rest, hrest⟩ := hf.builtin_le
    rw [← Array.getElem?_toList, ← hrest, List.getElem?_append_left hlt, hs]
  simp [Lexer.nameToken, SymbolTable.binding, hf.scopes_eq, SymbolTable.fileBinding, hget]

theorem idOf_main (hf : t.Fresh) : idOf t .main = SymbolTable.entry :=
  idOf_eq (SymbolTable.lookup_of_builtin hf (by decide))

/-- What is read for a printed token stays right as the table grows. -/
theorem Lex.token_mono (hf : t.Fresh) (hf' : t'.Fresh)
    (hgrow : t.symbols.toList <+: t'.symbols.toList) {l : Lex} (hl : l.Found t) :
    l.Found t' ∧ l.token t' = l.token t := by
  cases l with
  | name x =>
    obtain ⟨id, hid⟩ := Option.isSome_iff_exists.mp hl
    have hid' := SymbolTable.lookup_mono hf.indexed hf'.indexed hgrow hid
    exact ⟨Option.isSome_of_eq_some hid', by rw [token, token, idOf_eq hid, idOf_eq hid']⟩
  | _ => exact ⟨trivial, rfl⟩

/-- A lexeme is the token that was printed, or a name for which there was no room. -/
def Reads (t : SymbolTable) (l : Lex) (token : Except Reason Token) : Prop :=
  (token = .ok (l.token t) ∧ l.Found t) ∨ ∃ reason, token = .error reason

/-- Reading one printed token. -/
theorem next_lex (hf : t.Fresh) (l : Lex) (tail : List UInt8) (line : Nat) :
    ∃ token t', Lexer.next ⟨Utf8.encode l.text ++ 32 :: tail, line, t⟩ =
        (token, ⟨32 :: tail, line, t'⟩) ∧
      t'.Fresh ∧ t.symbols.toList <+: t'.symbols.toList ∧ Reads t' l token := by
  have hgap := atGap_space tail
  cases l with
  | number n =>
    exact ⟨_, t, next_number n hgap line t, hf, List.prefix_refl _, .inl ⟨rfl, trivial⟩⟩
  | mark token h =>
    exact ⟨_, t, next_mark h hgap line t, hf, List.prefix_refl _, .inl ⟨rfl, trivial⟩⟩
  | keyword k =>
    have hword := name_mem_spellings k
    rcases next_word (isWord_of_mem_spellings _ hword) hgap line t with
      ⟨reason, -, h⟩ | ⟨id, t', hi, h⟩
    · exact ⟨_, t, h, hf, List.prefix_refl _, .inr ⟨reason, rfl⟩⟩
    · obtain ⟨hid, hgrow, hf'⟩ := SymbolTable.intern_ok hi hf
      rw [nameToken_keyword hf' hword hid] at h
      exact ⟨_, t', h, hf', hgrow, .inl ⟨rfl, trivial⟩⟩
  | name x =>
    rcases next_word x.isWord hgap line t with ⟨reason, -, h⟩ | ⟨id, t', hi, h⟩
    · exact ⟨_, t, h, hf, List.prefix_refl _, .inr ⟨reason, rfl⟩⟩
    · obtain ⟨hid, hgrow, hf'⟩ := SymbolTable.intern_ok hi hf
      rw [nameToken_name hf' hid] at h
      exact ⟨_, t', h, hf', hgrow,
        .inl ⟨by rw [Lex.token, idOf_eq hid], Option.isSome_of_eq_some hid⟩⟩

/-! ## The whole text -/

/-- Lexemes that are read for printed tokens, in front of others. -/
def Follows (t : SymbolTable) (others : List Lexeme) : List Lex → List Lexeme → Prop
  | [], lexemes => lexemes = others
  | _ :: _, [] => False
  | l :: ls, lexeme :: lexemes => Reads t l lexeme.token ∧ Follows t others ls lexemes

theorem Reads.mono {l : Lex} {token : Except Reason Token} (h : Reads t l token) (hf : t.Fresh)
    (hf' : t'.Fresh) (hgrow : t.symbols.toList <+: t'.symbols.toList) : Reads t' l token := by
  rcases h with ⟨rfl, hfound⟩ | herror
  · obtain ⟨hfound', heq⟩ := Lex.token_mono hf hf' hgrow hfound
    exact .inl ⟨by rw [heq], hfound'⟩
  · exact .inr herror

/-- Tokens with a space behind each. -/
def bytesOf (ls : List Lex) : List UInt8 := ls.flatMap fun l => Utf8.encode l.text ++ [32]

theorem bytesOf_cons (l : Lex) (ls : List Lex) :
    bytesOf (l :: ls) = Utf8.encode l.text ++ 32 :: bytesOf ls := by
  rw [bytesOf, List.flatMap_cons, List.append_assoc, List.singleton_append, ← bytesOf]

theorem encode_textOf (ls : List Lex) (l : Lex) :
    Utf8.encode (textOf (ls ++ [l])) = bytesOf ls ++ Utf8.encode l.text := by
  induction ls with
  | nil => rfl
  | cons l' ls ih =>
    have hcons : textOf (l' :: ls ++ [l]) = l'.text ++ " " ++ textOf (ls ++ [l]) := by
      cases ls <;> rfl
    have hspace : Utf8.encode " " = [32] := rfl
    rw [hcons, encode_append, encode_append, ih, hspace, bytesOf_cons, List.append_assoc,
      List.singleton_append, List.append_assoc, List.cons_append]

theorem length_le_bytesOf (ls : List Lex) : ls.length ≤ (bytesOf ls).length := by
  induction ls with
  | nil => simp
  | cons l ls ih =>
    rw [bytesOf_cons]
    simp
    omega

theorem Lex.token_ne_eof (l : Lex) : l.token t ≠ .eof := by
  cases l with
  | mark token h =>
    rintro rfl
    simp [isMark] at h
  | _ => simp [token]

theorem Reads.ne_eof {l : Lex} {token : Except Reason Token} (h : Reads t l token) :
    token ≠ .ok .eof := by
  rintro rfl
  rcases h with ⟨heq, -⟩ | ⟨reason, heq⟩
  · exact l.token_ne_eof (Except.ok.inj heq).symm
  · simp at heq

theorem next_space (rest : List UInt8) (line : Nat) (t : SymbolTable) :
    Lexer.next ⟨32 :: rest, line, t⟩ = Lexer.next ⟨rest, line, t⟩ := by
  simp only [Lexer.next, skip_space]

theorem collect_space (fuel : Nat) (rest : List UInt8) (line : Nat) (t : SymbolTable)
    (read : List Lexeme) :
    Lexer.collect fuel ⟨32 :: rest, line, t⟩ read = Lexer.collect fuel ⟨rest, line, t⟩ read := by
  cases fuel with
  | zero => rfl
  | succ fuel => rw [Lexer.collect, Lexer.collect, next_space]

theorem collect_succ {lx lx' : Lexer} {token : Except Reason Token} (fuel : Nat)
    (read : List Lexeme) (h : lx.next = (token, lx')) (hne : token ≠ .ok .eof) :
    Lexer.collect (fuel + 1) lx read = Lexer.collect fuel lx' (⟨lx'.line, token⟩ :: read) := by
  rw [Lexer.collect, h]
  split
  · rename_i heq
    exact absurd (Prod.mk.inj heq).1 hne
  · rename_i heq
    obtain ⟨rfl, rfl⟩ := Prod.mk.inj heq
    rfl

theorem Follows.append {others more : List Lexeme} {ls ls' : List Lex} :
    ∀ {lexemes : List Lexeme}, Follows t [] ls lexemes → Follows t others ls' more →
      Follows t others (ls ++ ls') (lexemes ++ more) := by
  induction ls with
  | nil =>
    rintro _ rfl h'
    exact h'
  | cons l ls ih =>
    intro lexemes h h'
    cases lexemes with
    | nil => exact h.elim
    | cons lexeme lexemes => exact ⟨h.1, ih h.2 h'⟩

theorem Follows.mono {others : List Lexeme} {ls : List Lex} (hf : t.Fresh) (hf' : t'.Fresh)
    (hgrow : t.symbols.toList <+: t'.symbols.toList) :
    ∀ {lexemes : List Lexeme}, Follows t others ls lexemes → Follows t' others ls lexemes := by
  induction ls with
  | nil => exact fun h => h
  | cons l ls ih =>
    intro lexemes h
    cases lexemes with
    | nil => exact h.elim
    | cons lexeme lexemes => exact ⟨h.1.mono hf hf' hgrow, ih h.2⟩

theorem collect_bytesOf {ls : List Lex} : ∀ {t : SymbolTable} (fuel line : Nat)
    (read : List Lexeme) (tail : List UInt8), t.Fresh → ∃ lexemes t',
      Lexer.collect (ls.length + fuel) ⟨bytesOf ls ++ tail, line, t⟩ read =
        Lexer.collect fuel ⟨tail, line, t'⟩ (lexemes.reverse ++ read) ∧
      t'.Fresh ∧ t.symbols.toList <+: t'.symbols.toList ∧ Follows t' [] ls lexemes := by
  induction ls with
  | nil =>
    intro t fuel line read tail hf
    exact ⟨[], t, by simp [bytesOf], hf, List.prefix_refl _, rfl⟩
  | cons l ls ih =>
    intro t fuel line read tail hf
    obtain ⟨token, t₁, hnext, hf₁, hgrow₁, hreads⟩ := next_lex hf l (bytesOf ls ++ tail) line
    obtain ⟨lexemes, t', hcollect, hf', hgrow, hfollows⟩ :=
      ih fuel line (⟨line, token⟩ :: read) tail hf₁
    refine ⟨⟨line, token⟩ :: lexemes, t', ?_, hf', hgrow₁.trans hgrow,
      hreads.mono hf₁ hf' hgrow, hfollows⟩
    rw [bytesOf_cons, List.length_cons, Nat.add_right_comm, List.append_assoc, List.cons_append,
      collect_succ _ read hnext hreads.ne_eof, collect_space, hcollect]
    simp

/-- Marks that are read alike whatever is behind them. -/
theorem next_closing {token : Token} (h : token = .semicolon ∨ token = .rightBrace)
    (tail : List UInt8) (line : Nat) (t : SymbolTable) :
    Lexer.next ⟨Utf8.encode token.text ++ tail, line, t⟩ = (.ok token, ⟨tail, line, t⟩) := by
  have key : ∃ b, Utf8.encode token.text = [b] ∧ isSolid b tail = true ∧
      (b ≠ 0 ∧ Byte.isLetter b = false ∧ Byte.isDigit b = false ∧ Char.ofUInt8 b ≠ '"' ∧
        Char.ofUInt8 b ≠ '\'') ∧ Lexer.operator b tail = (token, tail) := by
    rcases h with rfl | rfl
    all_goals
      refine ⟨_, rfl, rfl, by decide, ?_⟩
      cases tail <;> rfl
  obtain ⟨b, htext, hsolid, hclass, hop⟩ := key
  rw [htext]
  exact next_operator hsolid hclass hop

/-- What was read before stays in front. -/
theorem collect_eq_append (fuel : Nat) (lx : Lexer) (read : List Lexeme) :
    Lexer.collect fuel lx read =
      (read.reverse ++ (Lexer.collect fuel lx []).1, (Lexer.collect fuel lx []).2) := by
  induction fuel generalizing lx read with
  | zero => simp [Lexer.collect]
  | succ fuel ih =>
    rw [Lexer.collect, Lexer.collect]
    split
    · simp
    · rw [ih, ih _ [_]]
      simp

theorem collect_ne_nil (fuel : Nat) (lx : Lexer) : (Lexer.collect (fuel + 1) lx []).1 ≠ [] := by
  rw [Lexer.collect]
  split
  · simp
  · rw [collect_eq_append]
    simp

theorem collect_grows (fuel : Nat) (lx : Lexer) (read : List Lexeme) (h : lx.symbols.Fresh) :
    lx.symbols.symbols.toList <+: (Lexer.collect fuel lx read).2.symbols.toList := by
  induction fuel generalizing lx read with
  | zero => exact List.prefix_refl _
  | succ fuel ih =>
    have hnext := Lexer.next_fresh h
    have hgrow : lx.symbols.symbols.toList <+: lx.next.2.symbols.symbols.toList := by
      rcases lx.next_symbols with heq | ⟨name, id, hintern⟩
      · rw [heq]
      · exact (SymbolTable.intern_ok hintern h).2.1
    rw [Lexer.collect]
    split
    · rename_i heq
      rwa [heq] at hgrow
    · rename_i heq
      rw [heq] at hgrow hnext
      exact hgrow.trans (ih _ _ hnext)

/-- The lexemes of a printed text with other bytes behind it. -/
theorem lexemes_textOf (hf : t.Fresh) (ls : List Lex) {token : Token} (hmark : isMark token = true)
    (hclosing : token = .semicolon ∨ token = .rightBrace) (tail : List UInt8) (line : Nat) :
    ∃ first more lexemes t',
      Lexer.lexemes ⟨Utf8.encode (textOf (ls ++ [.mark token hmark])) ++ tail, line, t⟩ =
        (lexemes, t') ∧ t'.Fresh ∧
      Follows t' (first :: more) (ls ++ [.mark token hmark]) lexemes ∧
      (tail = [] → first :: more = [⟨line, .ok .eof⟩]) := by
  obtain ⟨fuel, hfuel⟩ : ∃ fuel, (Utf8.encode (textOf (ls ++ [.mark token hmark])) ++ tail).length +
      1 = ls.length + (fuel + 1 + 1) := by
    have hle := length_le_bytesOf ls
    have hpos : 0 < (Utf8.encode token.text).length := by rcases hclosing with rfl | rfl <;> decide
    refine ⟨(Utf8.encode (textOf (ls ++ [.mark token hmark])) ++ tail).length - ls.length - 1, ?_⟩
    rw [encode_textOf, List.length_append, List.length_append, Lex.text]
    omega
  obtain ⟨lexemes, t₁, hcollect, hf₁, -, hfollows⟩ :=
    collect_bytesOf (fuel + 1 + 1) line [] (Utf8.encode token.text ++ tail) hf
  have hnext := next_closing hclosing tail line t₁
  have hne : (Except.ok token : Except Reason Token) ≠ .ok .eof := by
    rcases hclosing with rfl | rfl <;> simp
  obtain ⟨first, more, hothers⟩ := List.exists_cons_of_ne_nil (collect_ne_nil fuel ⟨tail, line, t₁⟩)
  have hf₂ : (Lexer.collect (fuel + 1) ⟨tail, line, t₁⟩ []).2.Fresh := Lexer.collect_fresh hf₁
  refine ⟨first, more, lexemes ++ ⟨line, .ok token⟩ :: first :: more, _, ?_, hf₂, ?_, ?_⟩
  · rw [Lexer.lexemes, hfuel, encode_textOf, List.append_assoc, Lex.text, hcollect,
      collect_succ _ _ hnext hne, collect_eq_append, hothers]
    simp
  · have hgrow := collect_grows (fuel + 1) ⟨tail, line, t₁⟩ [] hf₁
    exact (hfollows.mono hf₁ hf₂ hgrow).append ⟨.inl ⟨rfl, trivial⟩, rfl⟩
  · rintro rfl
    rw [← hothers]
    rfl

end MiniC.Source
