import MiniC.Proofs.Source.Lexing

/-!
# Reading what was spelled

A token can be written in several ways: a number in three radices, a keyword by each of its words,
and a string with a byte raw or escaped. A `Spelling` is one such way, of which every token has one
(`Spelling.exists_token_eq`), and a `Separator` is what may stand between two of them. Reading the
text that they make up yields the tokens again, and then the end for good (`next_iterate_join`).

A spelling is read up to its own end, whatever the separator behind it is, because nothing in a
token goes on with a blank (`AtGap`). The run needs room for the names that are met: as long as they
are among a list of names that the table can hold, no name fails to be entered (`Roomy`).
-/

namespace MiniC.Source

/-! ## Spellings -/

/-- The bytes that are written with a backslash, each with the character behind it. -/
def escapes : List (UInt8 × Char) :=
  [(0, '0'), (34, '"'), (92, '\\'), (10, 'n'), (9, 't'), (13, 'r')]

/-- One byte of a string, as it is or escaped. The end of the source, the closing quote and the
backslash cannot stand for themselves. -/
inductive StringPart where
  | raw (b : UInt8) (isPlain : b ≠ 0 ∧ b ≠ byte '"' ∧ b ≠ byte '\\')
  | escaped (b : UInt8) (c : Char) (isEscape : (b, c) ∈ escapes)

def StringPart.bytes : StringPart → List UInt8
  | raw b _ => [b]
  | escaped _ c _ => [byte '\\', byte c]

def StringPart.value : StringPart → UInt8
  | raw b _ => b
  | escaped b _ _ => b

/-- The characters that begin an operator, a delimiter, a literal or a comment. -/
def openers : List Char := "=+-!<>|&^%*/[?~;:,()]\x7b\x7d\"'#".toList

/-- A byte that is neither the end nor a blank, and begins nothing else. -/
def isStray (b : UInt8) : Bool :=
  b ≠ 0 && !Byte.isBlank b && !Byte.isLetter b && !Byte.isDigit b && Char.ofUInt8 b ∉ openers

/-- One way to write a token. -/
inductive Spelling where
  | mark (token : Token) (isMark : isMark token = true)
  | keyword (word : String) (k : Keyword) (isKeyword : (word, k) ∈ Keyword.spellings)
  | name (x : Name)
  | decimal (n : Nat)
  | octal (n : Nat)
  /-- Digits and the letter in front of them, in either case each. -/
  | hex (n : Nat) (x : Char) (digits : List Char) (isX : x ∈ ['x', 'X'])
      (isDigits : digits.map Char.toLower = Nat.toDigits 16 n)
  | string (parts : List StringPart)
  | stray (b : UInt8) (isStray : isStray b = true)

namespace Spelling

def bytes : Spelling → List UInt8
  | mark token _ => Utf8.encode token.text
  | keyword word _ _ => Utf8.encode word
  | name x => Utf8.encode x.text
  | decimal n => Utf8.encode n.repr
  | octal n => byte '0' :: (Nat.toDigits 8 n).map byte
  | hex _ x digits _ _ => byte '0' :: byte x :: digits.map byte
  | string parts => byte '"' :: (parts.flatMap StringPart.bytes ++ [byte '"'])
  | stray b _ => [b]

/-- The token that is written, with names numbered by the table. -/
def token (t : SymbolTable) : Spelling → Token
  | mark token _ => token
  | keyword _ k _ => .keyword k
  | name x => .ident (idOf t x)
  | decimal n | octal n | hex n _ _ _ _ => .number (Word.ofNat n)
  | string parts => .string (parts.map StringPart.value)
  | stray b _ => .illegal b

/-- The name that is written, if it is one. -/
def name? : Spelling → Option String
  | name x => some x.text
  | _ => none

end Spelling

theorem StringPart.value_surjective : Function.Surjective StringPart.value := by
  intro b
  by_cases h : b ≠ 0 ∧ b ≠ byte '"' ∧ b ≠ byte '\\'
  · exact ⟨raw b h, rfl⟩
  · have hb : b = 0 ∨ b = byte '"' ∨ b = byte '\\' := by tauto
    rcases hb with rfl | rfl | rfl
    · exact ⟨escaped 0 '0' (by decide), rfl⟩
    · exact ⟨escaped (byte '"') '"' (by decide), rfl⟩
    · exact ⟨escaped (byte '\\') '\\' (by decide), rfl⟩

/-- Every token can be written, apart from the end, numbers that no name has, and bytes that begin
something else. -/
theorem Spelling.exists_token_eq (t : SymbolTable) {token : Token} (heof : token ≠ .eof)
    (hident : ∀ id, token = .ident id → ∃ x : Name, t.lookup x.text = some id)
    (hillegal : ∀ b, token = .illegal b → isStray b = true) :
    ∃ s : Spelling, s.token t = token := by
  cases token with
  | eof => exact absurd rfl heof
  | illegal b => exact ⟨stray b (hillegal b rfl), rfl⟩
  | ident id =>
    obtain ⟨x, hx⟩ := hident id rfl
    exact ⟨name x, by rw [Spelling.token, idOf_eq hx]⟩
  | number value =>
    refine ⟨decimal value.toBitVec.toNat, ?_⟩
    rw [Spelling.token, Word.ofNat]
    congr 1
    apply Int64.toBitVec_inj.mp
    simp
  | string bytes =>
    obtain ⟨parts, rfl⟩ := StringPart.value_surjective.list_map bytes
    exact ⟨string parts, rfl⟩
  | keyword k => exact ⟨keyword k.name k (name_mem_spellings k), rfl⟩
  | _ => exact ⟨mark _ rfl, rfl⟩

/-! ## Separators -/

/-- A blank, or a comment up to the end of its line. -/
inductive Filler where
  | blank (b : UInt8) (isBlank : Byte.isBlank b = true)
  | comment (opening : String) (isOpening : opening ∈ ["//", "#"]) (body : List UInt8)
      (isBody : ∀ b ∈ body, b ≠ 0 ∧ b ≠ Byte.newline)

def Filler.bytes : Filler → List UInt8
  | blank b _ => [b]
  | comment opening _ body _ => Utf8.encode opening ++ body ++ [Byte.newline]

/-- What stands between two tokens. It begins with a blank, so a comment in it has one in front. -/
structure Separator where
  first : UInt8
  isBlank : Byte.isBlank first = true
  more : List Filler

def Separator.bytes (s : Separator) : List UInt8 := s.first :: s.more.flatMap Filler.bytes

/-- Spellings with the separators between them. The one behind the last spelling is left out. -/
def join : List (Spelling × Separator) → List UInt8
  | [] => []
  | [(s, _)] => s.bytes
  | (s, separator) :: rest => s.bytes ++ (separator.bytes ++ join rest)

/-! ## Skipping a separator -/

theorem skip_blank {b : UInt8} (h : Byte.isBlank b = true) (rest : List UInt8) (line : Nat) :
    ∃ line', Lexer.skip false (b :: rest) line = Lexer.skip false rest line' := by
  refine forall_isBlank
    (P := fun b => ∃ line', Lexer.skip false (b :: rest) line = Lexer.skip false rest line') ?_ b h
  simp only [List.forall_mem_cons]
  refine ⟨⟨line, ?_⟩, ⟨line, ?_⟩, ⟨line + 1, ?_⟩, ⟨line, ?_⟩, ⟨line, ?_⟩, by simp⟩
  all_goals
    rw [Lexer.skip]
    rfl

theorem skip_body {body : List UInt8} (h : ∀ b ∈ body, b ≠ 0 ∧ b ≠ Byte.newline)
    (rest : List UInt8) (line : Nat) :
    Lexer.skip true (body ++ Byte.newline :: rest) line = Lexer.skip false rest (line + 1) := by
  induction body with
  | nil => rw [List.nil_append, Lexer.skip, if_pos rfl]
  | cons b body ih =>
    obtain ⟨hnul, hnewline⟩ := h b (by simp)
    rw [List.cons_append, Lexer.skip, if_neg hnewline, if_neg hnul, if_pos rfl]
    exact ih fun b hb => h b (List.mem_cons_of_mem _ hb)

theorem skip_filler (f : Filler) (rest : List UInt8) (line : Nat) :
    ∃ line', Lexer.skip false (f.bytes ++ rest) line = Lexer.skip false rest line' := by
  cases f with
  | blank b h => exact skip_blank h rest line
  | comment opening hopening body hbody =>
    refine ⟨line + 1, ?_⟩
    have hskip : Lexer.skip false (Utf8.encode opening ++ (body ++ Byte.newline :: rest)) line =
        Lexer.skip true (body ++ Byte.newline :: rest) line := by
      simp only [List.mem_cons, List.not_mem_nil, or_false] at hopening
      rcases hopening with rfl | rfl
      · change Lexer.skip false (47 :: 47 :: (body ++ Byte.newline :: rest)) line = _
        rw [Lexer.skip, Lexer.skip]
        rfl
      · change Lexer.skip false (35 :: (body ++ Byte.newline :: rest)) line = _
        rw [Lexer.skip]
        rfl
    rw [Filler.bytes, List.append_assoc, List.append_assoc, List.singleton_append, hskip,
      skip_body hbody]

theorem skip_fillers (fs : List Filler) (rest : List UInt8) (line : Nat) :
    ∃ line', Lexer.skip false (fs.flatMap Filler.bytes ++ rest) line =
      Lexer.skip false rest line' := by
  induction fs generalizing line with
  | nil => exact ⟨line, rfl⟩
  | cons f fs ih =>
    obtain ⟨line₁, h₁⟩ := skip_filler f (fs.flatMap Filler.bytes ++ rest) line
    obtain ⟨line₂, h₂⟩ := ih line₁
    exact ⟨line₂, by rw [List.flatMap_cons, List.append_assoc, h₁, h₂]⟩

theorem skip_separator (s : Separator) (rest : List UInt8) (line : Nat) :
    ∃ line', Lexer.skip false (s.bytes ++ rest) line = Lexer.skip false rest line' := by
  obtain ⟨line₁, h₁⟩ := skip_blank s.isBlank (s.more.flatMap Filler.bytes ++ rest) line
  obtain ⟨line₂, h₂⟩ := skip_fillers s.more rest line₁
  exact ⟨line₂, by rw [Separator.bytes, List.cons_append, h₁, h₂]⟩

/-- What is behind the first spelling ends it, and begins the others. -/
theorem join_cons (s : Spelling) (separator : Separator) (rest : List (Spelling × Separator)) :
    ∃ tail, join ((s, separator) :: rest) = s.bytes ++ tail ∧ AtGap tail ∧
      ∀ line, ∃ line', Lexer.skip false tail line = Lexer.skip false (join rest) line' := by
  cases rest with
  | nil => exact ⟨[], by simp [join], by simp [AtGap], fun line => ⟨line, rfl⟩⟩
  | cons item rest =>
    refine ⟨separator.bytes ++ join (item :: rest), rfl, ?_, skip_separator separator _⟩
    rintro b ⟨⟩
    exact separator.isBlank

/-! ## Numbers in other radices -/

theorem exists_digitChar {radix n : Nat} (hradix : 1 < radix) {c : Char}
    (h : c ∈ Nat.toDigits radix n) : ∃ k < radix, c = Nat.digitChar k := by
  induction n using Nat.strongRecOn with
  | ind n ih =>
    by_cases hn : n < radix
    · rw [Nat.toDigits_of_lt_base hn, List.mem_singleton] at h
      exact ⟨n, hn, h⟩
    · rw [Nat.toDigits_of_base_le hradix (Nat.le_of_not_lt hn), List.mem_append,
        List.mem_singleton] at h
      rcases h with h | rfl
      · exact ih (n / radix) (Nat.div_lt_self (by omega) hradix) h
      · exact ⟨n % radix, Nat.mod_lt n (by omega), rfl⟩

theorem lt_of_toLower {c : Char} (h : c.toLower.toNat < 128) : c.toNat < 128 := by
  unfold Char.toLower at h
  split at h
  · rename_i hupper
    have := UInt32.le_iff_toNat_le.mp hupper.2
    have hval : c.toNat = c.val.toNat := rfl
    simp at this
    omega
  · exact h

/-- A digit of a hexadecimal number has the same value in either case. -/
theorem isHexDigit_of_toLower {c : Char} {k : Nat} (hk : k < 16) (h : c.toLower = Nat.digitChar k) :
    Byte.isHexDigit (byte c) = true ∧
      Byte.digitValue (byte c) = Byte.digitValue (byte c.toLower) := by
  have key : ∀ n < 128, ∀ k < 16, (Char.ofNat n).toLower = Nat.digitChar k →
      Byte.isHexDigit (byte (Char.ofNat n)) = true ∧
        Byte.digitValue (byte (Char.ofNat n)) = k := by decide +kernel
  have hlt : c.toNat < 128 := lt_of_toLower (by rw [h]; interval_cases k <;> decide)
  have hc := key c.toNat hlt k hk (by rw [Char.ofNat_toNat, h])
  rw [Char.ofNat_toNat] at hc
  exact ⟨hc.1, by rw [hc.2, h, digitValue_byte hk]⟩

theorem number_octal (n : Nat) {tail : List UInt8} (hgap : AtGap tail) :
    Lexer.number (byte '0') ((Nat.toDigits 8 n).map byte ++ tail) = (Word.ofNat n, tail) := by
  have hoctal : ∀ b ∈ (Nat.toDigits 8 n).map byte, Byte.isOctalDigit b = true := by
    intro b hb
    obtain ⟨c, hc, rfl⟩ := List.mem_map.mp hb
    obtain ⟨k, hk, rfl⟩ := exists_digitChar (by decide) hc
    interval_cases k <;> decide
  obtain ⟨htake, hdrop⟩ := takeWhile_append hgap (forall_isBlank (by decide +kernel)) hoctal
  obtain ⟨first, rest, hdigits⟩ :=
    List.exists_cons_of_ne_nil (Nat.toDigits_ne_nil (b := 8) (n := n))
  have hx : ¬(Char.ofUInt8 (byte first) = 'x' ∨ Char.ofUInt8 (byte first) = 'X') := by
    obtain ⟨k, hk, rfl⟩ := exists_digitChar (n := n) (by decide) (hdigits ▸ List.mem_cons_self)
    interval_cases k <;> decide
  have hvalue : Lexer.valueOf 8 ((Nat.toDigits 8 n).map byte) = Word.ofNat n :=
    valueOf_toDigits (by decide) (by decide) n
  rw [← hvalue]
  rw [hdigits, List.map_cons, List.cons_append] at htake hdrop ⊢
  simp only [Lexer.number, if_neg hx, htake, hdrop]
  rfl

/-- Only the values of the digits count. -/
theorem valueOf_eq (radix : Nat) (digits : List UInt8) : Lexer.valueOf radix digits =
    (digits.map Byte.digitValue).foldl (fun n d => n * Word.ofNat radix + Word.ofNat d) 0 := by
  rw [List.foldl_map, Lexer.valueOf]

theorem number_hex {n : Nat} {x : Char} {digits : List Char} (hx : x ∈ ['x', 'X'])
    (h : digits.map Char.toLower = Nat.toDigits 16 n) {tail : List UInt8} (hgap : AtGap tail) :
    Lexer.number (byte '0') (byte x :: digits.map byte ++ tail) = (Word.ofNat n, tail) := by
  have hdigit : ∀ c ∈ digits, Byte.isHexDigit (byte c) = true ∧
      Byte.digitValue (byte c) = Byte.digitValue (byte c.toLower) := by
    intro c hc
    obtain ⟨k, hk, hlower⟩ := exists_digitChar (by decide) (h ▸ List.mem_map_of_mem hc)
    exact isHexDigit_of_toLower hk hlower
  have hhex : ∀ b ∈ digits.map byte, Byte.isHexDigit b = true := by
    intro b hb
    obtain ⟨c, hc, rfl⟩ := List.mem_map.mp hb
    exact (hdigit c hc).1
  obtain ⟨htake, hdrop⟩ := takeWhile_append hgap (forall_isBlank (by decide +kernel)) hhex
  have hvalue : Lexer.valueOf 16 (digits.map byte) = Word.ofNat n := by
    have hlower : Lexer.valueOf 16 ((digits.map Char.toLower).map byte) = Word.ofNat n := by
      rw [h]
      exact valueOf_toDigits (by decide) (by decide) n
    rw [← hlower, valueOf_eq, valueOf_eq, List.map_map, List.map_map, List.map_map]
    congr 1
    exact List.map_congr_left fun c hc => (hdigit c hc).2
  have hletter : Char.ofUInt8 (byte x) = 'x' ∨ Char.ofUInt8 (byte x) = 'X' := by
    simp only [List.mem_cons, List.not_mem_nil, or_false] at hx
    rcases hx with rfl | rfl <;> decide
  simp only [List.cons_append, Lexer.number, if_pos hletter, htake, hdrop, hvalue]
  rfl

/-! ## Strings -/

theorem unescape_of_mem : ∀ escape ∈ escapes,
    byte escape.2 ≠ 0 ∧ Lexer.unescape (byte escape.2) = escape.1 := by
  decide +kernel

theorem literal_parts (parts : List StringPart) (tail read : List UInt8) :
    Lexer.literal (byte '"') (parts.flatMap StringPart.bytes ++ byte '"' :: tail) read =
      (some (read.reverse ++ parts.map StringPart.value), tail) := by
  induction parts generalizing read with
  | nil =>
    rw [List.flatMap_nil, List.nil_append, Lexer.literal.eq_def]
    dsimp only
    rw [if_neg (by decide), if_pos rfl]
    simp
  | cons part parts ih =>
    rw [List.flatMap_cons, List.append_assoc]
    cases part with
    | raw b hplain =>
      obtain ⟨hnul, hquote, hslash⟩ := hplain
      have hchar : ¬Char.ofUInt8 b = '\\' := by
        intro h
        refine hslash ?_
        rw [← h]
        simp [byte, Char.ofUInt8, Char.toNat]
      rw [StringPart.bytes, List.singleton_append, Lexer.literal.eq_def]
      dsimp only
      rw [if_neg hnul, if_neg hquote, if_neg hchar, ih]
      simp [StringPart.value]
    | escaped b c hescape =>
      obtain ⟨hnul, hvalue⟩ := unescape_of_mem _ hescape
      rw [StringPart.bytes, List.cons_append, List.singleton_append, Lexer.literal.eq_def]
      dsimp only
      rw [if_neg (by decide), if_neg (by decide), if_pos (by decide)]
      simp only [if_neg hnul, hvalue, ih]
      simp [StringPart.value]

theorem next_string (parts : List StringPart) (tail : List UInt8) (line : Nat) (t : SymbolTable) :
    Lexer.next ⟨(Spelling.string parts).bytes ++ tail, line, t⟩ =
      (.ok (.string (parts.map StringPart.value)), ⟨tail, line, t⟩) := by
  have hliteral := literal_parts parts tail []
  rw [List.reverse_nil, List.nil_append] at hliteral
  rw [Spelling.bytes, List.cons_append, List.append_assoc, List.singleton_append]
  have hsolid : isSolid (byte '"') (parts.flatMap StringPart.bytes ++ byte '"' :: tail) = true :=
    isSolid_of_notMem (by decide) _
  simp only [Lexer.next, skip_solid hsolid, hliteral, if_neg (show ¬byte '"' = 0 by decide),
    if_neg (show ¬Byte.isLetter (byte '"') = true by decide),
    if_neg (show ¬Byte.isDigit (byte '"') = true by decide),
    if_pos (show Char.ofUInt8 (byte '"') = '"' by decide)]

/-! ## Reading a spelling -/

theorem stray_class : ∀ n < 256, isStray (UInt8.ofNat n) = true →
    UInt8.ofNat n ∉ unsolid ∧ Lexer.single? (Char.ofUInt8 (UInt8.ofNat n)) = none ∧
      (UInt8.ofNat n ≠ 0 ∧ Byte.isLetter (UInt8.ofNat n) = false ∧
        Byte.isDigit (UInt8.ofNat n) = false ∧ Char.ofUInt8 (UInt8.ofNat n) ≠ '"' ∧
        Char.ofUInt8 (UInt8.ofNat n) ≠ '\'') := by
  decide +kernel

theorem next_stray {b : UInt8} (h : isStray b = true) {tail : List UInt8} (hgap : AtGap tail)
    (line : Nat) (t : SymbolTable) :
    Lexer.next ⟨b :: tail, line, t⟩ = (.ok (.illegal b), ⟨tail, line, t⟩) := by
  have hclass := stray_class b.toNat b.toNat_lt
  rw [UInt8.ofNat_toNat] at hclass
  obtain ⟨hsolid, hsingle, hclass⟩ := hclass h
  refine next_operator (isSolid_of_notMem hsolid tail) hclass ?_
  rw [operator_of_atGap b hgap, hsingle, Option.getD_none]

/-- A table that holds some of the given names, and has room for all of them. -/
structure Roomy (names : List String) (t : SymbolTable) : Prop where
  fresh : t.Fresh
  subset : t.names ⊆ names
  room : names.dedup.length ≤ t.capacity

theorem roomy_builtin {names : List String} {capacity : Nat}
    (hroom : (SymbolTable.builtinSymbols.map (·.name) ++ names).dedup.length ≤ capacity) :
    Roomy (SymbolTable.builtinSymbols.map (·.name) ++ names) (.builtin capacity) where
  fresh := SymbolTable.fresh_builtin capacity
  subset := by
    rw [SymbolTable.builtin_eq]
    exact List.subset_append_left _ _
  room := by
    rw [SymbolTable.builtin_eq]
    exact hroom

/-- A name that there is room for is found or entered. -/
theorem Roomy.intern {names : List String} {t : SymbolTable} (h : Roomy names t) {name : String}
    (hname : name ∈ names) : ∃ id t', t.intern name = .ok (id, t') ∧ Roomy names t' := by
  cases hlookup : t.lookup name with
  | some id => exact ⟨id, t, by rw [SymbolTable.intern, hlookup], h⟩
  | none =>
    have hi := h.fresh.indexed
    have hnodup : (name :: t.names).Nodup :=
      List.nodup_cons.mpr ⟨hi.lookup_eq_none_iff.mp hlookup, hi.nodup⟩
    have hsubset : name :: t.names ⊆ names.dedup := by
      intro x hx
      rcases List.mem_cons.mp hx with rfl | hx
      · exact List.mem_dedup.mpr hname
      · exact List.mem_dedup.mpr (h.subset hx)
    have hsize : t.size < t.capacity := by
      have hle := (List.subperm_of_subset hnodup hsubset).length_le
      rw [List.length_cons, SymbolTable.length_names] at hle
      exact Nat.lt_of_lt_of_le hle h.room
    have hintern : t.intern name = .ok (t.size, t.add ⟨name, .unbound⟩) := by
      rw [SymbolTable.intern, hlookup, if_pos hsize]
    refine ⟨_, _, hintern, (SymbolTable.intern_ok hintern h.fresh).2.2, ?_, h.room⟩
    rw [SymbolTable.names_add]
    exact List.append_subset.mpr ⟨h.subset, by simpa using hname⟩

/-- The name that is written, if it is one, is in the table. -/
def Spelling.Found (t : SymbolTable) (s : Spelling) : Prop :=
  ∀ name ∈ s.name?, (t.lookup name).isSome = true

/-- What is read for a spelling stays right as the table grows. -/
theorem Spelling.token_mono {t t' : SymbolTable} (hf : t.Fresh) (hf' : t'.Fresh)
    (hgrow : t.symbols.toList <+: t'.symbols.toList) {s : Spelling} (hs : s.Found t) :
    s.Found t' ∧ s.token t' = s.token t := by
  cases s with
  | name x =>
    obtain ⟨id, hid⟩ := Option.isSome_iff_exists.mp (hs x.text rfl)
    have hid' := SymbolTable.lookup_mono hf.indexed hf'.indexed hgrow hid
    refine ⟨?_, by rw [token, token, idOf_eq hid, idOf_eq hid']⟩
    rintro name ⟨⟩
    exact Option.isSome_of_eq_some hid'
  | _ => exact ⟨by simp [Found, name?], rfl⟩

theorem Roomy.next_word {names : List String} {t : SymbolTable} (h : Roomy names t) {text : String}
    (hword : isWord text = true) (hmem : text ∈ names) {tail : List UInt8} (hgap : AtGap tail)
    (line : Nat) :
    ∃ id t', Lexer.next ⟨Utf8.encode text ++ tail, line, t⟩ =
        (.ok (Lexer.nameToken t' id), ⟨tail, line, t'⟩) ∧
      Roomy names t' ∧ t.symbols.toList <+: t'.symbols.toList ∧ t'.lookup text = some id := by
  obtain ⟨id, t', hintern, hroomy⟩ := h.intern hmem
  obtain ⟨hlookup, hgrow, -⟩ := SymbolTable.intern_ok hintern h.fresh
  rcases Source.next_word hword hgap line t with ⟨reason, herror, -⟩ | ⟨id', t'', hintern', hnext⟩
  · simp [hintern] at herror
  · obtain ⟨rfl, rfl⟩ : id = id' ∧ t' = t'' := by simpa [hintern] using hintern'
    exact ⟨id, t', hnext, hroomy, hgrow, hlookup⟩

/-- A spelling is read as its token, up to its own end. -/
theorem next_spelling {names : List String} {t : SymbolTable} (h : Roomy names t) (s : Spelling)
    (hname : ∀ name ∈ s.name?, name ∈ names) {tail : List UInt8} (hgap : AtGap tail) (line : Nat) :
    ∃ t', Lexer.next ⟨s.bytes ++ tail, line, t⟩ = (.ok (s.token t'), ⟨tail, line, t'⟩) ∧
      Roomy names t' ∧ t.symbols.toList <+: t'.symbols.toList ∧ s.Found t' := by
  have hkeep : s.name? = none →
      Lexer.next ⟨s.bytes ++ tail, line, t⟩ = (.ok (s.token t), ⟨tail, line, t⟩) →
      ∃ t', Lexer.next ⟨s.bytes ++ tail, line, t⟩ = (.ok (s.token t'), ⟨tail, line, t'⟩) ∧
        Roomy names t' ∧ t.symbols.toList <+: t'.symbols.toList ∧ s.Found t' := fun hnone hnext =>
    ⟨t, hnext, h, List.prefix_refl _, by simp [Spelling.Found, hnone]⟩
  cases s with
  | mark token hmark => exact hkeep rfl (next_mark hmark hgap line t)
  | keyword word k hkeyword =>
    have hmem : word ∈ names := by
      have key : ∀ entry ∈ Keyword.spellings,
          entry.1 ∈ SymbolTable.builtinSymbols.map (·.name) := by decide +kernel
      exact h.subset (List.map_subset _ h.fresh.builtin_le.subset (key _ hkeyword))
    obtain ⟨id, t', hnext, hroomy, hgrow, hlookup⟩ :=
      h.next_word (isWord_of_mem_spellings _ hkeyword) hmem hgap line
    rw [nameToken_keyword hroomy.fresh hkeyword hlookup] at hnext
    exact ⟨t', hnext, hroomy, hgrow, by simp [Spelling.Found, Spelling.name?]⟩
  | name x =>
    obtain ⟨id, t', hnext, hroomy, hgrow, hlookup⟩ :=
      h.next_word x.isWord (hname x.text rfl) hgap line
    rw [nameToken_name hroomy.fresh hlookup] at hnext
    refine ⟨t', ?_, hroomy, hgrow, ?_⟩
    · rw [Spelling.token, idOf_eq hlookup]
      exact hnext
    · rintro name ⟨⟩
      exact Option.isSome_of_eq_some hlookup
  | decimal n => exact hkeep rfl (next_number n hgap line t)
  | octal n => exact hkeep rfl (next_digit (by decide) (number_octal n hgap) line t)
  | hex n x digits hx hdigits =>
    exact hkeep rfl (next_digit (by decide) (number_hex hx hdigits hgap) line t)
  | string parts => exact hkeep rfl (next_string parts tail line t)
  | stray b hstray => exact hkeep rfl (next_stray hstray hgap line t)

/-! ## Reading the whole text -/

/-- Bytes that are skipped do not show in any later reading. -/
theorem iterate_next_congr {lx lx' : Lexer} (h : lx.next = lx'.next)
    (hsymbols : lx.symbols = lx'.symbols) (k : Nat) :
    ((fun lx => lx.next.2)^[k] lx).next = ((fun lx => lx.next.2)^[k] lx').next ∧
      ((fun lx => lx.next.2)^[k] lx).symbols = ((fun lx => lx.next.2)^[k] lx').symbols := by
  cases k with
  | zero => exact ⟨h, hsymbols⟩
  | succ k =>
    rw [Function.iterate_succ_apply, Function.iterate_succ_apply, h]
    exact ⟨rfl, rfl⟩

/-- The readings of a text from any table that has room for its names. -/
theorem iterate_join {names : List String} (words : List (Spelling × Separator))
    (hnames : ∀ word ∈ words, ∀ name ∈ word.1.name?, name ∈ names) :
    ∀ {t : SymbolTable}, Roomy names t → ∀ line, ∃ t', t'.Fresh ∧
      t.symbols.toList <+: t'.symbols.toList ∧ (∀ word ∈ words, word.1.Found t') ∧
      ∀ k, ((fun lx => lx.next.2)^[k] (⟨join words, line, t⟩ : Lexer)).next.1 =
          .ok ((words.map (·.1.token t'))[k]?.getD .eof) ∧
        (words.length ≤ k →
          ((fun lx => lx.next.2)^[k] (⟨join words, line, t⟩ : Lexer)).symbols = t') := by
  induction words with
  | nil =>
    intro t hroomy line
    refine ⟨t, hroomy.fresh, List.prefix_refl _, by simp, fun k => ?_⟩
    have hfixed : Function.IsFixedPt (fun lx : Lexer => lx.next.2) ⟨[], line, t⟩ := rfl
    rw [join, hfixed.iterate k]
    exact ⟨rfl, fun _ => rfl⟩
  | cons word words ih =>
    intro t hroomy line
    obtain ⟨s, separator⟩ := word
    obtain ⟨tail, hjoin, hgap, hskip⟩ := join_cons s separator words
    obtain ⟨t₁, hnext, hroomy₁, hgrow₁, hfound₁⟩ :=
      next_spelling hroomy s (hnames _ List.mem_cons_self) hgap line
    obtain ⟨line', hline⟩ := hskip line
    obtain ⟨t', hfresh, hgrow, hfound, hrun⟩ :=
      ih (fun word hword => hnames word (List.mem_cons_of_mem _ hword)) hroomy₁ line'
    obtain ⟨hfound', htoken⟩ := Spelling.token_mono hroomy₁.fresh hfresh hgrow hfound₁
    have htail : Lexer.next ⟨tail, line, t₁⟩ = Lexer.next ⟨join words, line', t₁⟩ := by
      simp only [Lexer.next, hline]
    refine ⟨t', hfresh, hgrow₁.trans hgrow, ?_, fun k => ?_⟩
    · rintro word hword
      rcases List.mem_cons.mp hword with rfl | hword
      · exact hfound'
      · exact hfound word hword
    · rw [hjoin]
      cases k with
      | zero =>
        rw [Function.iterate_zero_apply, hnext]
        exact ⟨by simp [htoken], by simp⟩
      | succ k =>
        rw [Function.iterate_succ_apply]
        rw [hnext]
        obtain ⟨hnext', hsymbols⟩ := iterate_next_congr htail rfl k
        rw [hnext', hsymbols]
        exact ⟨by simpa using (hrun k).1, fun hk => (hrun k).2 (by simpa using hk)⟩

/-- Reading undoes spelling: a text that is made up of spellings and separators is read as the
tokens that were spelled, in order, and then as the end for good. The names are numbered by the
table that is left, which has to have room for all of them and the builtin ones. -/
theorem next_iterate_join (words : List (Spelling × Separator)) {capacity : Nat}
    (hroom : (SymbolTable.builtinSymbols.map (·.name) ++
      words.filterMap (·.1.name?)).dedup.length ≤ capacity) :
    ∃ t : SymbolTable, (∀ name ∈ words.filterMap (·.1.name?), (t.lookup name).isSome = true) ∧
      ∀ k, ((fun lx => lx.next.2)^[k]
            (Lexer.ofSource (join words) (.builtin capacity))).next.1 =
          .ok ((words.map (·.1.token t))[k]?.getD .eof) ∧
        (words.length ≤ k → ((fun lx => lx.next.2)^[k]
            (Lexer.ofSource (join words) (.builtin capacity))).symbols = t) := by
  have hnames : ∀ word ∈ words, ∀ name ∈ word.1.name?,
      name ∈ SymbolTable.builtinSymbols.map (·.name) ++ words.filterMap (·.1.name?) :=
    fun word hword name hname =>
      List.mem_append_right _ (List.mem_filterMap.mpr ⟨word, hword, hname⟩)
  obtain ⟨t, -, -, hfound, hrun⟩ := iterate_join words hnames (roomy_builtin hroom) 1
  refine ⟨t, fun name hname => ?_, hrun⟩
  obtain ⟨word, hword, hname⟩ := List.mem_filterMap.mp hname
  exact hfound word hword name hname

def sampleWords : List (Spelling × Separator) :=
  let space : Separator := ⟨32, rfl, []⟩
  let remark : Separator := ⟨32, rfl, [.comment "//" (by decide) [] (by simp), .blank 9 rfl]⟩
  [(.keyword "void" .charKw (by decide), space), (.name ⟨"x", by decide +kernel⟩, remark),
    (.mark .assign rfl, space), (.hex 255 'X' ['F', 'f'] (by decide) (by decide +kernel), space),
    (.string [.raw 97 (by decide), .escaped 10 'n' (by decide)], space), (.stray 64 rfl, space)]

theorem next_iterate_join_sample : ∃ t : SymbolTable, ∀ k, ((fun lx => lx.next.2)^[k]
    (Lexer.ofSource (Utf8.encode "void x //\n\t= 0XFf \"a\\n\" @") (.builtin 23))).next.1 =
      .ok (([.keyword .charKw, .ident (idOf t ⟨"x", by decide +kernel⟩), .assign, .number 255,
        .string [97, 10], .illegal 64] : List Token)[k]?.getD .eof) := by
  obtain ⟨t, -, h⟩ := next_iterate_join sampleWords (by decide +kernel :
    (SymbolTable.builtinSymbols.map (·.name) ++
      sampleWords.filterMap (·.1.name?)).dedup.length ≤ 23)
  have htext : Utf8.encode "void x //\n\t= 0XFf \"a\\n\" @" = join sampleWords := by decide +kernel
  rw [htext]
  exact ⟨t, fun k => (h k).1⟩

end MiniC.Source
