import MiniC.Proofs.Compiling.Steps
import MiniC.Proofs.Source.Lexing

/-!
# The lexemes of a source

One reading step finds something in the bytes and then, if that is a name, looks it up in the table.
`scan` is the first half, which knows nothing of the table (`next_eq`). `Reads` relates a source to
the lexemes read from it and the table that is left. The end of the source is the last lexeme
(`Reads.terminated`), an identifier is a number in the table (`Reads.known`), and the table holds no
more names than its capacity and the builtin ones allow (`iterate_bounded`).
-/

namespace MiniC.Lexer

/-! ## What the bytes hold -/

/-- What one reading step finds: the end, a name, or anything else. -/
inductive Found where
  | eof
  | name (text : String)
  | other (token : Except Reason Token)

/-- What begins with the first byte, and the bytes behind it. -/
def found : List UInt8 → Found × List UInt8
  | [] => (.eof, [])
  | b :: after =>
    if b = 0 then (.eof, b :: after)
    else if Byte.isLetter b then
      (.name (spelling (b :: after.takeWhile Byte.isNameByte)), after.dropWhile Byte.isNameByte)
    else if Byte.isDigit b then (.other (.ok (.number (number b after).1)), (number b after).2)
    else if Char.ofUInt8 b = '"' then
      match literal b after [] with
      | (none, rest) => (.other (.error .unterminatedLiteral), rest)
      | (some bytes, rest) => (.other (.ok (.string bytes)), rest)
    else if Char.ofUInt8 b = '\'' then
      match literal b after [] with
      | (none, rest) => (.other (.error .unterminatedLiteral), rest)
      | (some bytes, rest) =>
        (.other (.ok (.number (Word.ofNat (bytes.getLast?.getD 0).toNat))), rest)
    else (.other (.ok (operator b after).1), (operator b after).2)

/-- What stands behind the blanks of a lexer's source, and the bytes behind that. -/
def scan (lx : Lexer) : Found × List UInt8 := found (skip false lx.rest lx.line).1

/-- The number of a name in the table, which it is entered into. -/
def enter (symbols : SymbolTable) (name : String) : Except Reason Token × SymbolTable :=
  match symbols.intern name with
  | .error reason => (.error reason, symbols)
  | .ok (id, symbols) => (.ok (nameToken symbols id), symbols)

section Enter

variable {symbols : SymbolTable} {name : String}

theorem enter_of_lookup {id : SymbolId} (h : symbols.lookup name = some id) :
    enter symbols name = (.ok (nameToken symbols id), symbols) := by
  rw [enter, SymbolTable.intern, h]

theorem enter_of_room (h : symbols.lookup name = none) (hroom : symbols.size < symbols.capacity) :
    enter symbols name =
      (.ok (nameToken (symbols.add ⟨name, .unbound⟩) symbols.size),
        symbols.add ⟨name, .unbound⟩) := by
  rw [enter, SymbolTable.intern, h, if_pos hroom]

theorem enter_of_full (h : symbols.lookup name = none) (hfull : symbols.capacity ≤ symbols.size) :
    enter symbols name = (.error (.capacityExceeded .symbols symbols.capacity), symbols) := by
  rw [enter, SymbolTable.intern, h, if_neg (Nat.not_lt.mpr hfull)]

end Enter

/-- What a reading step makes of what it found. -/
def Found.resolve (symbols : SymbolTable) : Found → Except Reason Token × SymbolTable
  | .eof => (.ok .eof, symbols)
  | .name text => enter symbols text
  | .other token => (token, symbols)

theorem next_eq (lx : Lexer) :
    lx.next = ((lx.scan.1.resolve lx.symbols).1,
      ⟨lx.scan.2, (skip false lx.rest lx.line).2, (lx.scan.1.resolve lx.symbols).2⟩) := by
  unfold next scan
  rcases skip false lx.rest lx.line with ⟨_ | ⟨b, after⟩, line⟩
  · rfl
  · dsimp only [found]
    split_ifs
    · rfl
    · simp only [Found.resolve, enter]
      cases lx.symbols.intern (spelling (b :: after.takeWhile Byte.isNameByte)) <;> rfl
    · rfl
    · rcases literal b after [] with ⟨_ | bytes, rest⟩ <;> rfl
    · rcases literal b after [] with ⟨_ | bytes, rest⟩ <;> rfl
    · rfl

/-! ## Reading takes bytes -/

theorem skip_suffix (comment : Bool) (bytes : List UInt8) (line : Nat) :
    (skip comment bytes line).1 <:+ bytes := by
  fun_induction skip comment bytes line with
  | case1 => exact List.suffix_refl _
  | _ => first
    | exact List.suffix_refl _
    | exact List.IsSuffix.trans ‹_› (List.suffix_cons _ _)

theorem number_suffix (first : UInt8) (rest : List UInt8) : (number first rest).2 <:+ rest := by
  unfold number
  split
  · split
    · split
      · exact (List.dropWhile_suffix _).trans (List.suffix_cons _ _)
      · exact List.dropWhile_suffix _
    · exact List.suffix_refl _
  · exact List.dropWhile_suffix _

theorem literal_suffix (quote : UInt8) (bytes read : List UInt8) :
    (literal quote bytes read).2 <:+ bytes := by
  fun_induction literal quote bytes read with
  | case1 | case2 => exact List.suffix_refl _
  | case3 => exact List.suffix_cons _ _
  | case4 => exact List.nil_suffix
  | case5 => exact List.suffix_cons _ _
  | case6 _ _ _ _ _ _ _ _ ih => exact ih.trans ((List.suffix_cons _ _).trans (List.suffix_cons _ _))
  | case7 _ _ _ _ _ _ ih => exact ih.trans (List.suffix_cons _ _)

theorem operator_suffix (first : UInt8) (rest : List UInt8) : (operator first rest).2 <:+ rest := by
  unfold operator
  split
  · exact List.tail_suffix _
  · exact List.suffix_refl _

/-- What is found takes its first byte, unless it is the end. -/
theorem found_suffix {b : UInt8} {after : List UInt8} (h : (found (b :: after)).1 ≠ .eof) :
    (found (b :: after)).2 <:+ after := by
  dsimp only [found] at h ⊢
  split_ifs at h ⊢
  · exact absurd rfl h
  · exact List.dropWhile_suffix _
  · exact number_suffix b after
  · have hsuffix := literal_suffix b after []
    split <;> simp_all
  · have hsuffix := literal_suffix b after []
    split <;> simp_all
  · exact operator_suffix b after

theorem length_scan_lt {lx : Lexer} (h : lx.scan.1 ≠ .eof) : lx.scan.2.length < lx.rest.length := by
  have hle := (skip_suffix false lx.rest lx.line).length_le
  unfold scan at h ⊢
  generalize (skip false lx.rest lx.line).1 = bytes at h hle ⊢
  cases bytes with
  | nil => exact absurd rfl h
  | cons b after =>
    have := (found_suffix h).length_le
    rw [List.length_cons] at hle
    omega

/-! ## Tokens that are found -/

theorem operator_ne (first : UInt8) (rest : List UInt8) :
    (operator first rest).1 ≠ .eof ∧ ∀ id, (operator first rest).1 ≠ .ident id := by
  have hpair : ∀ c d token, pair? c d = some token → token ≠ .eof ∧ ∀ id, token ≠ .ident id := by
    intro c d token h
    unfold pair? at h
    split at h <;> simp_all [eq_comm]
  have hsingle : ∀ c token, single? c = some token → token ≠ .eof ∧ ∀ id, token ≠ .ident id := by
    intro c token h
    unfold single? at h
    split at h <;> simp_all [eq_comm]
  unfold operator
  split
  · rename_i token h
    obtain ⟨second, -, h⟩ := Option.bind_eq_some_iff.mp h
    exact hpair _ _ token h
  · dsimp only
    cases h : single? (Char.ofUInt8 first) with
    | none => simp
    | some token => exact hsingle _ token h

/-- Neither the end nor an identifier is found as anything else. -/
theorem found_other {bytes : List UInt8} {token : Token}
    (h : (found bytes).1 = .other (.ok token)) : token ≠ .eof ∧ ∀ id, token ≠ .ident id := by
  cases bytes with
  | nil => simp [found] at h
  | cons b after =>
    dsimp only [found] at h
    split_ifs at h
    · cases h
      simp
    · split at h <;> cases h
      simp
    · split at h <;> cases h
      simp
    · cases h
      exact operator_ne b after

theorem found_error {bytes : List UInt8} {reason : Reason}
    (h : (found bytes).1 = .other (.error reason)) : reason = .unterminatedLiteral := by
  cases bytes with
  | nil => simp [found] at h
  | cons b after =>
    dsimp only [found] at h
    split_ifs at h
    · cases h
    · split at h <;> cases h
      rfl
    · split at h <;> cases h
      rfl
    · cases h

theorem nameToken_cases (symbols : SymbolTable) (id : SymbolId) :
    (∃ k, nameToken symbols id = .keyword k) ∨ nameToken symbols id = .ident id := by
  unfold nameToken
  split
  · exact .inl ⟨_, rfl⟩
  · exact .inr rfl

/-- The end is read exactly where it is found. -/
theorem next_eq_eof {lx : Lexer} : lx.next.1 = .ok .eof ↔ lx.scan.1 = .eof := by
  rw [next_eq]
  dsimp only
  cases h : lx.scan.1 with
  | eof => simp [Found.resolve]
  | other token =>
    simp only [Found.resolve, reduceCtorEq, iff_false]
    rintro rfl
    exact (found_other h).1 rfl
  | name text =>
    simp only [Found.resolve, enter, reduceCtorEq, iff_false]
    cases lx.symbols.intern text with
    | error reason => simp
    | ok r =>
      obtain ⟨k, hk⟩ | hid := nameToken_cases r.2 r.1
      · simp [hk]
      · simp [hid]

/-! ## Reading up to the end -/

/-- Reading a source up to its end yields lexemes, and the table of the names met. -/
inductive Reads : Lexer → List Lexeme → SymbolTable → Prop
  | eof {lx : Lexer} (h : lx.scan.1 = .eof) : Reads lx [⟨lx.next.2.line, .ok .eof⟩] lx.symbols
  | next {lx : Lexer} {items : List Lexeme} {t : SymbolTable} (h : lx.scan.1 ≠ .eof)
      (hrest : Reads lx.next.2 items t) : Reads lx (⟨lx.next.2.line, lx.next.1⟩ :: items) t

theorem length_next_lt {lx : Lexer} (h : lx.scan.1 ≠ .eof) :
    lx.next.2.rest.length < lx.rest.length := by
  rw [next_eq]
  exact length_scan_lt h

theorem reads_collect {fuel : Nat} {lx : Lexer} (h : lx.rest.length < fuel) :
    Reads lx (collect fuel lx []).1 (collect fuel lx []).2 := by
  induction fuel generalizing lx with
  | zero => omega
  | succ fuel ih =>
    have heta : lx.next = (lx.next.1, lx.next.2) := rfl
    by_cases hfound : lx.scan.1 = .eof
    · have hsymbols : lx.next.2.symbols = lx.symbols := by rw [next_eq, hfound]; rfl
      rw [collect, heta, next_eq_eof.mpr hfound]
      dsimp only
      rw [hsymbols]
      exact .eof hfound
    · have hlt := length_next_lt hfound
      have hne : lx.next.1 ≠ .ok .eof := fun heof => hfound (next_eq_eof.mp heof)
      rw [Source.collect_succ fuel [] heta hne, Source.collect_eq_append]
      exact .next hfound (ih (by omega))

theorem reads_lexemes (lx : Lexer) : Reads lx lx.lexemes.1 lx.lexemes.2 :=
  reads_collect (Nat.lt_succ_self _)

/-- The last lexeme of a source, and no other, is its end. -/
theorem Reads.terminated {lx : Lexer} {items : List Lexeme} {t : SymbolTable}
    (h : Reads lx items t) : Compile.Terminated items := by
  induction h with
  | eof => exact ⟨[], _, rfl, by simp⟩
  | @next lx items t h _ ih =>
    obtain ⟨front, line, rfl, hfront⟩ := ih
    refine ⟨⟨lx.next.2.line, lx.next.1⟩ :: front, line, rfl, fun l hl => ?_⟩
    rcases List.mem_cons.mp hl with rfl | hl
    · exact fun heof => h (next_eq_eof.mp heof)
    · exact hfront l hl

/-- Every lexeme but the last takes a byte of the source at least. -/
theorem Reads.length_le {lx : Lexer} {items : List Lexeme} {t : SymbolTable}
    (h : Reads lx items t) : items.length ≤ lx.rest.length + 1 := by
  induction h with
  | eof => simp
  | next h _ ih =>
    have hlt := length_next_lt h
    rw [List.length_cons]
    omega

/-- A lexeme that is no token is a literal that is not closed or a name that does not fit. -/
theorem next_error {lx : Lexer} {reason : Reason} (h : lx.next.1 = .error reason) :
    reason = .unterminatedLiteral ∨ reason = .capacityExceeded .symbols lx.symbols.capacity := by
  rw [next_eq] at h
  dsimp only at h
  cases hfound : lx.scan.1 with
  | eof => simp [hfound, Found.resolve] at h
  | other token =>
    simp only [hfound, Found.resolve] at h
    subst h
    exact .inl (found_error hfound)
  | name text =>
    simp only [hfound, Found.resolve] at h
    cases hlookup : lx.symbols.lookup text with
    | some id => simp [enter_of_lookup hlookup] at h
    | none =>
      by_cases hroom : lx.symbols.size < lx.symbols.capacity
      · simp [enter_of_room hlookup hroom] at h
      · rw [enter_of_full hlookup (Nat.le_of_not_lt hroom)] at h
        exact .inr (Except.error.inj h).symm

theorem Reads.reason_ne {lx : Lexer} {items : List Lexeme} {t : SymbolTable}
    (h : Reads lx items t) : ∀ l ∈ items, l.token ≠ .error .mainNotDefined := by
  induction h with
  | eof => simp
  | @next lx items t _ _ ih =>
    intro l hl
    rcases List.mem_cons.mp hl with rfl | hl
    · intro herror
      rcases next_error herror with h | h <;> simp at h
    · exact ih l hl

/-! ## The table of names -/

theorem next_grows {lx : Lexer} (h : lx.symbols.Fresh) :
    lx.symbols.symbols.toList <+: lx.next.2.symbols.symbols.toList := by
  rcases lx.next_symbols with heq | ⟨name, id, hintern⟩
  · rw [heq]
  · exact (SymbolTable.intern_ok hintern h).2.1

theorem Reads.grows {lx : Lexer} {items : List Lexeme} {t : SymbolTable} (h : Reads lx items t)
    (hf : lx.symbols.Fresh) : lx.symbols.symbols.toList <+: t.symbols.toList ∧ t.Fresh := by
  induction h with
  | eof => exact ⟨List.prefix_refl _, hf⟩
  | next _ _ ih =>
    obtain ⟨hgrow, hfresh⟩ := ih (next_fresh hf)
    exact ⟨(next_grows hf).trans hgrow, hfresh⟩

theorem enter_known {t : SymbolTable} (hi : t.Indexed) {name : String} {id : SymbolId}
    (h : (enter t name).1 = .ok (.ident id)) : id < (enter t name).2.size := by
  have hname : ∀ {t' : SymbolTable} {id' : SymbolId}, nameToken t' id' = .ident id → id = id' := by
    intro t' id' htoken
    obtain ⟨k, hk⟩ | hid := nameToken_cases t' id'
    · cases hk.symm.trans htoken
    · exact Token.ident.inj (htoken.symm.trans hid)
  cases hlookup : t.lookup name with
  | some id' =>
    rw [enter_of_lookup hlookup] at h ⊢
    obtain ⟨s, hs, -⟩ := SymbolTable.getElem?_of_lookup hi hlookup
    rw [hname (Except.ok.inj h)]
    exact (Array.getElem?_eq_some_iff.mp hs).1
  | none =>
    by_cases hroom : t.size < t.capacity
    · rw [enter_of_room hlookup hroom] at h ⊢
      rw [hname (Except.ok.inj h)]
      simp [SymbolTable.size, SymbolTable.add]
    · rw [enter_of_full hlookup (Nat.le_of_not_lt hroom)] at h
      cases h

theorem next_known {lx : Lexer} {token : Token} (hi : lx.symbols.Indexed)
    (h : lx.next.1 = .ok token) :
    Compile.Known lx.next.2.symbols.size token := by
  rintro id rfl
  rw [next_eq] at h ⊢
  dsimp only at h ⊢
  cases hfound : lx.scan.1 with
  | eof => simp [hfound, Found.resolve] at h
  | other token =>
    simp only [hfound, Found.resolve] at h
    subst h
    exact absurd rfl ((found_other hfound).2 id)
  | name text =>
    rw [hfound] at h
    exact enter_known hi h

/-- An identifier is a number in the table that is left at the end. -/
theorem Reads.known {lx : Lexer} {items : List Lexeme} {t : SymbolTable} (h : Reads lx items t)
    (hf : lx.symbols.Fresh) :
    ∀ l ∈ items, ∀ token, l.token = .ok token → Compile.Known t.size token := by
  induction h with
  | eof => simp [Compile.Known]
  | @next lx items t _ hrest ih =>
    intro l hl token htoken
    rcases List.mem_cons.mp hl with rfl | hl
    · have hle := (hrest.grows (next_fresh hf)).1.length_le
      rw [Array.length_toList, Array.length_toList] at hle
      exact fun id hid => Nat.lt_of_lt_of_le (next_known hf.indexed htoken id hid) hle
    · exact ih (next_fresh hf) l hl token htoken

/-- A table of the given capacity which is full at most, though the builtin records always fit. -/
structure Bounded (capacity : Nat) (t : SymbolTable) : Prop where
  capacity_eq : t.capacity = capacity
  size_le : t.size ≤ max capacity SymbolTable.builtinSymbols.length

theorem intern_capacity {t t' : SymbolTable} {name : String} {id : SymbolId}
    (h : t.intern name = .ok (id, t')) :
    t'.capacity = t.capacity ∧ (t' = t ∨ t.size < t.capacity ∧ t'.size = t.size + 1) := by
  rcases SymbolTable.intern_cases h with ⟨-, rfl⟩ | ⟨-, hroom, -, rfl⟩
  · exact ⟨rfl, .inl rfl⟩
  · exact ⟨rfl, .inr ⟨hroom, by simp [SymbolTable.size, SymbolTable.add]⟩⟩

theorem next_bounded {lx : Lexer} {capacity : Nat} (h : Bounded capacity lx.symbols) :
    Bounded capacity lx.next.2.symbols := by
  rcases lx.next_symbols with heq | ⟨name, id, hintern⟩
  · rwa [heq]
  · obtain ⟨hcapacity, heq | ⟨hroom, hsize⟩⟩ := intern_capacity hintern
    · rwa [heq]
    · refine ⟨hcapacity.trans h.capacity_eq, ?_⟩
      rw [h.capacity_eq] at hroom
      omega

theorem Reads.bounded {lx : Lexer} {items : List Lexeme} {t : SymbolTable} {capacity : Nat}
    (h : Reads lx items t) (hb : Bounded capacity lx.symbols) : Bounded capacity t := by
  induction h with
  | eof => exact hb
  | next _ _ ih => exact ih (next_bounded hb)

theorem iterate_bounded {lx : Lexer} {capacity : Nat} (h : Bounded capacity lx.symbols) (k : Nat) :
    Bounded capacity ((fun lx => lx.next.2)^[k] lx).symbols := by
  induction k generalizing lx with
  | zero => exact h
  | succ k ih => exact ih (next_bounded h)

theorem bounded_builtin (capacity : Nat) : Bounded capacity (SymbolTable.builtin capacity) := by
  rw [SymbolTable.builtin_eq]
  exact ⟨rfl, le_max_right _ _⟩

end MiniC.Lexer
