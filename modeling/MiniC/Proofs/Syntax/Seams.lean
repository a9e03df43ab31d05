import MiniC.Proofs.Syntax.Lexemes

/-!
# Reading a source that goes on

A token that is read from bytes which end with a delimiter is read in the same way when more bytes
follow (`Ended.next_append`): the delimiter ends every name, number and operator, and a literal that
is closed does not look behind its quote. Only the end of the bytes, and a literal that is not
closed before it, are read differently. A newline is a delimiter, and so is a closing parenthesis.
-/

namespace MiniC.Lexer

/-! ## Delimiters -/

/-- A byte that no token in front of it goes on with, and that forms no operator with a byte behind
it. -/
structure Delimits (e : UInt8) : Prop where
  name : Byte.isNameByte e = false
  digit : Byte.isDigit e = false
  octal : Byte.isOctalDigit e = false
  hex : Byte.isHexDigit e = false
  ne_x : ¬ (Char.ofUInt8 e = 'x' ∨ Char.ofUInt8 e = 'X')
  ne_slash : Char.ofUInt8 e ≠ '/'
  alone : ∀ c, pair? (Char.ofUInt8 e) c = none

theorem delimits_newline : Delimits Byte.newline :=
  ⟨by decide, by decide, by decide, by decide, by decide, by decide, fun _ => rfl⟩

theorem delimits_closeParen : Delimits ')'.toUInt8 :=
  ⟨by decide, by decide, by decide, by decide, by decide, by decide, fun _ => rfl⟩

/-- Bytes that end with the given one, unless there are none. -/
def Ended (e : UInt8) (bytes : List UInt8) : Prop := ∀ front b, bytes = front ++ [b] → b = e

theorem ended_append (e : UInt8) (bytes : List UInt8) : Ended e (bytes ++ [e]) :=
  fun _ _ h => (List.singleton_inj.mp (List.append_inj' h rfl).2).symm

namespace Ended

variable {b e : UInt8} {bytes bytes' : List UInt8}

theorem of_suffix (h : Ended e bytes) (hs : bytes' <:+ bytes) : Ended e bytes' := by
  intro front b heq
  obtain ⟨more, hmore⟩ := hs
  exact h (more ++ front) b (by rw [← hmore, heq, List.append_assoc])

theorem tail (h : Ended e (b :: bytes)) : Ended e bytes := h.of_suffix (List.suffix_cons _ _)

/-- Behind a byte other than the last stands another. -/
theorem tail_ne_nil (h : Ended e (b :: bytes)) (hb : b ≠ e) : bytes ≠ [] := by
  rintro rfl
  exact hb (h [] b rfl)

theorem mem (h : Ended e bytes) (hne : bytes ≠ []) : e ∈ bytes := by
  have hlast := h bytes.dropLast (bytes.getLast hne) (List.dropLast_append_getLast hne).symm
  exact hlast ▸ List.getLast_mem hne

end Ended

/-- Bytes without a NUL that end with a newline, unless there are none. -/
structure Whole (bytes : List UInt8) : Prop where
  no_nul : 0 ∉ bytes
  newline_last : ∀ front b, bytes = front ++ [b] → b = Byte.newline

theorem Whole.of_suffix {bytes bytes' : List UInt8} (h : Whole bytes) (hs : bytes' <:+ bytes) :
    Whole bytes' :=
  ⟨fun hmem => h.no_nul (hs.subset hmem), Ended.of_suffix h.newline_last hs⟩

/-! ## What is read -/

variable {b e : UInt8} {bytes after : List UInt8}

theorem head?_append_of_ne_nil (h : bytes ≠ []) (more : List UInt8) :
    (bytes ++ more).head? = bytes.head? := by
  cases bytes with
  | nil => exact absurd rfl h
  | cons b bytes => rfl

theorem skip_append {comment : Bool} {line line' : Nat} (he : Delimits e) (hend : Ended e bytes)
    (h : skip comment bytes line = (b :: after, line')) (more : List UInt8) :
    skip comment (bytes ++ more) line = (b :: after ++ more, line') := by
  induction bytes generalizing comment line with
  | nil => simp [skip] at h
  | cons c bytes ih =>
    have htail := hend.tail
    -- only a slash looks at the byte behind it, and the delimiter is none
    have hslash : (Char.ofUInt8 c = '/' ∧ (bytes ++ more).head? = some '/'.toUInt8) =
        (Char.ofUInt8 c = '/' ∧ bytes.head? = some '/'.toUInt8) := by
      by_cases hc : c = e
      · simp [hc, he.ne_slash]
      · rw [head?_append_of_ne_nil (hend.tail_ne_nil hc)]
    rw [skip] at h
    rw [List.cons_append, skip]
    simp only [hslash]
    split_ifs at h ⊢
    · exact ih htail h
    · cases h
      rfl
    · exact ih htail h
    · exact ih htail h
    · exact ih htail h
    · exact ih htail h
    · cases h
      rfl

/-- What is taken from bytes up to a delimiter is taken in the same way when more bytes follow. -/
theorem while_append {p : UInt8 → Bool} (hp : p e = false) (h : e ∈ bytes) (more : List UInt8) :
    (bytes ++ more).takeWhile p = bytes.takeWhile p ∧
      (bytes ++ more).dropWhile p = bytes.dropWhile p ++ more := by
  induction bytes with
  | nil => simp at h
  | cons c bytes ih =>
    cases hc : p c with
    | false => simp [hc]
    | true =>
      have hmem : e ∈ bytes := by
        rcases List.mem_cons.mp h with rfl | h
        · simp [hp] at hc
        · exact h
      obtain ⟨htake, hdrop⟩ := ih hmem
      simp [hc, htake, hdrop]

theorem number_append (he : Delimits e) (hend : Ended e after) (hne : after ≠ [])
    (more : List UInt8) :
    number b (after ++ more) = ((number b after).1, (number b after).2 ++ more) := by
  have hmem := hend.mem hne
  obtain ⟨htake, hdrop⟩ := while_append he.digit hmem more
  obtain ⟨htake₈, hdrop₈⟩ := while_append he.octal hmem more
  cases after with
  | nil => exact absurd rfl hne
  | cons x after =>
    rw [List.cons_append] at htake hdrop htake₈ hdrop₈
    simp only [number, List.cons_append]
    split
    · split
      · rename_i hx
        have hx : x ≠ e := by
          rintro rfl
          exact he.ne_x hx
        obtain ⟨htake₁₆, hdrop₁₆⟩ :=
          while_append he.hex (hend.tail.mem (hend.tail_ne_nil hx)) more
        rw [htake₁₆, hdrop₁₆]
      · rw [htake₈, hdrop₈]
    · rw [htake, hdrop]

theorem literal_append {quote : UInt8} {read value : List UInt8}
    (h : (literal quote bytes read).1 = some value) (more : List UInt8) :
    literal quote (bytes ++ more) read = (some value, (literal quote bytes read).2 ++ more) := by
  fun_induction literal quote bytes read with
  | case1 | case2 | case4 | case5 => simp at h
  | case3 _ _ hquote =>
    rw [List.cons_append, literal.eq_def]
    simp [hquote, ← h]
  | case6 _ _ hb hquote hescape _ _ he ih =>
    rw [List.cons_append, List.cons_append, literal.eq_def]
    simp [hb, hquote, hescape, he, ih h]
  | case7 _ _ _ hb hquote hescape ih =>
    rw [List.cons_append, literal.eq_def]
    simp [hb, hquote, hescape, ih h]

theorem operator_append (he : Delimits e) (hend : Ended e (b :: after)) (more : List UInt8) :
    operator b (after ++ more) = ((operator b after).1, (operator b after).2 ++ more) := by
  by_cases hb : b = e
  · have hnone : ∀ rest : List UInt8,
        (rest.head?.bind fun second => pair? (Char.ofUInt8 b) (Char.ofUInt8 second)) = none := by
      intro rest
      cases rest with
      | nil => rfl
      | cons c rest => exact hb ▸ he.alone _
    rw [operator, operator, hnone, hnone]
  · have hne := hend.tail_ne_nil hb
    rw [operator, operator, head?_append_of_ne_nil hne]
    split
    · rw [List.tail_append_of_ne_nil hne]
    · rfl

theorem found_append (he : Delimits e) (hend : Ended e (b :: after)) (hb : b ≠ 0)
    (hok : ∀ reason, (found (b :: after)).1 ≠ .other (.error reason)) (more : List UInt8) :
    found (b :: after ++ more) = ((found (b :: after)).1, (found (b :: after)).2 ++ more) := by
  dsimp only [found, List.cons_append] at hok ⊢
  rw [if_neg hb] at hok ⊢
  rw [if_neg hb, operator_append he hend]
  split_ifs at hok ⊢ with hletter hdigit
  · have hne : b ≠ e := by
      rintro rfl
      exact absurd he.name (by simp [Byte.isNameByte, hletter])
    obtain ⟨htake, hdrop⟩ := while_append he.name (hend.tail.mem (hend.tail_ne_nil hne)) more
    rw [htake, hdrop]
  · have hne : b ≠ e := by
      rintro rfl
      exact absurd he.digit (by simp [hdigit])
    rw [number_append he hend.tail (hend.tail_ne_nil hne)]
  · cases h : literal b after [] with
    | mk value rest =>
      cases value with
      | none => exact absurd rfl (h ▸ hok .unterminatedLiteral)
      | some value => rw [literal_append (by rw [h]), h]
  · cases h : literal b after [] with
    | mk value rest =>
      cases value with
      | none => exact absurd rfl (h ▸ hok .unterminatedLiteral)
      | some value => rw [literal_append (by rw [h]), h]
  · rfl

theorem next_suffix {lx : Lexer} (h : lx.scan.1 ≠ .eof) : lx.next.2.rest <:+ lx.rest := by
  have hsuffix := skip_suffix false lx.rest lx.line
  rw [next_eq]
  dsimp only
  unfold scan at h ⊢
  generalize (skip false lx.rest lx.line).1 = bytes at h hsuffix ⊢
  cases bytes with
  | nil => exact absurd rfl h
  | cons b after => exact (found_suffix h).trans ((List.suffix_cons _ _).trans hsuffix)

/-- A token in front of a delimiter is read in the same way when more bytes follow. -/
theorem Ended.next_append {lx : Lexer} (hend : Ended e lx.rest) (he : Delimits e)
    (hfound : lx.scan.1 ≠ .eof) (hok : ∀ reason, lx.next.1 ≠ .error reason) (more : List UInt8) :
    ({ lx with rest := lx.rest ++ more } : Lexer).scan.1 ≠ .eof ∧
      ({ lx with rest := lx.rest ++ more } : Lexer).next =
        (lx.next.1, { lx.next.2 with rest := lx.next.2.rest ++ more }) := by
  cases hskip : skip false lx.rest lx.line with
  | mk bytes line =>
    cases bytes with
    | nil => exact absurd (by rw [scan, hskip]; rfl) hfound
    | cons b after =>
      have hsuffix : b :: after <:+ lx.rest := by
        have h := skip_suffix false lx.rest lx.line
        rwa [hskip] at h
      have hskip' := skip_append he hend hskip more
      have hscan : lx.scan = found (b :: after) := by rw [scan, hskip]
      have hb : b ≠ 0 := by
        rintro rfl
        exact hfound (by rw [hscan]; rfl)
      have hread := found_append he (hend.of_suffix hsuffix) hb (fun reason h => hok reason
        (by rw [next_eq, hscan, h]; rfl)) more
      have hscan' : ({ lx with rest := lx.rest ++ more } : Lexer).scan =
          (lx.scan.1, lx.scan.2 ++ more) := by rw [scan, hskip', hread, hscan]
      refine ⟨by rw [hscan']; exact hfound, ?_⟩
      rw [next_eq, next_eq, hscan', hskip, hskip']

/-- A token is read in the same way when more bytes follow. -/
theorem next_append {lx : Lexer} (hw : Whole lx.rest) (hfound : lx.scan.1 ≠ .eof)
    (hok : ∀ reason, lx.next.1 ≠ .error reason) (more : List UInt8) :
    ({ lx with rest := lx.rest ++ more } : Lexer).scan.1 ≠ .eof ∧
      ({ lx with rest := lx.rest ++ more } : Lexer).next =
        (lx.next.1, { lx.next.2 with rest := lx.next.2.rest ++ more }) ∧
      Whole lx.next.2.rest := by
  obtain ⟨hfound', hnext⟩ := Ended.next_append hw.newline_last delimits_newline hfound hok more
  exact ⟨hfound', hnext, hw.of_suffix (next_suffix hfound)⟩

end MiniC.Lexer
