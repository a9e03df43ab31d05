import MiniC.Proofs.Syntax.Lexemes

/-!
# Lines

A byte of a source stands in code, in a comment or in a literal, and the bytes in front of it say
which of these it is (`Place`). The lexer counts the newlines that it meets between tokens. It meets
all those in code and behind comments there, and none of those in literals. So its line is always
one more than the number of newlines outside literals among the bytes that it has read
(`line_iterate_next`). Behind a literal that goes over several lines it is too small
(`line_ne_behind_literal`).
-/

namespace MiniC.Lexer

/-! ## Places in a source -/

/-- Where the next byte of a source stands: in code, in code behind a slash, in a comment, in a
literal, or in a literal behind a backslash. -/
inductive Place where
  | code
  | slash
  | comment
  | literal (quote : UInt8)
  | escape (quote : UInt8)
  deriving DecidableEq, Repr

namespace Place

/-- The place behind a byte that stands in code. -/
def behind (b : UInt8) : Place :=
  if Char.ofUInt8 b = '#' then comment
  else if Char.ofUInt8 b = '/' then slash
  else if Char.ofUInt8 b = '"' ∨ Char.ofUInt8 b = '\'' then literal b
  else code

/-- The place behind a byte. -/
def step : Place → UInt8 → Place
  | code, b => behind b
  | slash, b => if Char.ofUInt8 b = '/' then comment else behind b
  | comment, b => if b = Byte.newline then code else comment
  | literal quote, b =>
    if b = quote then code else if Char.ofUInt8 b = '\\' then escape quote else literal quote
  | escape quote, _ => literal quote

/-- The place behind some bytes. -/
def after (m : Place) (bytes : List UInt8) : Place := bytes.foldl step m

def isInside : Place → Bool
  | literal _ | escape _ => true
  | code | slash | comment => false

/-- The bytes that stand outside literals. -/
def outside (m : Place) : List UInt8 → List UInt8
  | [] => []
  | b :: rest => if m.isInside then (m.step b).outside rest else b :: (m.step b).outside rest

theorem outside_append (m : Place) (bytes more : List UInt8) :
    m.outside (bytes ++ more) = m.outside bytes ++ (m.after bytes).outside more := by
  induction bytes generalizing m with
  | nil => rfl
  | cons b bytes ih =>
    rw [List.cons_append, outside, outside, ih, after, after, List.foldl_cons]
    split <;> rfl

end Place

/-- From the place `m`, bytes are read up to those that `t` leaves. Their newlines outside literals
are added to the line, and the place behind them is as `good` says. -/
def Covers (m : Place) (s t : List UInt8 × Nat) (good : Place → List UInt8 → Prop) : Prop :=
  ∃ more, s.1 = more ++ t.1 ∧ t.2 = s.2 + (m.outside more).count Byte.newline ∧
    good (m.after more) t.1

namespace Covers

variable {m : Place} {b : UInt8} {bytes : List UInt8} {line : Nat} {s t u : List UInt8 × Nat}
  {good good' : Place → List UInt8 → Prop}

theorem stop (h : good m s.1) : Covers m s s good := ⟨[], rfl, rfl, h⟩

theorem trans (h : Covers m s t good) (h' : ∀ m', good m' t.1 → Covers m' t u good') :
    Covers m s u good' := by
  obtain ⟨first, hfirst, hline, hgood⟩ := h
  obtain ⟨more, hmore, hline', hgood'⟩ := h' _ hgood
  have hafter : m.after (first ++ more) = (m.after first).after more := List.foldl_append
  refine ⟨first ++ more, ?_, ?_, hafter ▸ hgood'⟩
  · rw [hfirst, hmore, List.append_assoc]
  · rw [hline', hline, Place.outside_append, List.count_append, Nat.add_assoc]

theorem cons (h : m.isInside = true ∨ b ≠ Byte.newline)
    (hrest : Covers (m.step b) (bytes, line) t good) : Covers m (b :: bytes, line) t good := by
  obtain ⟨more, hmore, hline, hgood⟩ := hrest
  refine ⟨b :: more, congrArg (b :: ·) hmore, ?_, hgood⟩
  have hcount : (m.outside (b :: more)).count Byte.newline =
      ((m.step b).outside more).count Byte.newline := by
    rw [Place.outside]
    split
    · rfl
    · exact List.count_cons_of_ne (h.resolve_left ‹_›)
  rw [hcount]
  exact hline

theorem newline (h : m.isInside = false)
    (hrest : Covers (m.step Byte.newline) (bytes, line + 1) t good) :
    Covers m (Byte.newline :: bytes, line) t good := by
  obtain ⟨more, hmore, hline, hgood⟩ := hrest
  refine ⟨Byte.newline :: more, congrArg (_ :: ·) hmore, ?_, hgood⟩
  rw [Place.outside, h, if_neg Bool.false_ne_true, List.count_cons_self, hline]
  omega

end Covers

/-- Nothing is read from the bytes any more. -/
def AtEnd (bytes : List UInt8) : Prop := bytes = [] ∨ ∃ rest, bytes = 0 :: rest

/-- The place `m` is outside literals, and the given bytes lead from it as they lead from `m'`. -/
structure StepsAs (m m' : Place) (bytes : List UInt8) : Prop where
  outside : m.isInside = false
  step_eq : ∀ b ∈ bytes.head?, m.step b = m'.step b

theorem stepsAs_code (bytes : List UInt8) : StepsAs .code .code bytes := ⟨rfl, fun _ _ => rfl⟩

theorem stepsAs_comment (bytes : List UInt8) : StepsAs .comment .comment bytes :=
  ⟨rfl, fun _ _ => rfl⟩

/-! ## Blanks and comments -/

/-- A token begins at the place `m` with the bytes. -/
inductive Begins (m : Place) : List UInt8 → Prop
  | intro {b : UInt8} {after : List UInt8} (hstep : m.step b = .behind b) (hzero : b ≠ 0)
      (hnewline : b ≠ Byte.newline) (hhash : Char.ofUInt8 b ≠ '#')
      (hslash : Char.ofUInt8 b = '/' → after.head? ≠ some '/'.toUInt8) : Begins m (b :: after)

theorem behind_of_isBlank {b : UInt8} (h : Byte.isBlank b = true) : Place.behind b = .code := by
  simp only [Byte.isBlank, Bool.or_eq_true, decide_eq_true_eq] at h
  rcases h with (((rfl | rfl) | rfl) | rfl) | rfl <;> rfl

/-- Skipping counts the newlines that it skips, and goes on to a token or to the end. -/
theorem covers_skip {comment : Bool} {m : Place} {bytes : List UInt8} {line : Nat}
    (h : StepsAs m (if comment then .comment else .code) bytes) :
    Covers m (bytes, line) (skip comment bytes line)
      fun m' rest => AtEnd rest ∨ Begins m' rest := by
  fun_induction skip comment bytes line generalizing m with
  | case1 => exact .stop (.inl (.inl rfl))
  | case2 comment rest line ih =>
    have hstep : m.step Byte.newline = .code := by
      rw [h.step_eq _ rfl]
      cases comment <;> rfl
    exact .newline h.outside (ih (hstep ▸ stepsAs_code rest))
  | case3 => exact .stop (.inl (.inr ⟨_, rfl⟩))
  | case4 b rest line hnewline hzero ih =>
    have hstep : m.step b = .comment := by
      rw [h.step_eq b rfl]
      exact if_neg hnewline
    exact .cons (.inr hnewline) (ih (hstep ▸ stepsAs_comment rest))
  | case5 comment b rest line hnewline hzero hcode hhash ih =>
    have hstep : m.step b = .comment := by
      rw [h.step_eq b rfl, if_neg hcode]
      exact if_pos hhash
    exact .cons (.inr hnewline) (ih (hstep ▸ stepsAs_comment rest))
  | case6 comment b rest line hnewline hzero hcode hhash hslash ih =>
    have hstep : m.step b = .slash := by
      rw [h.step_eq b rfl, if_neg hcode]
      exact (if_neg hhash).trans (if_pos hslash.1)
    -- the second slash leads to the comment
    refine .cons (.inr hnewline) (ih (hstep ▸ ⟨rfl, fun c hc => ?_⟩))
    obtain rfl := Option.some.inj (hslash.2.symm.trans hc)
    rfl
  | case7 comment b rest line hnewline hzero hcode hhash hslash hblank ih =>
    have hstep : m.step b = .code := by
      rw [h.step_eq b rfl, if_neg hcode]
      exact behind_of_isBlank hblank
    exact .cons (.inr hnewline) (ih (hstep ▸ stepsAs_code rest))
  | case8 comment b rest line hnewline hzero hcode hhash hslash hblank =>
    refine .stop (.inr (.intro ?_ hzero hnewline hhash fun hb hrest => ?_))
    · rw [h.step_eq b rfl, if_neg hcode]
      rfl
    · exact hslash ⟨hb, hrest⟩

/-! ## Tokens -/

/-- The place is as good as one in code, or nothing is left to be read. -/
def Resting (m : Place) (bytes : List UInt8) : Prop := AtEnd bytes ∨ StepsAs m .code bytes

theorem resting_code (bytes : List UInt8) : Resting .code bytes := .inr (stepsAs_code bytes)

theorem covers_literal (quote : UInt8) (bytes read : List UInt8) (line : Nat) :
    Covers (.literal quote) (bytes, line) ((literal quote bytes read).2, line) Resting := by
  fun_induction literal quote bytes read with
  | case1 => exact .stop (.inl (.inl rfl))
  | case2 => exact .stop (.inl (.inr ⟨_, rfl⟩))
  | case3 read rest hzero =>
    refine .cons (.inl rfl) (.stop ?_)
    rw [Place.step, if_pos rfl]
    exact resting_code _
  | case4 b read hzero hquote hback =>
    exact .cons (.inl rfl) (.stop (.inl (.inl rfl)))
  | case5 => exact .cons (.inl rfl) (.stop (.inl (.inr ⟨_, rfl⟩)))
  | case6 b read hzero hquote hback e rest he ih =>
    refine .cons (.inl rfl) (.cons (.inl ?_) ?_)
    · rw [Place.step, if_neg hquote, if_pos hback]
      rfl
    · rw [Place.step, if_neg hquote, if_pos hback]
      exact ih
  | case7 b rest read hzero hquote hback ih =>
    refine .cons (.inl rfl) ?_
    rw [Place.step, if_neg hquote, if_neg hback]
    exact ih

/-- The characters that lead out of code or to another line. -/
def marks : List Char := ['\n', '#', '/', '"', '\'']

theorem toUInt8_ofUInt8 (b : UInt8) : (Char.ofUInt8 b).toUInt8 = b := by
  simp [Char.toUInt8, Char.ofUInt8]

theorem not_mem_marks {p : UInt8 → Bool} (hp : marks.any (p ·.toUInt8) = false) {b : UInt8}
    (hb : p b = true) : Char.ofUInt8 b ∉ marks := by
  intro hmem
  have hany := List.any_of_mem (p := (p ·.toUInt8)) hmem (by rwa [toUInt8_ofUInt8])
  rw [hp] at hany
  cases hany

section Plain

variable {b : UInt8} {bytes : List UInt8} {line : Nat} {t : List UInt8 × Nat}
  {good : Place → List UInt8 → Prop}

theorem behind_of_not_mem (hb : Char.ofUInt8 b ∉ marks) : Place.behind b = .code := by
  simp only [marks, List.mem_cons, List.not_mem_nil, or_false, not_or] at hb
  obtain ⟨-, hhash, hslash, hquotes⟩ := hb
  rw [Place.behind, if_neg hhash, if_neg hslash, if_neg (not_or.mpr hquotes)]

theorem covers_plain (hb : Char.ofUInt8 b ∉ marks) (h : Covers .code (bytes, line) t good) :
    Covers .code (b :: bytes, line) t good := by
  refine .cons (.inr ?_) ?_
  · rintro rfl
    exact hb (by decide)
  · rw [Place.step, behind_of_not_mem hb]
    exact h

theorem covers_dropWhile {p : UInt8 → Bool} (hp : marks.any (p ·.toUInt8) = false)
    (bytes : List UInt8) (line : Nat) :
    Covers .code (bytes, line) (bytes.dropWhile p, line) Resting := by
  induction bytes with
  | nil => exact .stop (resting_code _)
  | cons b bytes ih =>
    cases hb : p b with
    | false =>
      rw [List.dropWhile_cons_of_neg (by simp [hb])]
      exact .stop (resting_code _)
    | true =>
      rw [List.dropWhile_cons_of_pos hb]
      exact covers_plain (not_mem_marks hp hb) ih

theorem covers_number (first : UInt8) (rest : List UInt8) (line : Nat) :
    Covers .code (rest, line) ((number first rest).2, line) Resting := by
  unfold number
  split
  · cases rest with
    | nil => exact .stop (resting_code _)
    | cons x rest =>
      dsimp only
      split
      · rename_i hx
        refine covers_plain ?_ (covers_dropWhile rfl rest line)
        rcases hx with hx | hx <;> rw [hx] <;> decide
      · exact covers_dropWhile rfl (x :: rest) line
  · exact covers_dropWhile rfl rest line

theorem not_mem_marks_of_pair? {c d : Char} {token : Token} (h : pair? c d = some token) :
    c ∉ marks ∧ d ∉ marks := by
  unfold pair? at h
  split at h <;> first | exact ⟨by decide, by decide⟩ | cases h

end Plain

theorem covers_operator {b : UInt8} {after : List UInt8} (line : Nat)
    (hquotes : Char.ofUInt8 b ≠ '"' ∧ Char.ofUInt8 b ≠ '\'') (hhash : Char.ofUInt8 b ≠ '#')
    (hslash : Char.ofUInt8 b = '/' → after.head? ≠ some '/'.toUInt8) :
    Covers (.behind b) (after, line) ((operator b after).2, line) Resting := by
  rw [operator]
  split
  · rename_i token htoken
    obtain ⟨second, hsecond, hpair⟩ := Option.bind_eq_some_iff.mp htoken
    obtain ⟨rest, rfl⟩ := List.head?_eq_some_iff.mp hsecond
    obtain ⟨hb, hd⟩ := not_mem_marks_of_pair? hpair
    rw [behind_of_not_mem hb]
    exact covers_plain hd (.stop (resting_code _))
  · refine .stop (.inr ?_)
    by_cases hb : Char.ofUInt8 b = '/'
    · rw [Place.behind, if_neg hhash, if_pos hb]
      refine ⟨rfl, fun c hc => if_neg fun hc' => hslash hb ?_⟩
      rw [hc, ← hc', toUInt8_ofUInt8]
    · rw [Place.behind, if_neg hhash, if_neg hb, if_neg (not_or.mpr hquotes)]
      exact stepsAs_code after

theorem covers_quoted {b : UInt8} (hb : Char.ofUInt8 b = '"' ∨ Char.ofUInt8 b = '\'')
    (after read : List UInt8) (line : Nat) :
    Covers (.behind b) (after, line) ((literal b after read).2, line) Resting := by
  have hbehind : Place.behind b = .literal b := by
    rw [Place.behind, if_neg (by rcases hb with hb | hb <;> simp [hb]),
      if_neg (by rcases hb with hb | hb <;> simp [hb]), if_pos hb]
  rw [hbehind]
  exact covers_literal b after read line

theorem covers_found {m : Place} {bytes : List UInt8} (line : Nat) (h : Begins m bytes) :
    Covers m (bytes, line) ((found bytes).2, line) Resting := by
  obtain ⟨hstep, hzero, hnewline, hhash, hslash⟩ := h
  rename_i b after
  refine .cons (.inr hnewline) ?_
  rw [hstep]
  dsimp only [found]
  rw [if_neg hzero]
  split_ifs with hletter hdigit hquote hquote'
  · rw [behind_of_not_mem (not_mem_marks (p := Byte.isLetter) rfl hletter)]
    exact covers_dropWhile rfl after line
  · rw [behind_of_not_mem (not_mem_marks (p := Byte.isDigit) rfl hdigit)]
    exact covers_number b after line
  · have hliteral := covers_quoted (.inl hquote) after [] line
    split <;> simp_all
  · have hliteral := covers_quoted (.inr hquote') after [] line
    split <;> simp_all
  · exact covers_operator line ⟨hquote, hquote'⟩ hhash hslash

/-! ## Reading on -/

theorem skip_of_atEnd {bytes : List UInt8} (h : AtEnd bytes) (line : Nat) :
    skip false bytes line = (bytes, line) := by
  rcases h with rfl | ⟨rest, rfl⟩ <;> rfl

theorem found_of_atEnd {bytes : List UInt8} (h : AtEnd bytes) : (found bytes).2 = bytes := by
  rcases h with rfl | ⟨rest, rfl⟩ <;> rfl

/-- A reading step counts the newlines outside literals that it reads. -/
theorem covers_next {m : Place} {lx : Lexer} (h : Resting m lx.rest) :
    Covers m (lx.rest, lx.line) (lx.next.2.rest, lx.next.2.line) Resting := by
  rw [next_eq]
  dsimp only [scan]
  rcases h with hend | hsteps
  · rw [skip_of_atEnd hend, found_of_atEnd hend]
    exact .stop (.inl hend)
  · have hskip : Covers m (lx.rest, lx.line) (skip false lx.rest lx.line) _ := covers_skip hsteps
    refine hskip.trans fun m' hm' => ?_
    rcases hm' with hend | hbegins
    · rw [found_of_atEnd hend]
      exact .stop (.inl hend)
    · exact covers_found _ hbegins

/-- The line that the lexer has reached. After any number of reading steps, successful or not, it is
one more than the number of newlines outside literals among the bytes that have been read. -/
theorem line_iterate_next (source : List UInt8) (symbols : SymbolTable) (n : Nat) :
    ∃ consumed, source = consumed ++ ((·.next.2)^[n] (ofSource source symbols)).rest ∧
      ((·.next.2)^[n] (ofSource source symbols)).line =
        1 + (Place.code.outside consumed).count Byte.newline := by
  have hcovers : Covers .code (source, 1) (((·.next.2)^[n] (ofSource source symbols)).rest,
      ((·.next.2)^[n] (ofSource source symbols)).line) Resting := by
    induction n with
    | zero => exact .stop (resting_code source)
    | succ n ih =>
      rw [Function.iterate_succ_apply']
      exact ih.trans fun m hm => covers_next hm
  obtain ⟨consumed, hconsumed, hline, -⟩ := hcovers
  exact ⟨consumed, hconsumed, hline⟩

/-- A newline between quotes is read and not counted. -/
theorem line_ne_behind_literal : ¬ ∀ (source : List UInt8) (symbols : SymbolTable) (n : Nat)
    (consumed : List UInt8),
    source = consumed ++ ((·.next.2)^[n] (ofSource source symbols)).rest →
      ((·.next.2)^[n] (ofSource source symbols)).line = 1 + consumed.count Byte.newline := by
  intro h
  have hline := h [39, 10, 39] (SymbolTable.builtin 0) 1 [39, 10, 39] rfl
  exact absurd hline (by decide)

end MiniC.Lexer
