import MiniC.Proofs.Syntax.Parser

/-!
# Actions that succeed

What follows from the success of a compiling action. A sequence succeeds when each of its parts does
(`bind_eq_ok`), and each basic action says what it did to the state.

`Grows s s' code data` is the frame condition of all of them: between `s` and `s'` the given
instructions and bytes were appended, and the symbol table, the frame and the limits stayed. Moving
through the tokens is followed on the side by a parser (`stream`).
-/

namespace MiniC.Compile

open Syntax (Stream Parser)

variable {α β : Type} {s s' s'' : State}

/-! ## Sequences -/

theorem bind_eq_ok {x : CompileM α} {f : α → CompileM β} {b : β} :
    (x >>= f) s = .ok b s'' ↔ ∃ a s', x s = .ok a s' ∧ f a s' = .ok b s'' := by
  show EStateM.bind x f s = _ ↔ _
  rw [EStateM.bind]
  cases x s with
  | ok a s' =>
    constructor
    · exact fun h => ⟨a, s', rfl, h⟩
    · rintro ⟨_, _, ⟨⟩, h⟩
      exact h
  | error e s' => simp

theorem pure_eq_ok {a b : α} : (pure a : CompileM α) s = .ok b s' ↔ a = b ∧ s = s' := by
  show EStateM.Result.ok a s = .ok b s' ↔ _
  simp

theorem get_eq_ok {a : State} : (get : CompileM State) s = .ok a s' ↔ s = a ∧ s = s' := by
  show EStateM.Result.ok s s = .ok a s' ↔ _
  simp

theorem set_eq_ok {t : State} {u : PUnit} : (set t : CompileM PUnit) s = .ok u s' ↔ t = s' := by
  show EStateM.Result.ok ⟨⟩ t = .ok u s' ↔ _
  simp

theorem modify_eq_ok {f : State → State} {u : PUnit} :
    (modify f : CompileM PUnit) s = .ok u s' ↔ f s = s' := by
  show EStateM.Result.ok ⟨⟩ (f s) = .ok u s' ↔ _
  simp

theorem get_bind (f : State → CompileM α) (s : State) : (get >>= f) s = f s s := rfl

theorem modify_bind (g : State → State) (f : PUnit → CompileM α) (s : State) :
    (modify g >>= f) s = f ⟨⟩ (g s) := rfl

theorem throw_ne_ok {e : CompileError} {a : α} : ¬ (throw e : CompileM α) s = .ok a s' := by
  show ¬ EStateM.Result.error e s = .ok a s'
  simp

theorem fail_ne_ok {r : Reason} {a : α} : ¬ (fail r : CompileM α) s = .ok a s' := by
  rw [fail, bind_eq_ok]
  rintro ⟨t, s₁, -, h⟩
  exact throw_ne_ok h

theorem current_eq_ok {t : Token} : current s = .ok t s' ↔ s.current = t ∧ s = s' := by
  simp only [current, bind_eq_ok, get_eq_ok, pure_eq_ok]
  constructor
  · rintro ⟨_, _, ⟨rfl, rfl⟩, h⟩
    exact h
  · exact fun h => ⟨s, s, ⟨rfl, rfl⟩, h⟩

theorem here_eq_ok {n : Nat} : here s = .ok n s' ↔ s.code.size = n ∧ s = s' := by
  simp only [here, bind_eq_ok, get_eq_ok, pure_eq_ok]
  constructor
  · rintro ⟨_, _, ⟨rfl, rfl⟩, h⟩
    exact h
  · exact fun h => ⟨s, s, ⟨rfl, rfl⟩, h⟩

/-! ## Growth -/

/-- Words that instructions take. -/
def wordCount (code : List Instr) : Nat := (code.map Instr.words).sum

@[simp] theorem wordCount_nil : wordCount [] = 0 := rfl

@[simp] theorem wordCount_cons (i : Instr) (code : List Instr) :
    wordCount (i :: code) = i.words + wordCount code := by
  simp [wordCount]

@[simp] theorem wordCount_append (code code' : List Instr) :
    wordCount (code ++ code') = wordCount code + wordCount code' := by
  simp [wordCount]

theorem length_le_wordCount (code : List Instr) : code.length ≤ wordCount code := by
  induction code with
  | nil => simp
  | cons i code ih =>
    have h : 1 ≤ i.words := by rw [Instr.words]; split <;> omega
    simp only [List.length_cons, wordCount_cons]
    omega

/-- What was appended between two states, and that nothing else changed but the position in the
source and the listing. -/
structure Grows (s s' : State) (code : List Instr) (data : List UInt8) : Prop where
  code_eq : s'.code.toList = s.code.toList ++ code
  data_eq : s'.data.toList = s.data.toList ++ data
  words_eq : s'.words = s.words + wordCount code
  symbols_eq : s'.symbols = s.symbols
  frame_eq : s'.frame = s.frame
  limits_eq : s'.limits = s.limits
  fits : s.words ≤ s.limits.code.toNat → s'.words ≤ s.limits.code.toNat

namespace Grows

variable {code code' : List Instr} {data data' : List UInt8}

theorem refl (s : State) : Grows s s [] [] :=
  ⟨by simp, by simp, by simp, rfl, rfl, rfl, id⟩

theorem trans (h : Grows s s' code data) (h' : Grows s' s'' code' data') :
    Grows s s'' (code ++ code') (data ++ data') where
  code_eq := by rw [h'.code_eq, h.code_eq, List.append_assoc]
  data_eq := by rw [h'.data_eq, h.data_eq, List.append_assoc]
  words_eq := by rw [h'.words_eq, h.words_eq, wordCount_append, Nat.add_assoc]
  symbols_eq := h'.symbols_eq.trans h.symbols_eq
  frame_eq := h'.frame_eq.trans h.frame_eq
  limits_eq := h'.limits_eq.trans h.limits_eq
  fits hs := by
    have h₁ := h'.fits (by rw [h.limits_eq]; exact h.fits hs)
    rwa [h.limits_eq] at h₁

theorem trans_nil (h : Grows s s' code data) (h' : Grows s' s'' [] []) :
    Grows s s'' code data := by
  have h₁ := h.trans h'
  rwa [List.append_nil, List.append_nil] at h₁

theorem code_size (h : Grows s s' code data) : s'.code.size = s.code.size + code.length := by
  have h₁ := congrArg List.length h.code_eq
  simpa using h₁

theorem data_size (h : Grows s s' code data) : s'.data.size = s.data.size + data.length := by
  have h₁ := congrArg List.length h.data_eq
  simpa using h₁

end Grows

/-! ## Tokens -/

/-- The position of a state in its source. -/
def State.stream (s : State) : Stream := ⟨s.current, s.rest.items⟩

theorem Lexemes.next?_eq_none {l : Lexemes} (h : l.next? = none) : l.items = [] := by
  obtain ⟨items, count, hc⟩ := l
  cases items with
  | nil => rfl
  | cons first rest => simp [Lexemes.next?] at h

theorem Lexemes.next?_eq_some {l rest : Lexemes} {first : Lexeme}
    (h : l.next? = some (first, rest)) : l.items = first :: rest.items := by
  obtain ⟨items, count, hc⟩ := l
  cases items with
  | nil => simp [Lexemes.next?] at h
  | cons first' rest' =>
    simp only [Lexemes.next?, Option.some.injEq, Prod.mk.injEq] at h
    obtain ⟨rfl, rfl⟩ := h
    rfl

section Listings

variable {l : Listing}

/-- The text of the next line of a listing. -/
def State.nextLine (s : State) (l : Listing) : List UInt8 :=
  Utf8.encode (Listing.block l.line (Listing.splitLine l.rest).1 (s.code.extract l.listed).toList)

/-- The state after the next line of a listing. -/
def State.recorded (s : State) (l : Listing) : State :=
  { s with listing := some (l.record (s.nextLine l) (Listing.splitLine l.rest).2 s.code.size) }

theorem listLines_of_none (count : Nat) (h : s.listing = none) : listLines count s = .ok () s := by
  cases count with
  | zero => rfl
  | succ count =>
    rw [listLines, get_bind, h]
    rfl

theorem listLines_of_empty (count : Nat) (h : s.listing = some l) (hrest : l.rest.isEmpty = true) :
    listLines count s = .ok () s := by
  cases count with
  | zero => rfl
  | succ count =>
    rw [listLines, get_bind, h]
    dsimp only
    rw [if_pos hrest]
    rfl

theorem listLines_succ (count : Nat) (h : s.listing = some l) (hrest : ¬ l.rest.isEmpty = true) :
    listLines (count + 1) s = if l.listed ≤ s.code.size then
        if l.out.accepts (s.nextLine l) then listLines count (s.recorded l)
        else .error ⟨l.line, .listing Sink.failure⟩ (s.recorded l)
      else .error ⟨l.line, .listingAhead l.listed s.code.size⟩ s := by
  rw [listLines, get_bind, h]
  dsimp only
  rw [if_neg hrest]
  split
  · rw [modify_bind, h]
    show (if l.out.accepts (s.nextLine l) then listLines count
      else throw ⟨l.line, .listing Sink.failure⟩ : CompileM Unit) (s.recorded l) = _
    split <;> rfl
  · rfl

/-- Induction on the lines that are listed. There may be none left, the listing may be ahead of the
code or the sink be full, or a line is listed and others follow. -/
theorem listLines_induction {motive : State → EStateM.Result CompileError State Unit → Prop}
    (stay : ∀ s, motive s (.ok () s))
    (ahead : ∀ s l, s.listing = some l → ¬ l.rest.isEmpty → s.code.size < l.listed →
      motive s (.error ⟨l.line, .listingAhead l.listed s.code.size⟩ s))
    (full : ∀ s l, s.listing = some l → l.out.accepts (s.nextLine l) = false →
      motive s (.error ⟨l.line, .listing Sink.failure⟩ (s.recorded l)))
    (line : ∀ s l r, s.listing = some l → ¬ l.rest.isEmpty → l.listed ≤ s.code.size →
      motive (s.recorded l) r → motive s r)
    (count : Nat) (s : State) : motive s (listLines count s) := by
  induction count generalizing s with
  | zero => exact stay s
  | succ count ih =>
    cases hl : s.listing with
    | none => exact listLines_of_none (count + 1) hl ▸ stay s
    | some l =>
      by_cases hrest : l.rest.isEmpty = true
      · exact listLines_of_empty (count + 1) hl hrest ▸ stay s
      · rw [listLines_succ count hl hrest]
        split_ifs with hle haccepts
        · exact line s l _ hl hrest hle (ih _)
        · exact full s l hl (Bool.eq_false_iff.mpr haccepts)
        · exact ahead s l hl hrest (Nat.lt_of_not_le hle)

theorem listLines_ok {n : Nat} {u : Unit} (h : listLines n s = .ok u s') :
    Grows s s' [] [] ∧ s'.stream = s.stream := by
  refine listLines_induction (motive := fun s r => r = .ok u s' → Grows s s' [] [] ∧
    s'.stream = s.stream) (fun _ h => ?_) (fun _ _ _ _ _ h => ?_) (fun _ _ _ _ h => ?_)
    (fun _ _ _ _ _ _ ih h => ?_) n s h
  · cases h
    exact ⟨.refl _, rfl⟩
  · cases h
  · cases h
  · obtain ⟨hg, hst⟩ := ih h
    exact ⟨⟨hg.code_eq, hg.data_eq, hg.words_eq, hg.symbols_eq, hg.frame_eq, hg.limits_eq, hg.fits⟩,
      hst⟩

end Listings

theorem listBefore_ok {n : Nat} {u : Unit} (h : listBefore n s = .ok u s') :
    Grows s s' [] [] ∧ s'.stream = s.stream := by
  rw [listBefore] at h
  obtain ⟨_, _, hget, h⟩ := bind_eq_ok.mp h
  obtain ⟨rfl, rfl⟩ := get_eq_ok.mp hget
  cases hl : s.listing with
  | none =>
    simp only [hl, pure_eq_ok] at h
    rw [← h.2]
    exact ⟨.refl s, rfl⟩
  | some l =>
    simp only [hl] at h
    exact listLines_ok h

theorem advance_ok {u : Unit} (h : advance s = .ok u s') :
    Grows s s' [] [] ∧ Parser.advance s.stream = some ((), s'.stream) := by
  rw [advance] at h
  obtain ⟨_, _, hget, h⟩ := bind_eq_ok.mp h
  obtain ⟨rfl, rfl⟩ := get_eq_ok.mp hget
  cases hn : s.rest.next? with
  | none =>
    simp only [hn, pure_eq_ok] at h
    rw [← h.2]
    refine ⟨.refl s, ?_⟩
    simp only [Parser.advance, State.stream, Lexemes.next?_eq_none hn]
  | some next =>
    obtain ⟨lexeme, rest⟩ := next
    simp only [hn] at h
    cases ht : lexeme.token with
    | error reason =>
      simp only [ht] at h
      exact absurd h throw_ne_ok
    | ok token =>
      simp only [ht] at h
      obtain ⟨_, s₁, hset, h⟩ := bind_eq_ok.mp h
      rw [set_eq_ok] at hset
      obtain ⟨hg, hst⟩ := listBefore_ok h
      rw [← hset] at hg hst
      refine ⟨⟨hg.code_eq, hg.data_eq, hg.words_eq, hg.symbols_eq, hg.frame_eq, hg.limits_eq,
        hg.fits⟩, ?_⟩
      rw [hst]
      simp only [Parser.advance, State.stream, Lexemes.next?_eq_some hn, ht]

theorem expect_ok {t : Token} {r : Reason} {u : Unit} (h : expect t r s = .ok u s') :
    Grows s s' [] [] ∧ Parser.expect t s.stream = some ((), s'.stream) := by
  rw [expect] at h
  obtain ⟨_, _, hcur, h⟩ := bind_eq_ok.mp h
  obtain ⟨rfl, rfl⟩ := current_eq_ok.mp hcur
  split at h
  · rename_i ht
    obtain ⟨hg, hst⟩ := advance_ok h
    refine ⟨hg, ?_⟩
    simpa [Parser.expect, State.stream, ht] using hst
  · exact absurd h fail_ne_ok

theorem skipOver_ok {t : Token} {u : Unit} (h : skipOver t s = .ok u s') :
    Grows s s' [] [] ∧ Parser.skipOver t s.stream = some ((), s'.stream) := by
  rw [skipOver] at h
  obtain ⟨_, _, hcur, h⟩ := bind_eq_ok.mp h
  obtain ⟨rfl, rfl⟩ := current_eq_ok.mp hcur
  split at h
  · rename_i ht
    obtain ⟨hg, hst⟩ := advance_ok h
    refine ⟨hg, ?_⟩
    simpa [Parser.skipOver, State.stream, ht] using hst
  · rename_i ht
    rw [pure_eq_ok] at h
    rw [← h.2]
    refine ⟨.refl s, ?_⟩
    simp [Parser.skipOver, State.stream, ht]

/-- A loop and the parser's loop go through the same rounds. `R` relates what they carry. -/
theorem loop_ok {more : Token → Bool} {body : α → CompileM α} {read : β → Parser β}
    {R : α → β → State → Prop}
    (hbody : ∀ {a b s a' s'}, R a b s → more s.current = true → body a s = .ok a' s' →
      ∃ b', read b s.stream = some (b', s'.stream) ∧ R a' b' s')
    {fuel : Nat} {a a' : α} {b : β} (hR : R a b s) (h : loop more body fuel a s = .ok a' s') :
    ∃ b', Parser.loop more read fuel b s.stream = some (b', s'.stream) ∧ R a' b' s' := by
  induction fuel generalizing a b s with
  | zero =>
    rw [loop, pure_eq_ok] at h
    obtain ⟨rfl, rfl⟩ := h
    exact ⟨b, rfl, hR⟩
  | succ fuel ih =>
    rw [loop] at h
    obtain ⟨_, _, hcur, h⟩ := bind_eq_ok.mp h
    obtain ⟨rfl, rfl⟩ := current_eq_ok.mp hcur
    split at h
    · rename_i hm
      obtain ⟨a₁, s₁, hb, h⟩ := bind_eq_ok.mp h
      obtain ⟨b₁, hread, hR₁⟩ := hbody hR hm hb
      obtain ⟨b', hloop, hR'⟩ := ih hR₁ h
      refine ⟨b', ?_, hR'⟩
      have hm' : more s.stream.current = true := hm
      simp [Parser.loop, hm', hread, hloop]
    · rename_i hm
      obtain ⟨rfl, rfl⟩ := pure_eq_ok.mp h
      refine ⟨b, ?_, hR⟩
      have hm' : ¬ more s.stream.current = true := hm
      simp [Parser.loop, hm']

theorem whileToken_ok {more : Token → Bool} {body : α → CompileM α} {read : β → Parser β}
    {R : α → β → State → Prop}
    (hbody : ∀ {a b s a' s'}, R a b s → more s.current = true → body a s = .ok a' s' →
      ∃ b', read b s.stream = some (b', s'.stream) ∧ R a' b' s')
    {a a' : α} {b : β} (hR : R a b s) (h : whileToken more body a s = .ok a' s') :
    ∃ b', Parser.whileToken more read b s.stream = some (b', s'.stream) ∧ R a' b' s' := by
  rw [whileToken] at h
  obtain ⟨_, _, hget, h⟩ := bind_eq_ok.mp h
  obtain ⟨rfl, rfl⟩ := get_eq_ok.mp hget
  rw [s.rest.count_eq] at h
  exact loop_ok hbody hR h

/-! ## Code -/

theorem emit_ok {i : Instr} {n : Nat} (h : emit i s = .ok n s') :
    n = s.code.size ∧ Grows s s' [i] [] ∧ s'.stream = s.stream := by
  rw [emit] at h
  obtain ⟨_, _, hget, h⟩ := bind_eq_ok.mp h
  obtain ⟨rfl, rfl⟩ := get_eq_ok.mp hget
  split at h
  · rename_i hfit
    obtain ⟨_, s₁, hmod, h⟩ := bind_eq_ok.mp h
    rw [modify_eq_ok] at hmod
    obtain ⟨rfl, rfl⟩ := pure_eq_ok.mp h
    subst hmod
    exact ⟨rfl, ⟨by simp, by simp, by simp, rfl, rfl, rfl, fun _ => hfit⟩, rfl⟩
  · exact absurd h fail_ne_ok

theorem emitAll_ok {code : List Instr} {u : Unit} (h : emitAll code s = .ok u s') :
    Grows s s' code [] ∧ s'.stream = s.stream := by
  induction code generalizing s with
  | nil =>
    rw [emitAll, pure_eq_ok] at h
    rw [← h.2]
    exact ⟨.refl s, rfl⟩
  | cons i code ih =>
    rw [emitAll] at h
    obtain ⟨_, s₁, hemit, h⟩ := bind_eq_ok.mp h
    obtain ⟨-, hg, hst⟩ := emit_ok hemit
    obtain ⟨hg', hst'⟩ := ih h
    exact ⟨hg.trans hg', hst'.trans hst⟩

section Origin

variable {s₀ : State} {code : List Instr} {data : List UInt8}

/-- Patching the branch that stands behind `code`, where its target has been left open. -/
theorem patch_ok (condition : Branch) (code code' : List Instr) (target : Nat) {index : Nat}
    {u : Unit} {whole : List Instr} (h : patch index s = .ok u s') (hg : Grows s₀ s whole data)
    (hw : whole = code ++ .branch condition 0 :: code')
    (hi : index = s₀.code.size + code.length) (ht : target = s₀.code.size + whole.length) :
    Grows s₀ s' (code ++ .branch condition (UInt64.ofNat target) :: code') data ∧
      s'.stream = s.stream := by
  rw [patch, modify_eq_ok] at h
  subst h
  refine ⟨⟨?_, hg.data_eq, ?_, hg.symbols_eq, hg.frame_eq, hg.limits_eq, hg.fits⟩, rfl⟩
  · have hlen : index = (s₀.code.toList ++ code).length := by simp [hi]
    have hsize : s.code.size = target := by rw [hg.code_size, ht]
    simp only [Array.toList_modify, hg.code_eq, hsize, hw]
    rw [← List.append_assoc, hlen, List.modify_eq_take_drop, List.take_left, List.drop_left]
    simp [retarget]
  · rw [hg.words_eq, hw]
    simp [Instr.words, Instr.operand?]

theorem back?_of_grows (hg : Grows s₀ s code data) (hne : code ≠ []) :
    s.code.back? = code.getLast? := by
  obtain ⟨last, hlast⟩ := Option.isSome_iff_exists.mp (List.getLast?_isSome.mpr hne)
  rw [← Array.getLast?_toList, hg.code_eq, List.getLast?_append, hlast, Option.some_or]

theorem loadToPush_cases {o : Option Width} (h : loadToPush s = .ok o s') :
    (∃ width, s.code.back? = some (.load width) ∧ o = some width ∧
      s' = { s with code := s.code.pop.push .push }) ∨ o = none := by
  rw [loadToPush] at h
  obtain ⟨_, _, hget, h⟩ := bind_eq_ok.mp h
  obtain ⟨rfl, rfl⟩ := get_eq_ok.mp hget
  rcases hb : s.code.back? with _ | i
  · simp only [hb, pure_eq_ok] at h
    exact .inr h.1.symm
  · cases i with
    | load width =>
      simp only [hb, bind_eq_ok, modify_eq_ok, pure_eq_ok] at h
      obtain ⟨_, _, rfl, rfl, rfl⟩ := h
      exact .inl ⟨width, rfl, rfl, rfl⟩
    | _ =>
      simp only [hb, pure_eq_ok] at h
      exact .inr h.1.symm

theorem dropLoad_cases {b : Bool} (h : dropLoad s = .ok b s') :
    (∃ width, s.code.back? = some (.load width) ∧
      s' = { s with code := s.code.pop, words := s.words - 1 }) ∨ b = false := by
  rw [dropLoad] at h
  obtain ⟨_, _, hget, h⟩ := bind_eq_ok.mp h
  obtain ⟨rfl, rfl⟩ := get_eq_ok.mp hget
  rcases hb : s.code.back? with _ | i
  · simp only [hb, pure_eq_ok] at h
    exact .inr h.1.symm
  · cases i with
    | load width =>
      simp only [hb, bind_eq_ok, modify_eq_ok, pure_eq_ok] at h
      obtain ⟨_, _, rfl, rfl, rfl⟩ := h
      exact .inl ⟨width, rfl, rfl⟩
    | _ =>
      simp only [hb, pure_eq_ok] at h
      exact .inr h.1.symm

theorem loadToPush_ok {width : Width} (h : loadToPush s = .ok (some width) s')
    (hg : Grows s₀ s code data) (hne : code ≠ []) :
    code.getLast? = some (.load width) ∧ Grows s₀ s' (code.dropLast ++ [.push]) data ∧
      s'.stream = s.stream := by
  obtain ⟨w, hback, hw, rfl⟩ | hnone := loadToPush_cases h
  · obtain rfl := Option.some.inj hw
    rw [back?_of_grows hg hne] at hback
    have hcode : code = code.dropLast ++ [.load width] := by
      obtain ⟨front, rfl⟩ := List.getLast?_eq_some_iff.mp hback
      rw [List.dropLast_concat]
    refine ⟨hback, ⟨?_, hg.data_eq, ?_, hg.symbols_eq, hg.frame_eq, hg.limits_eq, hg.fits⟩, rfl⟩
    · rw [Array.toList_push, Array.toList_pop, hg.code_eq, List.dropLast_append_of_ne_nil hne,
        List.append_assoc]
    · have hwords := hg.words_eq
      rw [hcode] at hwords
      simpa [Instr.words, Instr.operand?] using hwords
  · exact absurd hnone (by simp)

theorem dropLoad_ok (h : dropLoad s = .ok true s') (hg : Grows s₀ s code data)
    (hne : code ≠ []) :
    (∃ width, code.getLast? = some (.load width)) ∧ Grows s₀ s' code.dropLast data ∧
      s'.stream = s.stream := by
  obtain ⟨w, hback, rfl⟩ | hnone := dropLoad_cases h
  · rw [back?_of_grows hg hne] at hback
    have hcode : code = code.dropLast ++ [.load w] := by
      obtain ⟨front, rfl⟩ := List.getLast?_eq_some_iff.mp hback
      rw [List.dropLast_concat]
    have hwords := hg.words_eq
    rw [hcode] at hwords
    simp only [wordCount_append, wordCount_cons, wordCount_nil, Instr.words,
      Instr.operand?] at hwords
    refine ⟨⟨w, hback⟩, ⟨?_, hg.data_eq, ?_, hg.symbols_eq, hg.frame_eq, hg.limits_eq, ?_⟩, rfl⟩
    · rw [Array.toList_pop, hg.code_eq, List.dropLast_append_of_ne_nil hne]
    · simp at hwords ⊢
      omega
    · intro hfit
      have := hg.fits hfit
      simp only
      omega
  · exact absurd hnone (by simp)

end Origin

/-! ## Data -/

theorem storeData_ok {bytes : List UInt8} {u : Unit} (h : storeData bytes s = .ok u s') :
    Grows s s' [] bytes ∧ s'.stream = s.stream := by
  rw [storeData] at h
  obtain ⟨_, _, hget, h⟩ := bind_eq_ok.mp h
  obtain ⟨rfl, rfl⟩ := get_eq_ok.mp hget
  split at h
  · rw [modify_eq_ok] at h
    subst h
    exact ⟨⟨by simp, by simp, by simp, rfl, rfl, rfl, id⟩, rfl⟩
  · exact absurd h fail_ne_ok

end MiniC.Compile
