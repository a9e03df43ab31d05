import MiniC.Proofs.Code.Encoding

/-!
# Words that are no code

Decoding reads one instruction after the other, so it fails at the first word behind instructions
that is bad: no opcode, or an opcode at the end whose operand is missing (`Bad`). The position that
the error names is that of the word, and the words in front of it decode (`decode_eq_error_iff`). An
operand is never looked at as an opcode.
-/

namespace MiniC.Instr

/-! ## The range of opcodes -/

/-- Opcodes below 10 take an operand. -/
theorem isSome_withOperand?_iff {k : Nat} : (withOperand? k).isSome ↔ k < 10 := by
  by_cases hlt : k < 10
  · have hall : ∀ k < 10, (withOperand? k).isSome := by decide
    exact iff_of_true (hall k hlt) hlt
  · obtain ⟨n, rfl⟩ := Nat.exists_eq_add_of_le' (Nat.le_of_not_lt hlt)
    exact iff_of_false (by simp [withOperand?]) hlt

/-- Opcodes from 10 to 43 stand alone. -/
theorem isSome_alone?_iff {k : Nat} : (alone? k).isSome ↔ 10 ≤ k ∧ k < 44 := by
  constructor
  · intro h
    obtain ⟨i, hi⟩ := Option.isSome_iff_exists.mp h
    obtain ⟨rfl, hoperand⟩ := opcode_of_alone? hi
    refine ⟨Nat.le_of_not_lt fun hlt => ?_, i.opcode_lt⟩
    have hsome := isSome_withOperand?_iff.mpr hlt
    rw [(alone?_opcode hoperand).1] at hsome
    simp at hsome
  · rintro ⟨hlo, hhi⟩
    have hall : ∀ k < 44, 10 ≤ k → (alone? k).isSome := by decide
    exact hall k hhi hlo

/-- The mnemonic goes with the opcode, whatever the operand. -/
theorem mnemonic_of_withOperand? {i : Instr} {make : Word → Instr}
    (h : withOperand? i.opcode = some make) (n : Word) : (make n).mnemonic = i.mnemonic := by
  cases hoperand : i.operand? with
  | none =>
    rw [(alone?_opcode hoperand).1] at h
    simp at h
  | some m =>
    obtain ⟨make', hmake', hi⟩ := withOperand?_opcode hoperand
    obtain rfl := Option.some.inj (h.symm.trans hmake')
    rw [← hi]
    unfold withOperand? at h
    split at h
    case h_11 => simp at h
    all_goals
      obtain rfl := Option.some.inj h
      rfl

/-! ## Where decoding fails -/

theorem decodeFrom_encodeAll_append (position : Nat) (code : List Instr) (rest : List Word) :
    decodeFrom position (encodeAll code ++ rest) =
      (decodeFrom (position + (encodeAll code).length) rest).map (code ++ ·) := by
  induction code generalizing position with
  | nil =>
    rw [encodeAll_nil, List.nil_append, List.length_nil, Nat.add_zero]
    cases decodeFrom position rest <;> rfl
  | cons i code ih =>
    rw [encodeAll_cons, List.append_assoc, decodeFrom_encode_append, ih, List.length_append,
      length_encode, Nat.add_assoc]
    cases decodeFrom (position + (i.words + (encodeAll code).length)) rest <;> rfl

theorem map_eq_error {ε α β : Type} {f : α → β} {x : Except ε α} {e : ε} :
    x.map f = .error e ↔ x = .error e := by
  cases x <;> simp [Except.map]

/-- What is wrong with the first of the words from `position` on: it is no opcode, or its operand is
missing. -/
inductive Bad (position : Nat) : List Word → DecodeError → Prop
  | unknown {word : Word} {rest : List Word} (h : 44 ≤ word.toUnsigned) :
      Bad position (word :: rest) (.unknownOpcode word position)
  | truncated {i : Instr} (h : i.opcode < 10) :
      Bad position [Word.ofNat i.opcode] (.missingOperand i.mnemonic position)

theorem Bad.decodeFrom_eq {position : Nat} {words : List Word} {e : DecodeError}
    (h : Bad position words e) : decodeFrom position words = .error e := by
  cases h with
  | @unknown word rest h =>
    have hnone : withOperand? word.toUnsigned = none := by
      rw [← Option.not_isSome_iff_eq_none, isSome_withOperand?_iff]
      omega
    have halone : alone? word.toUnsigned = none := by
      rw [← Option.not_isSome_iff_eq_none, isSome_alone?_iff]
      omega
    simp [decodeFrom, hnone, halone]
  | @truncated i h =>
    obtain ⟨make, hmake⟩ := Option.isSome_iff_exists.mp (isSome_withOperand?_iff.mpr h)
    simp [decodeFrom, i.toUnsigned_opcode, hmake, mnemonic_of_withOperand? hmake]

/-- Decoding fails at the first word that is bad behind the words of some instructions. -/
theorem exists_bad_of_decodeFrom {position : Nat} {words : List Word} {e : DecodeError}
    (h : decodeFrom position words = .error e) :
    ∃ code rest, words = encodeAll code ++ rest ∧
      Bad (position + (encodeAll code).length) rest e := by
  fun_induction decodeFrom position words with
  | case1 => simp at h
  | case2 position word make operand rest hmake ih =>
    obtain ⟨code, rest', rfl, hbad⟩ := ih (map_eq_error.mp h)
    refine ⟨make operand :: code, rest', ?_, ?_⟩
    · rw [encodeAll_cons, encode_of_withOperand? hmake]
      rfl
    · rw [encodeAll_cons, encode_of_withOperand? hmake, List.length_append, ← Nat.add_assoc]
      exact hbad
  | case3 position word make hmake =>
    obtain rfl := Except.error.inj h
    have hopcode := (opcode_of_withOperand? hmake 0).1
    have hlt : (make 0).opcode < 10 := by
      rw [hopcode, ← isSome_withOperand?_iff, hmake]
      rfl
    refine ⟨[], [word], rfl, ?_⟩
    rw [← Word.ofNat_toUnsigned word, ← hopcode]
    exact .truncated hlt
  | case4 position word rest hnone i halone ih =>
    obtain ⟨code, rest', rfl, hbad⟩ := ih (map_eq_error.mp h)
    refine ⟨i :: code, rest', ?_, ?_⟩
    · rw [encodeAll_cons, encode_of_alone? halone]
      rfl
    · rw [encodeAll_cons, encode_of_alone? halone, List.length_append, ← Nat.add_assoc]
      exact hbad
  | case5 position word rest hnone halone =>
    obtain rfl := Except.error.inj h
    refine ⟨[], word :: rest, rfl, .unknown (Nat.le_of_not_lt fun hlt => ?_)⟩
    rw [← Option.not_isSome_iff_eq_none, isSome_withOperand?_iff] at hnone
    rw [← Option.not_isSome_iff_eq_none, isSome_alone?_iff] at halone
    omega

/-- Decoding fails at a position exactly if the words in front of it decode and the word there is
bad. -/
theorem decode_eq_error_iff {words : List Word} {e : DecodeError} :
    decode words = .error e ↔ ∃ position, (∃ code, decode (words.take position) = .ok code) ∧
      Bad position (words.drop position) e := by
  constructor
  · intro h
    obtain ⟨code, rest, rfl, hbad⟩ := exists_bad_of_decodeFrom h
    rw [Nat.zero_add] at hbad
    refine ⟨(encodeAll code).length, ⟨code, ?_⟩, ?_⟩
    · rw [List.take_left]
      exact decodeFrom_encodeAll 0 code
    · rwa [List.drop_left]
  · rintro ⟨position, ⟨code, hcode⟩, hbad⟩
    have hwords := encodeAll_of_decodeFrom hcode
    have hlt : position < words.length := by
      by_contra hge
      rw [List.drop_eq_nil_of_le (Nat.le_of_not_lt hge)] at hbad
      cases hbad
    have hlength : (encodeAll code).length = position := by
      rw [hwords, List.length_take, Nat.min_eq_left (Nat.le_of_lt hlt)]
    calc
      decode words = decodeFrom 0 (encodeAll code ++ words.drop position) := by
        rw [hwords, List.take_append_drop, decode]
      _ = (decodeFrom position (words.drop position)).map (code ++ ·) := by
        rw [decodeFrom_encodeAll_append, Nat.zero_add, hlength]
      _ = .error e := by
        rw [hbad.decodeFrom_eq]
        rfl

/-- The words in front of `position` decode, and the word there is no opcode. -/
def UnknownAt (words : List Word) (opcode : Word) (position : Nat) : Prop :=
  (∃ code, decode (words.take position) = .ok code) ∧ words[position]? = some opcode ∧
    ¬ (0 ≤ opcode.toInt ∧ opcode.toInt ≤ 43)

/-- The words in front of `position` decode, and the word there is the last one and the opcode of
the instruction with the given mnemonic, which takes an operand. -/
def TruncatedAt (words : List Word) (mnemonic : String) (position : Nat) : Prop :=
  (∃ code, decode (words.take position) = .ok code) ∧ position + 1 = words.length ∧
    ∃ opcode, words[position]? = some opcode ∧ 0 ≤ opcode.toInt ∧ opcode.toInt ≤ 9 ∧
      ∃ i : Instr, i.mnemonic = mnemonic ∧ opcode = Word.ofNat i.opcode

theorem decode_eq_unknownOpcode_iff {words : List Word} {opcode : Word} {position : Nat} :
    decode words = .error (.unknownOpcode opcode position) ↔ UnknownAt words opcode position := by
  have hrange : 44 ≤ opcode.toUnsigned ↔ ¬ (0 ≤ opcode.toInt ∧ opcode.toInt ≤ 43) := by
    rw [← not_lt, Word.toUnsigned_lt_iff (by decide)]
    omega
  rw [decode_eq_error_iff, UnknownAt, ← hrange]
  constructor
  · rintro ⟨_, hfront, hbad⟩
    generalize hrest : words.drop _ = rest at hbad
    cases hbad with
    | unknown hword => exact ⟨hfront, by rw [← List.head?_drop, hrest, List.head?_cons], hword⟩
  · rintro ⟨hfront, hget, hword⟩
    obtain ⟨rest, hrest⟩ := List.head?_eq_some_iff.mp (List.head?_drop.trans hget)
    exact ⟨position, hfront, hrest ▸ .unknown hword⟩

theorem decode_eq_missingOperand_iff {words : List Word} {mnemonic : String} {position : Nat} :
    decode words = .error (.missingOperand mnemonic position) ↔
      TruncatedAt words mnemonic position := by
  rw [decode_eq_error_iff, TruncatedAt]
  constructor
  · rintro ⟨_, hfront, hbad⟩
    generalize hrest : words.drop _ = rest at hbad
    cases hbad with
    | @truncated i hlt =>
      have hlength := congrArg List.length hrest
      rw [List.length_drop, List.length_singleton] at hlength
      have hint : (Word.ofNat i.opcode).toInt = i.opcode := Word.toInt_ofNat (by omega)
      exact ⟨hfront, by omega, _, by rw [← List.head?_drop, hrest, List.head?_cons], by omega,
        by omega, i, rfl, rfl⟩
  · rintro ⟨hfront, hlast, _, hget, -, hle, i, rfl, rfl⟩
    obtain ⟨rest, hrest⟩ := List.head?_eq_some_iff.mp (List.head?_drop.trans hget)
    have hlength := congrArg List.length hrest
    rw [List.length_drop, List.length_cons] at hlength
    obtain rfl := List.length_eq_zero_iff.mp (show rest.length = 0 by omega)
    have hint : (Word.ofNat i.opcode).toInt = i.opcode :=
      Word.toInt_ofNat (i.opcode_lt.trans (by decide))
    exact ⟨position, hfront, hrest ▸ .truncated (by omega)⟩

/-- Decoding fails with a word that is no opcode exactly if it is the first one behind words that
decode, and with a missing operand exactly if the last word is the opcode of an instruction that
takes one and the words before it decode. In every other case it succeeds. -/
theorem decode_pinpoints (words : List Word) :
    (∀ opcode position, decode words = .error (.unknownOpcode opcode position) ↔
      UnknownAt words opcode position) ∧
    (∀ mnemonic position, decode words = .error (.missingOperand mnemonic position) ↔
      TruncatedAt words mnemonic position) ∧
    ((∃ code, decode words = .ok code) ↔
      (∀ opcode position, ¬ UnknownAt words opcode position) ∧
        ∀ mnemonic position, ¬ TruncatedAt words mnemonic position) := by
  refine ⟨fun _ _ => decode_eq_unknownOpcode_iff, fun _ _ => decode_eq_missingOperand_iff, ?_⟩
  simp only [← decode_eq_unknownOpcode_iff, ← decode_eq_missingOperand_iff]
  constructor
  · rintro ⟨code, hcode⟩
    simp [hcode]
  · rintro ⟨hunknown, hmissing⟩
    cases h : decode words with
    | ok code => exact ⟨code, rfl⟩
    | error e =>
      cases e with
      | unknownOpcode opcode position => exact absurd h (hunknown opcode position)
      | missingOperand mnemonic position => exact absurd h (hmissing mnemonic position)

-- An operand that is no opcode is passed over, and the opcode behind it lacks its operand.
example : decode [1, 99, 9] = .error (.missingOperand "ADJ" 2) ∧
    decode [15, 9, 9, 44, 1] = .error (.unknownOpcode 44 3) := by decide

end MiniC.Instr
