import MiniC.Proofs.Compiling.Actions
import MiniC.Proofs.Machine.Cells

/-!
# Words that encode code

The two halves of the opcode table, `withOperand?` and `alone?`, are inverse to `opcode`. So an
instruction is decoded from its own words, whatever stands behind them (`decodeFrom_encode_append`),
and an instruction that is decoded took exactly the words that encode it
(`encodeAll_of_decodeFrom`). A stream of words is accepted exactly when it encodes a list of
instructions, and that list is then what is decoded (`decode_eq_ok_iff`).
-/

namespace MiniC.Instr

/-! ## The opcode table -/

theorem opcode_lt (i : Instr) : i.opcode < 44 := by
  cases i with
  | branch condition target => cases condition <;> simp [opcode]
  | load width | store width => cases width <;> simp [opcode]
  | binary op => cases op <;> decide
  | service s => cases s <;> decide
  | _ => simp [opcode]

theorem toUnsigned_opcode (i : Instr) : (Word.ofNat i.opcode).toUnsigned = i.opcode := by
  have hlt := i.opcode_lt
  exact Word.toUnsigned_ofNat (by omega)

theorem withOperand?_opcode {i : Instr} {n : Word} (h : i.operand? = some n) :
    ∃ make, withOperand? i.opcode = some make ∧ make n = i := by
  cases i with
  | branch condition target =>
    obtain rfl := Option.some.inj h
    cases condition <;> exact ⟨_, rfl, by simp⟩
  | call target =>
    obtain rfl := Option.some.inj h
    exact ⟨_, rfl, by simp⟩
  | lea n | imm n | callCell n | callSlot n | enter n | adjust n =>
    obtain rfl := Option.some.inj h
    exact ⟨_, rfl, rfl⟩
  | _ => simp [operand?] at h

theorem alone?_opcode {i : Instr} (h : i.operand? = none) :
    withOperand? i.opcode = none ∧ alone? i.opcode = some i := by
  cases i with
  | leave | push => exact ⟨rfl, rfl⟩
  | load width | store width => cases width <;> exact ⟨rfl, rfl⟩
  | binary op => cases op <;> exact ⟨rfl, rfl⟩
  | service s => cases s <;> exact ⟨rfl, rfl⟩
  | _ => simp [operand?] at h

theorem opcode_of_withOperand? {k : Nat} {make : Word → Instr} (h : withOperand? k = some make)
    (n : Word) : (make n).opcode = k ∧ (make n).operand? = some n := by
  unfold withOperand? at h
  split at h
  case h_11 => simp at h
  all_goals
    obtain rfl := Option.some.inj h
    exact ⟨rfl, by simp [operand?]⟩

theorem opcode_of_alone? {k : Nat} {i : Instr} (h : alone? k = some i) :
    i.opcode = k ∧ i.operand? = none := by
  unfold alone? at h
  split at h
  case h_7 =>
    split_ifs at h with hlow hhigh
    · obtain ⟨op, hop, rfl⟩ := Option.map_eq_some_iff.mp h
      obtain ⟨hlt, rfl⟩ := List.getElem?_eq_some_iff.mp hop
      refine ⟨?_, rfl⟩
      rw [opcode, BinOp.opcode, List.Nodup.idxOf_getElem (by decide)]
      omega
    · obtain ⟨s, hs, rfl⟩ := Option.map_eq_some_iff.mp h
      obtain ⟨hlt, rfl⟩ := List.getElem?_eq_some_iff.mp hs
      refine ⟨?_, rfl⟩
      rw [opcode, Service.opcode, List.Nodup.idxOf_getElem (by decide)]
      omega
  all_goals
    obtain rfl := Option.some.inj h
    exact ⟨rfl, rfl⟩

theorem encode_of_withOperand? {word : Word} {make : Word → Instr}
    (h : withOperand? word.toUnsigned = some make) (n : Word) : (make n).encode = [word, n] := by
  obtain ⟨hopcode, hoperand⟩ := opcode_of_withOperand? h n
  rw [encode, hopcode, hoperand, Word.ofNat_toUnsigned]
  rfl

theorem encode_of_alone? {word : Word} {i : Instr} (h : alone? word.toUnsigned = some i) :
    i.encode = [word] := by
  obtain ⟨hopcode, hoperand⟩ := opcode_of_alone? h
  rw [encode, hopcode, hoperand, Word.ofNat_toUnsigned]
  rfl

/-! ## Streams -/

@[simp] theorem encodeAll_nil : encodeAll [] = [] := rfl

@[simp] theorem encodeAll_cons (i : Instr) (code : List Instr) :
    encodeAll (i :: code) = i.encode ++ encodeAll code := List.flatMap_cons

theorem length_encode (i : Instr) : i.encode.length = i.words := by
  cases h : i.operand? <;> simp [encode, words, h]

theorem length_encodeAll (code : List Instr) :
    (encodeAll code).length = Compile.wordCount code := by
  induction code with
  | nil => rfl
  | cons i code ih => simp [length_encode, ih]

/-- An instruction is decoded from its own words, whatever stands behind them. -/
theorem decodeFrom_encode_append (position : Nat) (i : Instr) (rest : List Word) :
    decodeFrom position (i.encode ++ rest) =
      (decodeFrom (position + i.words) rest).map (i :: ·) := by
  cases hn : i.operand? with
  | none =>
    obtain ⟨hnone, halone⟩ := alone?_opcode hn
    simp [encode, words, hn, decodeFrom, i.toUnsigned_opcode, hnone, halone]
  | some n =>
    obtain ⟨make, hmake, hi⟩ := withOperand?_opcode hn
    simp [encode, words, hn, decodeFrom, i.toUnsigned_opcode, hmake, hi]

theorem decodeFrom_encodeAll (position : Nat) (code : List Instr) :
    decodeFrom position (encodeAll code) = .ok code := by
  induction code generalizing position with
  | nil => rfl
  | cons i code ih =>
    rw [encodeAll_cons, decodeFrom_encode_append, ih]
    rfl

theorem map_eq_ok {ε α β : Type} {f : α → β} {x : Except ε α} {b : β} (h : x.map f = .ok b) :
    ∃ a, x = .ok a ∧ f a = b := by
  cases x with
  | error e => simp [Except.map] at h
  | ok a => exact ⟨a, rfl, Except.ok.inj h⟩

/-- An instruction that is decoded took the words that encode it, so the words of the whole list are
those that were read. -/
theorem encodeAll_of_decodeFrom {position : Nat} {words : List Word} {code : List Instr}
    (h : decodeFrom position words = .ok code) : encodeAll code = words := by
  fun_induction decodeFrom position words generalizing code with
  | case1 => rw [← Except.ok.inj h, encodeAll_nil]
  | case2 position word make operand rest hmake ih =>
    obtain ⟨code', hcode, rfl⟩ := map_eq_ok h
    rw [encodeAll_cons, encode_of_withOperand? hmake, ih hcode]
    rfl
  | case3 => simp at h
  | case4 position word rest hnone i halone ih =>
    obtain ⟨code', hcode, rfl⟩ := map_eq_ok h
    rw [encodeAll_cons, encode_of_alone? halone, ih hcode]
    rfl
  | case5 => simp at h

/-- Decoding accepts exactly the streams that encode a list of instructions, and yields the list. -/
theorem decode_eq_ok_iff (words : List Word) (code : List Instr) :
    decode words = .ok code ↔ encodeAll code = words := by
  constructor
  · exact encodeAll_of_decodeFrom
  · rintro rfl
    exact decodeFrom_encodeAll 0 code

-- Operands that look like opcodes, and a target past the signed range.
example : decode [1, 10, 3, -1, 10] = .ok [.imm 10, .call 18446744073709551615, .leave] := by decide

end MiniC.Instr
