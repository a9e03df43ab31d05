import MiniC.Proofs.Machine.Accesses
import MiniC.Proofs.Output.Instructions
import MiniC.Proofs.Source.Lexing

/-!
# Chains of frames

A stack trace goes from frame to frame, as the words say that the frames keep (`onward`). What it
writes and how it ends depend on the frames that it gets to (`frame?`), whatever the sink is
(`writes_print_of_stop`, `writes_print_of_frame?`). A frame that is followed keeps its words in
memory, and where the trace goes from there is said by the frame pointer alone. So a chain that is
longer than memory comes back to a frame, and from there it never ends (`print_ends_iff`).
-/

namespace MiniC.Backtrace

/-- A frame as a trace meets it: the index of an instruction of its function, and its frame pointer.
-/
structure Frame where
  index : Nat
  bp : Word
  deriving DecidableEq, Repr

/-- Where a trace goes behind a frame. -/
inductive Onward where
  | stop (result : Except Fault Unit)
  | caller (frame : Frame)
  deriving DecidableEq, Repr

/-- The frame that the words kept at `bp` lead to. -/
def onwardFrom (memory : Memory) (bp : Word) : Onward :=
  match memory.loadWord (Machine.wordsAbove bp 1), memory.loadWord bp with
  | .ok returnAddress, .ok caller =>
    if returnAddress ≤ 0 then .stop (.ok ()) else .caller ⟨returnAddress.toInt.toNat - 1, caller⟩
  | .error f, _ => .stop (.error f)
  | _, .error f => .stop (.error f)

section

variable (symbols : SymbolTable) (entry : SymbolId) (memory : Memory)

def onward (f : Frame) : Onward :=
  match symbols.functionAround? f.index with
  | none => .stop (.ok ())
  | some id => if id = entry then .stop (.ok ()) else onwardFrom memory f.bp

/-- The frame that a trace goes on with. -/
def next? (f : Frame) : Option Frame :=
  match onward symbols entry memory f with
  | .stop _ => none
  | .caller g => some g

end

/-- The frame that a trace begins with. -/
def first? (pc : Nat) (bp : Word) : Option Frame :=
  match pc with
  | 0 => none
  | index + 1 => some ⟨index, bp⟩

section

variable (symbols : SymbolTable) (entry : SymbolId) (memory : Memory) (pc : Nat) (bp : Word)

/-- The frame that a trace gets to in `k` steps. -/
def frame? (k : Nat) : Option Frame := (·.bind (next? symbols entry memory))^[k] (first? pc bp)

/-- The line about that frame. -/
def line? (k : Nat) : Option (List UInt8) :=
  (frame? symbols entry memory pc bp k).bind fun f =>
    (symbols.functionAround? f.index).map (line symbols k)

/-- The lines about the first `count` frames. -/
def lines (count : Nat) : List (List UInt8) :=
  (List.range count).filterMap (line? symbols entry memory pc bp)

/-- The chain of frames gets to a frame twice. -/
def ComesBack : Prop :=
  ∃ i j f, i < j ∧ frame? symbols entry memory pc bp i = some f ∧
    frame? symbols entry memory pc bp j = some f

end

/-- How a trace ends. -/
def finish (s : Sink) : Except Fault Unit → EStateM.Result Stop Sink Unit
  | .ok () => .ok () s
  | .error f => .error (.faulted f) s

/-- What a trace does behind the line of a frame. -/
def follow (symbols : SymbolTable) (entry : SymbolId) (memory : Memory) (fuel depth : Nat) :
    Onward → EStateM Stop Sink Unit
  | .stop result => fun s => finish s result
  | .caller g => walk symbols entry memory fuel g.index g.bp depth

variable {symbols : SymbolTable} {entry : SymbolId} {memory : Memory} {pc : Nat} {bp : Word}
  {s : Sink}

/-! ## One frame -/

theorem walk_succ (fuel : Nat) (f : Frame) (depth : Nat) :
    walk symbols entry memory (fuel + 1) f.index f.bp depth =
      (symbols.functionAround? f.index).elim (pure ()) fun id =>
        emit (line symbols depth id) >>= fun _ =>
          follow symbols entry memory fuel (depth + 1) (onward symbols entry memory f) := by
  rw [walk, onward]
  cases symbols.functionAround? f.index with
  | none => rfl
  | some id =>
    dsimp only [Option.elim_some]
    rw [emit_bind]
    congr 1
    funext _
    split_ifs
    · rfl
    · rw [onwardFrom]
      cases memory.loadWord (Machine.wordsAbove f.bp 1) with
      | error e => rfl
      | ok returnAddress =>
        cases memory.loadWord f.bp with
        | error e => rfl
        | ok caller =>
          dsimp only
          split_ifs <;> rfl

/-- A trace writes the line of a frame and then what it writes behind it. -/
theorem writes_walk_succ {f : Frame} {fuel depth : Nat} {more : List UInt8}
    {r : EStateM.Result Stop Sink Unit}
    (h : outlet.Writes
      (follow symbols entry memory fuel (depth + 1) (onward symbols entry memory f)) s more r) :
    outlet.Writes (walk symbols entry memory (fuel + 1) f.index f.bp depth) s
      (((symbols.functionAround? f.index).map (line symbols depth)).getD [] ++ more) r := by
  rw [walk_succ]
  cases hid : symbols.functionAround? f.index with
  | none =>
    rw [onward, hid] at h
    exact h
  | some id => exact (writes_emit _ s).seq h

theorem writes_follow_stop (fuel depth : Nat) (result : Except Fault Unit) :
    outlet.Writes (follow symbols entry memory fuel depth (.stop result)) s [] (finish s result) :=
  .silent fun out => by cases result <;> rfl

/-- A frame that is followed: its function is known and not the last one, and its words are kept in
memory. -/
theorem of_caller {f g : Frame} (h : onward symbols entry memory f = .caller g) :
    (∃ id, symbols.functionAround? f.index = some id) ∧ onwardFrom memory f.bp = .caller g := by
  rw [onward] at h
  cases hid : symbols.functionAround? f.index with
  | none =>
    rw [hid] at h
    cases h
  | some id =>
    rw [hid] at h
    dsimp only at h
    split_ifs at h
    exact ⟨⟨id, rfl⟩, h⟩

/-- The words of a frame that is followed lie in memory. -/
theorem exists_offset_of_caller {bp : Word} {g : Frame} (h : onwardFrom memory bp = .caller g) :
    ∃ k < memory.bytes.size, bp.toInt = dataBase + k := by
  rw [onwardFrom] at h
  cases hra : memory.loadWord (Machine.wordsAbove bp 1) with
  | error e =>
    rw [hra] at h
    cases h
  | ok returnAddress =>
    cases hbp : memory.loadWord bp with
    | error e =>
      rw [hra, hbp] at h
      cases h
    | ok caller =>
      have hspans : memory.Spans bp wordSize := by
        by_contra hno
        obtain ⟨a, length, hfault⟩ := (Memory.guarded_loadWord memory bp).fault hno
        cases hbp.symm.trans hfault
      obtain ⟨-, hlow, hhigh⟩ := hspans
      rw [show (wordSize : Int) = 8 from rfl] at hhigh
      exact ⟨bp.toInt.toNat - dataBase, by omega, by omega⟩

/-! ## Whole chains -/

theorem next?_eq_some_iff {f g : Frame} :
    next? symbols entry memory f = some g ↔ onward symbols entry memory f = .caller g := by
  rw [next?]
  cases onward symbols entry memory f <;> simp

theorem next?_eq_none_iff {f : Frame} :
    next? symbols entry memory f = none ↔
      ∃ result, onward symbols entry memory f = .stop result := by
  rw [next?]
  cases onward symbols entry memory f <;> simp

theorem frame?_succ (k : Nat) : frame? symbols entry memory pc bp (k + 1) =
    (frame? symbols entry memory pc bp k).bind (next? symbols entry memory) :=
  Function.iterate_succ_apply' ..

/-- A chain goes on in the same way from the same frame. -/
theorem frame?_add_congr {i j : Nat}
    (h : frame? symbols entry memory pc bp i = frame? symbols entry memory pc bp j) (n : Nat) :
    frame? symbols entry memory pc bp (i + n) = frame? symbols entry memory pc bp (j + n) := by
  induction n with
  | zero => exact h
  | succ n ih => rw [← Nat.add_assoc, ← Nat.add_assoc, frame?_succ, frame?_succ, ih]

theorem frame?_of_le {i j : Nat} {g : Frame} (h : frame? symbols entry memory pc bp j = some g)
    (hle : i ≤ j) : ∃ f, frame? symbols entry memory pc bp i = some f := by
  obtain ⟨n, rfl⟩ := Nat.exists_eq_add_of_le hle
  induction n generalizing g with
  | zero => exact ⟨g, h⟩
  | succ n ih =>
    rw [← Nat.add_assoc, frame?_succ, Option.bind_eq_some_iff] at h
    obtain ⟨f, hf, -⟩ := h
    exact ih hf (Nat.le_add_right i n)

theorem frame?_none_of_le {i j : Nat} (h : frame? symbols entry memory pc bp i = none)
    (hle : i ≤ j) : frame? symbols entry memory pc bp j = none := by
  cases hj : frame? symbols entry memory pc bp j with
  | none => rfl
  | some g =>
    obtain ⟨f, hf⟩ := frame?_of_le hj hle
    exact absurd (h.symm.trans hf) (by simp)

/-- The frame in front of another one is followed. -/
theorem onward_of_frame? {k : Nat} {f g : Frame} (hf : frame? symbols entry memory pc bp k = some f)
    (hg : frame? symbols entry memory pc bp (k + 1) = some g) :
    onward symbols entry memory f = .caller g := by
  rwa [frame?_succ, hf, Option.bind_some, next?_eq_some_iff] at hg

/-- A chain that gets to a frame twice never ends. -/
theorem ComesBack.exists_frame (h : ComesBack symbols entry memory pc bp) (k : Nat) :
    ∃ f, frame? symbols entry memory pc bp k = some f := by
  obtain ⟨i, j, f, hlt, hi, hj⟩ := h
  -- from the second time on, every frame stands further in front as well
  induction k using Nat.strong_induction_on with
  | h k ih =>
    by_cases hk : k ≤ j
    · exact frame?_of_le hj hk
    · obtain ⟨n, rfl⟩ := Nat.exists_eq_add_of_le (Nat.le_of_not_le hk)
      obtain ⟨g, hg⟩ := ih (i + n) (by omega)
      exact ⟨g, (frame?_add_congr (hj.trans hi.symm) n).trans hg⟩

/-- A chain of more frames than memory has bytes gets to a frame twice. -/
theorem comesBack_of_length {g : Frame}
    (h : frame? symbols entry memory pc bp (memory.bytes.size + 1) = some g) :
    ComesBack symbols entry memory pc bp := by
  have hframes : ∀ i < memory.bytes.size + 1, ∃ f g, frame? symbols entry memory pc bp i = some f ∧
      frame? symbols entry memory pc bp (i + 1) = some g ∧ onwardFrom memory f.bp = .caller g := by
    intro i hi
    obtain ⟨f, hf⟩ := frame?_of_le h (Nat.le_of_lt hi)
    obtain ⟨g, hg⟩ := frame?_of_le h hi
    exact ⟨f, g, hf, hg, (of_caller (onward_of_frame? hf hg)).2⟩
  choose f g hf hg hcaller using hframes
  choose! k hk hbp using fun i hi => exists_offset_of_caller (hcaller i hi)
  obtain ⟨i, hi, j, hj, hne, hsame⟩ := Finset.exists_ne_map_eq_of_card_lt_of_maps_to
    (s := Finset.range (memory.bytes.size + 1)) (t := Finset.range memory.bytes.size) (f := k)
    (by simp) (fun i hi => by simpa using hk i (by simpa using hi))
  rw [Finset.mem_range] at hi hj
  -- where a frame leads is said by its frame pointer, so the frames behind these two are the same
  have hpointer : (f i hi).bp = (f j hj).bp := by
    rw [← Int64.toInt_inj, hbp i hi, hbp j hj, hsame]
  have hnext : g i hi = g j hj := by
    rw [← Onward.caller.injEq, ← hcaller i hi, ← hcaller j hj, hpointer]
  rcases Nat.lt_or_gt_of_ne hne with hlt | hlt
  · exact ⟨i + 1, j + 1, g i hi, Nat.succ_lt_succ hlt, hg i hi, hnext ▸ hg j hj⟩
  · exact ⟨j + 1, i + 1, g i hi, Nat.succ_lt_succ hlt, hnext ▸ hg j hj, hg i hi⟩

/-- A chain that gets to no frame twice ends. -/
theorem exists_stop (hfirst : ∃ f, frame? symbols entry memory pc bp 0 = some f)
    (h : ¬ ComesBack symbols entry memory pc bp) :
    ∃ n ≤ memory.bytes.size, ∃ f result, frame? symbols entry memory pc bp n = some f ∧
      onward symbols entry memory f = .stop result := by
  have hnone : frame? symbols entry memory pc bp (memory.bytes.size + 1) = none := by
    rw [Option.eq_none_iff_forall_not_mem]
    exact fun g hg => h (comesBack_of_length hg)
  generalize memory.bytes.size = n at hnone ⊢
  induction n with
  | zero =>
    obtain ⟨f, hf⟩ := hfirst
    rw [frame?_succ, hf, Option.bind_some, next?_eq_none_iff] at hnone
    obtain ⟨result, hresult⟩ := hnone
    exact ⟨0, le_rfl, f, result, hf, hresult⟩
  | succ n ih =>
    cases hf : frame? symbols entry memory pc bp (n + 1) with
    | none =>
      obtain ⟨m, hm, hstop⟩ := ih hf
      exact ⟨m, Nat.le_succ_of_le hm, hstop⟩
    | some f =>
      rw [frame?_succ, hf, Option.bind_some, next?_eq_none_iff] at hnone
      obtain ⟨result, hresult⟩ := hnone
      exact ⟨n + 1, le_rfl, f, result, hf, hresult⟩

/-! ## What is written -/

theorem flatten_filterMap_range'_succ (f : Nat → Option (List UInt8)) (d n : Nat) :
    ((List.range' d (n + 1)).filterMap f).flatten =
      (f d).getD [] ++ ((List.range' (d + 1) n).filterMap f).flatten := by
  rw [List.range'_succ, List.filterMap_cons]
  cases f d <;> rfl

theorem line?_of_frame? {k : Nat} {f : Frame} (h : frame? symbols entry memory pc bp k = some f) :
    line? symbols entry memory pc bp k =
      (symbols.functionAround? f.index).map (line symbols k) := by
  rw [line?, h, Option.bind_some]

/-- From a frame of a chain on, a trace writes the lines up to the frame that it stops at. -/
theorem writes_walk_of_stop {n d fuel : Nat} {f g : Frame} {result : Except Fault Unit}
    (hf : frame? symbols entry memory pc bp d = some f)
    (hg : frame? symbols entry memory pc bp (d + n) = some g)
    (hstop : onward symbols entry memory g = .stop result) (hfuel : n ≤ fuel) :
    outlet.Writes (walk symbols entry memory (fuel + 1) f.index f.bp d) s
      ((List.range' d (n + 1)).filterMap (line? symbols entry memory pc bp)).flatten
      (finish s result) := by
  induction n generalizing d f fuel with
  | zero =>
    obtain rfl := Option.some.inj (hf.symm.trans hg)
    rw [flatten_filterMap_range'_succ, line?_of_frame? hf]
    exact writes_walk_succ (by rw [hstop]; exact writes_follow_stop fuel (d + 1) result)
  | succ n ih =>
    obtain ⟨fuel, rfl⟩ := Nat.exists_eq_succ_of_ne_zero (show fuel ≠ 0 by omega)
    obtain ⟨f', hf'⟩ := frame?_of_le hg (show d + 1 ≤ d + (n + 1) by omega)
    rw [flatten_filterMap_range'_succ, line?_of_frame? hf]
    refine writes_walk_succ ?_
    rw [onward_of_frame? hf hf']
    exact ih hf' (by rwa [Nat.add_assoc, Nat.add_comm 1]) (by omega)

/-- From a frame of a chain on, a trace writes as many lines as it may, if the chain is so long. -/
theorem writes_walk_of_frame? {fuel d : Nat} {f g : Frame}
    (hf : frame? symbols entry memory pc bp d = some f)
    (hg : frame? symbols entry memory pc bp (d + fuel) = some g) :
    outlet.Writes (walk symbols entry memory fuel f.index f.bp d) s
      ((List.range' d fuel).filterMap (line? symbols entry memory pc bp)).flatten
      (.error .outOfFuel s) := by
  induction fuel generalizing d f with
  | zero => exact .silent fun _ => rfl
  | succ fuel ih =>
    obtain ⟨f', hf'⟩ := frame?_of_le hg (show d + 1 ≤ d + (fuel + 1) by omega)
    rw [flatten_filterMap_range'_succ, line?_of_frame? hf]
    refine writes_walk_succ ?_
    rw [onward_of_frame? hf hf']
    exact ih hf' (by rwa [Nat.add_assoc, Nat.add_comm 1])

/-- The trace of a machine whose chain of frames stops after `n` steps. -/
theorem writes_print_of_stop {n fuel : Nat} {g : Frame} {result : Except Fault Unit}
    (hg : frame? symbols entry memory pc bp n = some g)
    (hstop : onward symbols entry memory g = .stop result) (hfuel : n < fuel) :
    outlet.Writes (printUpTo symbols entry memory fuel pc bp) s
      (lines symbols entry memory pc bp (n + 1)).flatten (finish s result) := by
  obtain ⟨f, hf⟩ := frame?_of_le hg (Nat.zero_le n)
  obtain ⟨fuel, rfl⟩ := Nat.exists_eq_succ_of_ne_zero (Nat.ne_zero_of_lt hfuel)
  rw [← Nat.zero_add n] at hg
  cases pc with
  | zero => cases hf
  | succ index =>
    rw [lines, List.range_eq_range']
    exact writes_walk_of_stop (f := ⟨index, bp⟩) rfl hg hstop (Nat.le_of_lt_succ hfuel)

theorem writes_print_of_frame? {fuel : Nat} {g : Frame}
    (hg : frame? symbols entry memory pc bp fuel = some g) :
    outlet.Writes (printUpTo symbols entry memory fuel pc bp) s
      (lines symbols entry memory pc bp fuel).flatten (.error .outOfFuel s) := by
  obtain ⟨f, hf⟩ := frame?_of_le hg (Nat.zero_le fuel)
  rw [← Nat.zero_add fuel] at hg
  cases pc with
  | zero => cases hf
  | succ index =>
    rw [lines, List.range_eq_range']
    exact writes_walk_of_frame? (f := ⟨index, bp⟩) rfl hg

/-- There is no line about a frame behind the last one. -/
theorem lines_of_none {n count : Nat} (h : frame? symbols entry memory pc bp n = none)
    (hle : n ≤ count) :
    lines symbols entry memory pc bp count = lines symbols entry memory pc bp n := by
  obtain ⟨more, rfl⟩ := Nat.exists_eq_add_of_le hle
  rw [lines, List.range_add, List.filterMap_append, List.filterMap_map, lines]
  refine (congrArg _ (List.filterMap_eq_nil_iff.mpr fun k _ => ?_)).trans (List.append_nil _)
  rw [Function.comp_apply, line?, frame?_none_of_le h (Nat.le_add_right n k), Option.bind_none]

theorem ComesBack.length_lines (h : ComesBack symbols entry memory pc bp) (count : Nat) :
    (lines symbols entry memory pc bp count).length = count := by
  have hline : ∀ k ∈ List.range count, (line? symbols entry memory pc bp k).isSome := by
    intro k _
    obtain ⟨f, hf⟩ := h.exists_frame k
    obtain ⟨g, hg⟩ := h.exists_frame (k + 1)
    obtain ⟨⟨id, hid⟩, -⟩ := of_caller (onward_of_frame? hf hg)
    rw [line?_of_frame? hf, hid]
    rfl
  rw [lines, List.filterMap_length_eq_length.mpr hline, List.length_range]

theorem ComesBack.le_length_flatten (h : ComesBack symbols entry memory pc bp) (count : Nat) :
    count ≤ (lines symbols entry memory pc bp count).flatten.length := by
  conv_lhs => rw [← h.length_lines count, ← List.length_map (f := List.length)]
  rw [List.length_flatten]
  refine List.length_le_sum_of_one_le _ fun n hn => ?_
  obtain ⟨text, htext, rfl⟩ := List.mem_map.mp hn
  obtain ⟨k, -, hk⟩ := List.mem_filterMap.mp htext
  obtain ⟨f, -, hf⟩ := Option.bind_eq_some_iff.mp hk
  obtain ⟨id, -, rfl⟩ := Option.map_eq_some_iff.mp hf
  have hnewline : (Utf8.encode "\n").length = 1 := by decide
  rw [line, Source.encode_append, List.length_append, List.length_append, hnewline]
  omega

/-! ## When traces end -/

/-- Whether a trace got to its end, normally or with an error. -/
def Finished (r : EStateM.Result Stop Sink Unit) : Prop := ∀ out, r ≠ .error .outOfFuel out

/-- A trace whose sink refuses something gets to its end there. -/
theorem finished_of_refused {x : EStateM Stop Sink Unit} {bytes : List UInt8}
    {r : EStateM.Result Stop Sink Unit} {out : Sink} (h : outlet.Writes x s bytes r)
    (hout : out.accepts bytes = false) : Finished (x out) := by
  obtain ⟨e, s', rfl, hx⟩ := h.refused out hout
  intro out' hx'
  rw [show x out = _ from hx] at hx'
  cases hx'

theorem eq_finish {x : EStateM Stop Sink Unit} {bytes : List UInt8} {result : Except Fault Unit}
    {out : Sink} (h : outlet.Writes x s bytes (finish s result)) (hout : out.accepts bytes = true) :
    x out = finish (out.write bytes) result := by
  rw [show x out = _ from h.accepted out hout]
  cases result <;> rfl

theorem finished_finish (out : Sink) (result : Except Fault Unit) :
    Finished (finish out result) := by
  intro out' h
  cases result <;> cases h

/-- A trace along a chain that gets to no frame twice writes its lines and ends. -/
theorem exists_finish (h : ¬ ComesBack symbols entry memory pc bp) :
    ∃ result, ∀ fuel > memory.bytes.size, ∀ s,
      outlet.Writes (printUpTo symbols entry memory fuel pc bp) s
        (lines symbols entry memory pc bp (memory.bytes.size + 1)).flatten (finish s result) := by
  cases hfirst : frame? symbols entry memory pc bp 0 with
  | none =>
    cases pc with
    | succ index => cases hfirst
    | zero =>
      refine ⟨.ok (), fun fuel _ s => ?_⟩
      rw [lines_of_none hfirst (Nat.zero_le _)]
      exact .silent fun _ => rfl
  | some f =>
    obtain ⟨n, hn, g, result, hg, hstop⟩ := exists_stop ⟨f, hfirst⟩ h
    have hnone : frame? symbols entry memory pc bp (n + 1) = none := by
      rw [frame?_succ, hg, Option.bind_some, next?_eq_none_iff]
      exact ⟨result, hstop⟩
    refine ⟨result, fun fuel hfuel s => ?_⟩
    rw [lines_of_none hnone (Nat.succ_le_succ hn)]
    exact writes_print_of_stop hg hstop (Nat.lt_of_le_of_lt hn hfuel)

/-- A trace along a chain that gets to a frame twice uses up any fuel. -/
theorem ComesBack.print_eq (h : ComesBack symbols entry memory pc bp) (written : Array UInt8)
    (fuel : Nat) : printUpTo symbols entry memory fuel pc bp ⟨written, none⟩ =
      .error .outOfFuel
        (Sink.write ⟨written, none⟩ (lines symbols entry memory pc bp fuel).flatten) := by
  obtain ⟨f, hf⟩ := h.exists_frame fuel
  exact (writes_print_of_frame? (s := ⟨written, none⟩) hf).accepted _
    (Sink.accepts_of_unlimited rfl _)

/-- A sink with a capacity ends every trace, if nothing else does. -/
theorem exists_finished_of_capacity (symbols : SymbolTable) (entry : SymbolId) (memory : Memory)
    (pc : Nat) (bp : Word) (written : Array UInt8) (capacity : Nat) :
    ∃ fuel, Finished (printUpTo symbols entry memory fuel pc bp ⟨written, some capacity⟩) := by
  by_cases h : ComesBack symbols entry memory pc bp
  · obtain ⟨f, hf⟩ := h.exists_frame (capacity + 1)
    refine ⟨capacity + 1, finished_of_refused (writes_print_of_frame? (s := ⟨written, none⟩) hf) ?_⟩
    have hlength := h.le_length_flatten (capacity + 1)
    rw [Bool.eq_false_iff, Ne, Sink.accepts_iff_of_limited rfl, not_or, ← List.length_eq_zero_iff]
    omega
  · obtain ⟨result, hresult⟩ := exists_finish h
    have hwrites := hresult _ (Nat.lt_succ_self _) ⟨written, none⟩
    refine ⟨memory.bytes.size + 1, ?_⟩
    cases haccepts : Sink.accepts ⟨written, some capacity⟩
        (lines symbols entry memory pc bp (memory.bytes.size + 1)).flatten with
    | true => exact eq_finish hwrites haccepts ▸ finished_finish _ result
    | false => exact finished_of_refused hwrites haccepts

/-- When stack traces end. On a sink without a capacity a trace ends exactly if its chain of frames
gets to no frame twice. Then it ends in one way, after the lines about at most one frame more than
memory has bytes. Otherwise it writes as many lines as it may, however many these are. On a sink
with a capacity it always ends. -/
theorem print_ends_iff (symbols : SymbolTable) (entry : SymbolId) (memory : Memory) (pc : Nat)
    (bp : Word) (written : Array UInt8) :
    ((∃ fuel, Finished (printUpTo symbols entry memory fuel pc bp ⟨written, none⟩)) ↔
      ¬ ComesBack symbols entry memory pc bp) ∧
    (¬ ComesBack symbols entry memory pc bp →
      ∃ result, ∀ fuel > memory.bytes.size,
        printUpTo symbols entry memory fuel pc bp ⟨written, none⟩ =
          finish (Sink.write ⟨written, none⟩
            (lines symbols entry memory pc bp (memory.bytes.size + 1)).flatten) result) ∧
    (ComesBack symbols entry memory pc bp → ∀ fuel,
      (lines symbols entry memory pc bp fuel).length = fuel ∧
      printUpTo symbols entry memory fuel pc bp ⟨written, none⟩ =
        .error .outOfFuel (Sink.write ⟨written, none⟩
          (lines symbols entry memory pc bp fuel).flatten)) ∧
    ∀ capacity, ∃ fuel,
      Finished (printUpTo symbols entry memory fuel pc bp ⟨written, some capacity⟩) := by
  have hends : ¬ ComesBack symbols entry memory pc bp → ∃ result, ∀ fuel > memory.bytes.size,
      printUpTo symbols entry memory fuel pc bp ⟨written, none⟩ =
        finish (Sink.write ⟨written, none⟩
          (lines symbols entry memory pc bp (memory.bytes.size + 1)).flatten) result := by
    intro h
    obtain ⟨result, hresult⟩ := exists_finish h
    exact ⟨result, fun fuel hfuel =>
      eq_finish (hresult fuel hfuel ⟨written, none⟩) (Sink.accepts_of_unlimited rfl _)⟩
  refine ⟨⟨fun ⟨fuel, hfuel⟩ h => hfuel _ (h.print_eq written fuel), fun h => ?_⟩, hends,
    fun h fuel => ⟨h.length_lines fuel, h.print_eq written fuel⟩,
    exists_finished_of_capacity symbols entry memory pc bp written⟩
  obtain ⟨result, hresult⟩ := hends h
  exact ⟨_, hresult _ (Nat.lt_succ_self _) ▸ finished_finish _ result⟩

/-- A function `f` in front of the entry point. -/
def loopSymbols : SymbolTable :=
  List.foldl SymbolTable.add ⟨#[], [], [], 1000⟩
    (SymbolTable.keywordSymbols ++ SymbolTable.serviceSymbols ++
      [⟨SymbolTable.entryName, ⟨.function, .int, 10⟩⟩, ⟨"f", ⟨.function, .int, 0⟩⟩])

/-- A frame at the lowest address that keeps itself as its caller, with a return address inside `f`.
-/
def loopMemory : Memory :=
  .ofData ((Word.ofNat dataBase).toBytes ++ (1 : Word).toBytes).toArray ⟨0, 0, 16, 0, 0, 0⟩

theorem comesBack_loop :
    ComesBack loopSymbols SymbolTable.entry loopMemory 1 (Word.ofNat dataBase) :=
  ⟨0, 1, ⟨0, Word.ofNat dataBase⟩, by decide, rfl, by decide +kernel⟩

/-- Up to a frame of `f` itself the trace ends with its first line. Up to the entry point it does
not end. -/
theorem print_ends_loop :
    ¬ ComesBack loopSymbols 22 loopMemory 1 (Word.ofNat dataBase) ∧
    (∃ fuel, Finished
      (printUpTo loopSymbols 22 loopMemory fuel 1 (Word.ofNat dataBase) ⟨#[], none⟩)) ∧
    ComesBack loopSymbols SymbolTable.entry loopMemory 1 (Word.ofNat dataBase) ∧
    ∀ fuel, (lines loopSymbols SymbolTable.entry loopMemory 1 (Word.ofNat dataBase) fuel).length =
      fuel := by
  have hnone : frame? loopSymbols 22 loopMemory 1 (Word.ofNat dataBase) 1 = none := by
    decide +kernel
  have hends : ¬ ComesBack loopSymbols 22 loopMemory 1 (Word.ofNat dataBase) := by
    rintro ⟨i, j, f, hlt, -, hj⟩
    rw [frame?_none_of_le hnone (Nat.one_le_of_lt hlt)] at hj
    cases hj
  exact ⟨hends, (print_ends_iff loopSymbols 22 loopMemory 1 (Word.ofNat dataBase) #[]).1.mpr hends,
    comesBack_loop, fun fuel => ((print_ends_iff loopSymbols SymbolTable.entry loopMemory 1
      (Word.ofNat dataBase) #[]).2.2.1 comesBack_loop fuel).1⟩

/-- The trace does not end on a sink without a capacity. -/
theorem not_finished_loop : ¬ ∃ fuel,
    Finished (print loopSymbols loopMemory fuel 1 (Word.ofNat dataBase) (Sink.empty none)) :=
  fun ⟨fuel, hfuel⟩ => hfuel _ (comesBack_loop.print_eq #[] fuel)

end MiniC.Backtrace
