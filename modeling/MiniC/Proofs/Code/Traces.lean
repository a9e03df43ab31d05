import MiniC.Proofs.Code.Calls
import MiniC.Proofs.Compiling.Concatenation
import MiniC.Proofs.Machine.Chains

/-!
# Traces of compiled programs

The bodies of a program stand one behind the other and none of them is empty, and a name that is a
function in the end has the start of a body as its value. So the function that starts nearest at or
before an index is the one whose body the index lies in, if the name of that function still means it
(`functionAround?_eq`). A trace along frames of such functions has one line for each frame
(`trace_of_compile`). What it shows of a function is printable, so it does not break the line
(`printable_describe`).
-/

namespace MiniC

/-! ## Printable texts -/

/-- All characters are printable ASCII characters. -/
def Printable (text : String) : Prop := ∀ c ∈ text.toList, 32 ≤ c.toNat ∧ c.toNat < 127

theorem Printable.append {s t : String} (hs : Printable s) (ht : Printable t) :
    Printable (s ++ t) := by
  intro c hc
  rw [String.toList_append, List.mem_append] at hc
  exact hc.elim (hs c) (ht c)

theorem Printable.newline_not_mem {s : String} (h : Printable s) :
    Byte.newline ∉ Utf8.encode s := by
  rw [Source.encode_eq fun c hc => Nat.lt_succ_of_lt (h c hc).2, List.mem_map]
  rintro ⟨c, hc, hbyte⟩
  have hchar : (Source.byte c).toNat = c.toNat :=
    Nat.mod_eq_of_lt (Nat.lt_trans (h c hc).2 (by decide))
  have hlow := (h c hc).1
  rw [← hchar, hbyte] at hlow
  exact absurd hlow (by decide)

theorem printable_digits (n : Nat) : Printable (digits 16 n) := by
  rw [Printable, digits, String.toList_ofList]
  induction n using Nat.strong_induction_on with
  | h n ih =>
    have hdigit : ∀ d < 16, 32 ≤ (Nat.digitChar d).toNat ∧ (Nat.digitChar d).toNat < 127 := by
      decide
    intro c hc
    by_cases hn : n < 16
    · rw [Nat.toDigits_of_lt_base hn, List.mem_singleton] at hc
      exact hc ▸ hdigit n hn
    · rw [Nat.toDigits_of_base_le (by decide) (Nat.le_of_not_lt hn), List.mem_append,
        List.mem_singleton] at hc
      rcases hc with hc | rfl
      · exact ih (n / 16) (Nat.div_lt_self (by omega) (by decide)) c hc
      · exact hdigit _ (Nat.mod_lt _ (by decide))

theorem CType.printable_text (t : CType) : Printable t.text := by
  have hstars : ∀ n, Printable (String.ofList (List.replicate n '*')) := by
    intro n c hc
    rw [String.toList_ofList] at hc
    rw [List.eq_of_mem_replicate hc]
    decide
  refine .append ?_ (hstars _)
  split_ifs
  · simp [Printable]
  · cases t.base <;> simp [Printable]

/-! ## The names in a table -/

theorem printable_of_isNameByte {b : UInt8} (h : Byte.isNameByte b = true) :
    32 ≤ (Char.ofUInt8 b).toNat ∧ (Char.ofUInt8 b).toNat < 127 := by
  simp only [Byte.isNameByte, Byte.isLetter, Byte.isDigit, Bool.or_eq_true, decide_eq_true_eq,
    Char.isAlpha, Char.isUpper, Char.isLower, Char.isDigit, Bool.and_eq_true, ge_iff_le,
    UInt32.le_iff_toNat_le] at h
  generalize Char.ofUInt8 b = c at h
  rcases h with ((⟨hlow, hhigh⟩ | ⟨hlow, hhigh⟩) | rfl) | ⟨hlow, hhigh⟩
  · exact ⟨Nat.le_trans (by decide) hlow, Nat.lt_of_le_of_lt hhigh (by decide)⟩
  · exact ⟨Nat.le_trans (by decide) hlow, Nat.lt_of_le_of_lt hhigh (by decide)⟩
  · decide
  · exact ⟨Nat.le_trans (by decide) hlow, Nat.lt_of_le_of_lt hhigh (by decide)⟩

theorem Lexer.printable_of_found {bytes : List UInt8} {text : String}
    (h : (found bytes).1 = .name text) : Printable text := by
  cases bytes with
  | nil => simp [found] at h
  | cons b after =>
    dsimp only [found] at h
    split_ifs at h with _ hletter
    · obtain rfl := Found.name.inj h
      intro c hc
      rw [spelling, String.toList_ofList, List.mem_map] at hc
      obtain ⟨b', hb', rfl⟩ := hc
      refine printable_of_isNameByte ?_
      rcases List.mem_cons.mp hb' with rfl | hb'
      · rw [Byte.isNameByte, hletter, Bool.true_or]
      · exact List.mem_takeWhile_imp hb'
    · split at h <;> cases h
    · split at h <;> cases h

/-- All names of a table are printable. -/
def SymbolTable.Legible (t : SymbolTable) : Prop := ∀ s ∈ t.symbols, Printable s.name

theorem SymbolTable.Legible.printable_name {t : SymbolTable} (h : t.Legible) (id : SymbolId) :
    Printable (t.name id) := by
  rw [name]
  cases hs : t.symbols[id]? with
  | none => simp [Printable]
  | some s => exact h s (Array.mem_of_getElem? hs)

theorem SymbolTable.legible_builtin (capacity : Nat) : (builtin capacity).Legible := by
  have hall : ∀ s ∈ builtinSymbols, Printable s.name := by
    simp [builtinSymbols, keywordSymbols, Keyword.spellings, serviceSymbols, Service.all,
      Service.name, entryName, Printable]
  rw [builtin_eq]
  intro s hs
  exact hall s (List.mem_toArray.mp hs)

theorem Lexer.legible_next {lx : Lexer} (h : lx.symbols.Legible) : lx.next.2.symbols.Legible := by
  rw [next_eq]
  dsimp only
  cases hfound : lx.scan.1 with
  | eof => exact h
  | other token => exact h
  | name text =>
    rw [Found.resolve, enter, SymbolTable.intern]
    cases lx.symbols.lookup text with
    | some id => exact h
    | none =>
      dsimp only
      split_ifs
      · intro s hs
        rcases Array.mem_push.mp hs with hs | rfl
        · exact h s hs
        · exact printable_of_found hfound
      · exact h

theorem Lexer.Reads.legible {lx : Lexer} {items : List Lexeme} {t : SymbolTable}
    (h : Reads lx items t) (hlx : lx.symbols.Legible) : t.Legible := by
  induction h with
  | eof => exact hlx
  | next _ _ ih => exact ih (legible_next hlx)

theorem printable_name_of_compile {source : List UInt8} {limits : Limits} {p : Program}
    (h : Program.compile source limits = .ok p) (id : SymbolId) :
    Printable (p.symbols.name id) := by
  obtain ⟨t, hdecl, rfl⟩ := Compile.program_of_compile h
  have hsteps := Compile.steps_declarations (Compile.start source limits none)
  rw [Compile.after_of_ok hdecl] at hsteps
  have hlegible := (Compile.reads_start source limits none).legible
    (SymbolTable.legible_builtin limits.symbols.toNat)
  rw [hsteps.sameNames.name_eq]
  exact hlegible.printable_name id

/-- The text about a function is printable. -/
theorem printable_describe {source : List UInt8} {limits : Limits} {p : Program}
    (h : Program.compile source limits = .ok p) {id : SymbolId}
    (hkind : (p.symbols.fileBinding id).kind = .function) : Printable (p.symbols.describe id) := by
  have hname := printable_name_of_compile h id
  have hhex : Printable (p.symbols.fileBinding id).value.hex :=
    .append (by simp [Printable]) (printable_digits _)
  rw [SymbolTable.describe, Symbol.describe]
  dsimp only
  rw [hkind]
  refine .append (.append (.append (.append (.append ?_ ?_) hname) ?_) hhex) ?_
  · exact CType.printable_text _
  all_goals simp [Printable]

/-! ## The function around an index -/

theorem SymbolTable.functionAround?_of_start {t : SymbolTable} {id : SymbolId} {start index : Nat}
    (hle : start ≤ index) (hat : t.functionAt? start = some id)
    (hnone : ∀ i, start < i → i ≤ index → t.functionAt? i = none) :
    t.functionAround? index = some id := by
  induction index, hle using Nat.le_induction with
  | base => cases start with
    | zero => exact hat
    | succ start => rw [functionAround?, hat]
  | succ index hle ih =>
    rw [functionAround?, hnone (index + 1) (Nat.lt_succ_of_le hle) le_rfl]
    exact ih fun i hlt hi => hnone i hlt (Nat.le_succ_of_le hi)

namespace Syntax

theorem startOf_lt_of_lt {bodies : List (List Instr)} (hne : ∀ b ∈ bodies, b ≠ []) {j k : Nat}
    (h : j < k) (hj : j < bodies.length) : startOf bodies j < startOf bodies k := by
  refine Nat.lt_of_lt_of_le ?_ (startOf_mono (Nat.succ_le_of_lt h))
  rw [startOf, startOf, List.take_succ_eq_append_getElem hj, List.flatten_append,
    List.length_append, List.flatten_singleton]
  exact Nat.lt_add_of_pos_right (List.length_pos_iff.mpr (hne _ (List.getElem_mem hj)))

/-- Two names do not begin at the same index. -/
theorem bodyStart?_inj {bodies : List (List Instr)} (hne : ∀ b ∈ bodies, b ≠ [])
    {id id' : SymbolId} {items : List Item} {start : Nat}
    (hcount : items.countP Item.isFunction ≤ bodies.length)
    (h : bodyStart? bodies id items = some start) (h' : bodyStart? bodies id' items = some start) :
    id = id' := by
  -- a name that is not declared by the latest item begins in front of the body of that item
  have hearlier : ∀ {x : SymbolId} {item : Item} {earlier : List Item},
      (item :: earlier).countP Item.isFunction ≤ bodies.length → item.isFunction = true →
        bodyStart? bodies x earlier ≠ some (startOf bodies (earlier.countP Item.isFunction)) := by
    intro x item earlier hle hfun hx
    obtain ⟨k, hk, heq⟩ := bodyStart?_eq_some hx
    rw [List.countP_cons_of_pos hfun] at hle
    exact absurd heq (Nat.ne_of_gt (startOf_lt_of_lt hne hk (by omega)))
  induction items with
  | nil => cases h
  | cons item earlier ih =>
    rw [bodyStart?] at h h'
    split_ifs at h h' with hid hfun hid' hid'
    · exact hid.symm.trans hid'
    · exact absurd (h'.trans h.symm) (hearlier hcount hfun)
    · rename_i hfun'
      exact absurd (h.trans h'.symm) (hearlier hcount hfun')
    · rw [List.countP_cons] at hcount
      exact ih (by omega) h h'

end Syntax

namespace SymbolTable

variable {t : SymbolTable} {id : SymbolId} {address : Nat}

/-- A name is a function whose code starts at the given index. -/
def StartsAt (t : SymbolTable) (id : SymbolId) (address : Nat) : Prop :=
  (t.fileBinding id).kind = .function ∧ (t.fileBinding id).value = Word.ofNat address

theorem startsAt_iff {s : Symbol} (h : t.symbols[id]? = some s) : t.StartsAt id address ↔
    s.binding.kind = .function ∧ s.binding.value = Word.ofNat address := by
  rw [StartsAt, fileBinding, h]

theorem functionAt?_eq_none (h : ∀ id, ¬ t.StartsAt id address) : t.functionAt? address = none := by
  rw [functionAt?, Array.findIdx?_eq_none_iff]
  intro s hs
  obtain ⟨id, hid⟩ := Array.getElem?_of_mem hs
  rw [decide_eq_false_iff_not, ← startsAt_iff hid]
  exact h id

theorem functionAt?_eq_some (h : t.StartsAt id address)
    (hunique : ∀ id', t.StartsAt id' address → id' = id) : t.functionAt? address = some id := by
  rw [functionAt?, Array.findIdx?_eq_some_iff_getElem]
  have hlt : id < t.symbols.size := by
    by_contra hge
    rw [StartsAt, fileBinding_of_size_le (Nat.le_of_not_lt hge)] at h
    exact absurd h.1 (by simp [Binding.unbound])
  refine ⟨hlt, ?_, fun j hj hat => ?_⟩
  · rwa [decide_eq_true_eq, ← startsAt_iff (Array.getElem?_eq_getElem hlt)]
  · rw [decide_eq_true_eq, ← startsAt_iff (Array.getElem?_eq_getElem (hj.trans hlt))] at hat
    exact absurd (hunique j hat) (Nat.ne_of_lt hj)

end SymbolTable

open Syntax

/-- The index `i` lies in the body of the definition number `d`, and in the end the name `id` is
still bound to that definition: it is the function that starts with that body. -/
structure Owns (p : Program) (bodies : List (List Instr)) (d : Nat) (id : SymbolId) (i : Nat) :
    Prop where
  bound : p.symbols.StartsAt id (startOf bodies d)
  lower : startOf bodies d ≤ i
  upper : i < startOf bodies (d + 1)

namespace Program.Built

variable {source : List UInt8} {limits : Limits} {p : Program} {items : List Item} {o : Output}
  {id : SymbolId}

theorem body_ne_nil (hb : p.Built source limits items o) :
    ∀ b ∈ o.bodies.map Chunk.code, b ≠ [] := by
  intro b hmem
  obtain ⟨n, inner, rfl, -⟩ := hb.isFunctionBody b hmem
  exact List.cons_ne_nil _ _

/-- What starts at an index is the function whose body starts there. -/
theorem bodyStart?_of_startsAt (hb : p.Built source limits items o) {address : Nat}
    (haddress : address < 2 ^ 64) (h : p.symbols.StartsAt id address) :
    bodyStart? (o.bodies.map Chunk.code) id items.reverse = some address ∧
      ∃ k < o.bodies.length, startOf (o.bodies.map Chunk.code) k = address := by
  obtain ⟨hkind, hvalue⟩ := h
  obtain ⟨k, hk, hbody, hstart⟩ := hb.exists_start hkind
  obtain rfl := Word.ofNat_inj (hb.startOf_lt k) haddress (hstart.symm.trans hvalue)
  exact ⟨hbody, k, hk, rfl⟩

theorem startsAt_unique (hb : p.Built source limits items o) {address : Nat} {id' : SymbolId}
    (haddress : address < 2 ^ 64) (h : p.symbols.StartsAt id address)
    (h' : p.symbols.StartsAt id' address) : id' = id := by
  refine bodyStart?_inj hb.body_ne_nil ?_ (hb.bodyStart?_of_startsAt haddress h').1
    (hb.bodyStart?_of_startsAt haddress h).1
  rw [List.countP_reverse, List.length_map, hb.resolved.count]

/-- The function around an index is the one whose body it lies in. -/
theorem functionAround?_eq (hb : p.Built source limits items o) {d i : Nat}
    (h : Owns p (o.bodies.map Chunk.code) d id i) :
    p.symbols.functionAround? i = some id := by
  have hlt := hb.startOf_lt (d + 1)
  have hlower := h.lower
  have hupper := h.upper
  refine SymbolTable.functionAround?_of_start h.lower
    (SymbolTable.functionAt?_eq_some h.bound fun _ => hb.startsAt_unique (by omega) h.bound)
    fun j hj hji => SymbolTable.functionAt?_eq_none fun id' hid' => ?_
  -- no body begins inside another one
  obtain ⟨-, k, -, rfl⟩ := hb.bodyStart?_of_startsAt (by omega) hid'
  rcases Nat.lt_or_ge d k with hk | hk
  · have hle : startOf (o.bodies.map Chunk.code) (d + 1) ≤ startOf (o.bodies.map Chunk.code) k :=
      startOf_mono hk
    omega
  · have hle : startOf (o.bodies.map Chunk.code) k ≤ startOf (o.bodies.map Chunk.code) d :=
      startOf_mono hk
    omega

end Program.Built

/-! ## Traces -/

/-- A chain of `n + 1` frames, the innermost first. The instruction before `pc k` belongs to the
function `id k`, the frame pointer `bp k` leads to that of the caller and, a word above it, to the
index at which the caller goes on. The last function, and no other, is the entry point. -/
structure OpenFrames (p : Program) (bodies : List (List Instr)) (memory : Memory) (n : Nat)
    (pc : Nat → Nat) (bp : Nat → Word) (id : Nat → SymbolId) : Prop where
  pos : ∀ k ≤ n, 1 ≤ pc k
  owned : ∀ k ≤ n, ∃ d, Owns p bodies d (id k) (pc k - 1)
  caller : ∀ k < n, memory.loadWord (bp k) = .ok (bp (k + 1))
  returnAddress : ∀ k < n, ∃ w, memory.loadWord (Machine.wordsAbove (bp k) 1) = .ok w ∧
    w.toInt = pc (k + 1)
  last : id n = SymbolTable.entry
  inner : ∀ k < n, id k ≠ SymbolTable.entry

namespace OpenFrames

open Backtrace

variable {source : List UInt8} {limits : Limits} {p : Program} {items : List Item} {o : Output}
  {memory : Memory} {n : Nat} {pc : Nat → Nat} {bp : Nat → Word} {id : Nat → SymbolId}

theorem functionAround?_eq (h : OpenFrames p (o.bodies.map Chunk.code) memory n pc bp id)
    (hb : p.Built source limits items o) {k : Nat} (hk : k ≤ n) :
    p.symbols.functionAround? (pc k - 1) = some (id k) := by
  obtain ⟨d, hd⟩ := h.owned k hk
  exact hb.functionAround?_eq hd

/-- A trace goes from each frame to the next one. -/
theorem onward_eq (h : OpenFrames p (o.bodies.map Chunk.code) memory n pc bp id)
    (hb : p.Built source limits items o) {k : Nat} (hk : k < n) :
    onward p.symbols SymbolTable.entry memory ⟨pc k - 1, bp k⟩ =
      .caller ⟨pc (k + 1) - 1, bp (k + 1)⟩ := by
  obtain ⟨w, hw, hpc⟩ := h.returnAddress k hk
  have hpos := h.pos (k + 1) hk
  have hgt : ¬ w ≤ 0 := by
    rw [Int64.le_iff_toInt_le, hpc, Int64.toInt_zero]
    omega
  rw [onward]
  dsimp only
  rw [h.functionAround?_eq hb (Nat.le_of_lt hk)]
  dsimp only
  rw [if_neg (h.inner k hk), onwardFrom, hw, h.caller k hk]
  dsimp only
  rw [if_neg hgt, hpc, Int.toNat_natCast]

theorem frame?_eq (h : OpenFrames p (o.bodies.map Chunk.code) memory n pc bp id)
    (hb : p.Built source limits items o) {k : Nat} (hk : k ≤ n) :
    frame? p.symbols SymbolTable.entry memory (pc 0) (bp 0) k = some ⟨pc k - 1, bp k⟩ := by
  induction k with
  | zero =>
    have hpos := h.pos 0 hk
    obtain ⟨index, hindex⟩ := Nat.exists_eq_succ_of_ne_zero (Nat.ne_of_gt hpos)
    rw [hindex]
    rfl
  | succ k ih =>
    rw [frame?_succ, ih (Nat.le_of_lt hk), Option.bind_some, next?_eq_some_iff, h.onward_eq hb hk]

theorem onward_last (h : OpenFrames p (o.bodies.map Chunk.code) memory n pc bp id)
    (hb : p.Built source limits items o) :
    onward p.symbols SymbolTable.entry memory ⟨pc n - 1, bp n⟩ = .stop (.ok ()) := by
  rw [onward]
  dsimp only
  rw [h.functionAround?_eq hb le_rfl]
  exact if_pos h.last

theorem lines_eq (h : OpenFrames p (o.bodies.map Chunk.code) memory n pc bp id)
    (hb : p.Built source limits items o) :
    (lines p.symbols SymbolTable.entry memory (pc 0) (bp 0) (n + 1)).flatten =
      (List.range (n + 1)).flatMap fun k => List.replicate k ' '.toUInt8 ++
        Utf8.encode (p.symbols.describe (id k)) ++ [Byte.newline] := by
  have hline : ∀ k ∈ List.range (n + 1),
      line? p.symbols SymbolTable.entry memory (pc 0) (bp 0) k =
        some (line p.symbols k (id k)) := by
    intro k hk
    have hle := Nat.le_of_lt_succ (List.mem_range.mp hk)
    rw [line?_of_frame? (h.frame?_eq hb hle), h.functionAround?_eq hb hle, Option.map_some]
  rw [lines, List.filterMap_congr hline, List.filterMap_eq_map', List.flatMap_def]
  refine congrArg _ (List.map_congr_left fun k _ => ?_)
  rw [line, Source.encode_append, List.append_assoc]
  rfl

end OpenFrames

/-- A stack trace names the active calls. The code of a program is the bodies of its functions in
the order of their definitions. Along any chain of frames of functions that their names still mean,
from the innermost frame out to one of the entry point, a trace on a sink without a capacity
succeeds. It writes one line for each frame: as many blanks as there are frames further in, and the
text about the function, which holds no newline. -/
theorem trace_of_compile {source : List UInt8} {limits : Limits} {p : Program}
    (h : Program.compile source limits = .ok p) :
    ∃ items o, p.Built source limits items o ∧
      p.code.toList = (o.bodies.map Chunk.code).flatten ∧
      o.bodies.length = items.countP Item.isFunction ∧
      ∀ memory n pc bp id, OpenFrames p (o.bodies.map Chunk.code) memory n pc bp id →
        (∀ k ≤ n, Byte.newline ∉ Utf8.encode (p.symbols.describe (id k))) ∧
        ∀ (out : Sink) (fuel : Nat), out.capacity = none → n < fuel →
          Backtrace.print p.symbols memory fuel (pc 0) (bp 0) out =
            .ok () (out.write ((List.range (n + 1)).flatMap fun k => List.replicate k ' '.toUInt8 ++
              Utf8.encode (p.symbols.describe (id k)) ++ [Byte.newline])) := by
  obtain ⟨items, o, hb⟩ := Program.built h
  refine ⟨items, o, hb, hb.code_eq_flatten, hb.resolved.count, ?_⟩
  intro memory n pc bp id hframes
  refine ⟨fun k hk => ?_, fun out fuel hout hfuel => ?_⟩
  · obtain ⟨d, hd⟩ := hframes.owned k hk
    exact (printable_describe h hd.bound.1).newline_not_mem
  · rw [← hframes.lines_eq hb]
    have hwrites := Backtrace.writes_print_of_stop (s := out) (hframes.frame?_eq hb le_rfl)
      (hframes.onward_last hb) hfuel
    exact Backtrace.eq_finish hwrites (Sink.accepts_of_unlimited hout _)

/-- A function that is defined twice and asks for a trace, called through another one. -/
def nestedSource : List UInt8 := Utf8.encode
  "int inner() { return 0; } int inner(int x) { stacktrace(); return x; }
   int outer() { return inner(1); } int main() { return outer(); }"

/-- The frames of `inner` and `outer`, each with the frame pointer and return address it keeps. -/
def nestedMemory : Memory :=
  .ofData (([65552, 14, 65568, 19] : List Word).flatMap Word.toBytes).toArray ⟨0, 0, 32, 0, 0, 0⟩

theorem trace_of_nested :
    ∃ p items o, Program.compile nestedSource (.ofPoolSize Limits.defaultPoolSize) = .ok p ∧
      p.Built nestedSource (.ofPoolSize Limits.defaultPoolSize) items o ∧
      OpenFrames p (o.bodies.map Chunk.code) nestedMemory 2 ([6, 14, 19].getD · 0)
        ([65536, 65552, 65568].getD · 0) ([22, 24, 21].getD · 0) ∧
      Backtrace.print p.symbols nestedMemory 3 6 65536 (Sink.empty none) =
        .ok () ((Sink.empty none).write (Utf8.encode
          "int inner() [0x4]\n int outer() [0xa]\n  int main() [0x11]\n")) := by
  have hfacts : (do
      let p ← (Program.compile nestedSource (.ofPoolSize Limits.defaultPoolSize)).toOption
      let items ← Syntax.ofSource nestedSource (.ofPoolSize Limits.defaultPoolSize)
      let o ← generate (names nestedSource (.ofPoolSize Limits.defaultPoolSize)) items
      some ([22, 24, 21].map fun id => ((p.symbols.fileBinding id).kind,
          (p.symbols.fileBinding id).value, p.symbols.describe id),
        (List.range 5).map (startOf (o.bodies.map Chunk.code)))) =
      some ([(.function, 4, "int inner() [0x4]"), (.function, 10, "int outer() [0xa]"),
        (.function, 17, "int main() [0x11]")], [0, 4, 10, 17, 21]) := by
    decide +kernel
  cases h : Program.compile nestedSource (.ofPoolSize Limits.defaultPoolSize) with
  | error e => simp [h, Except.toOption] at hfacts
  | ok p =>
    obtain ⟨items, o, hb, -, -, htrace⟩ := trace_of_compile h
    simp only [h, Except.toOption, hb.parsed, hb.generated, Option.bind_eq_bind, Option.bind_some,
      List.range_succ, List.range_zero, List.nil_append, List.cons_append, List.map_cons,
      List.map_nil, Option.some.injEq, Prod.mk.injEq, List.cons.injEq, and_true] at hfacts
    obtain ⟨⟨⟨hkind₁, hvalue₁, htext₁⟩, ⟨hkind₂, hvalue₂, htext₂⟩, hkind₀, hvalue₀, htext₀⟩,
      -, hstart₁, hstart₂, hstart₃, hstart₄⟩ := hfacts
    have hframes : OpenFrames p (o.bodies.map Chunk.code) nestedMemory 2 ([6, 14, 19].getD · 0)
        ([65536, 65552, 65568].getD · 0) ([22, 24, 21].getD · 0) := by
      refine ⟨by decide, fun k hk => ?_, fun k hk => ?_, fun k hk => ?_, rfl, by decide⟩
      · interval_cases k
        · exact ⟨1, ⟨hkind₁, hstart₁ ▸ hvalue₁⟩, hstart₁ ▸ by decide, hstart₂ ▸ by decide⟩
        · exact ⟨2, ⟨hkind₂, hstart₂ ▸ hvalue₂⟩, hstart₂ ▸ by decide, hstart₃ ▸ by decide⟩
        · exact ⟨3, ⟨hkind₀, hstart₃ ▸ hvalue₀⟩, hstart₃ ▸ by decide, hstart₄ ▸ by decide⟩
      · interval_cases k <;> decide +kernel
      · interval_cases k
        · exact ⟨14, by decide +kernel, by decide⟩
        · exact ⟨19, by decide +kernel, by decide⟩
    refine ⟨p, items, o, rfl, hb, hframes, ?_⟩
    refine ((htrace _ _ _ _ _ hframes).2 (Sink.empty none) 3 rfl (by decide)).trans ?_
    simp only [List.range_succ, List.range_zero, List.nil_append, List.cons_append,
      List.flatMap_cons, List.flatMap_nil, List.getD_cons_zero, List.getD_cons_succ, htext₁, htext₂,
      htext₀]
    rfl

end MiniC
