import MiniC.Proofs.Compiling.Composition
import MiniC.Proofs.Output.Sinks

/-!
# Listings beside a compilation

A listing consists of entries: a source line and the instructions that were not listed before it.
Together they are the first lines of the source, and their rows are counted by the listing
(`Listing.Records`).

Compiling moves on over the tokens and lists the lines that are passed on the way (`Moved`). All
other basic actions leave the listing alone and do not look at it (`Apart`). So a compilation with a
listing does what the one without does (`Composed.shadows`), unless instructions that were listed
are gone when the next line is due: then it breaks off. If it succeeds, every instruction has its
row, since the source has a line left to list as long as there are tokens to come
(`Recording.rest_ne_nil`), and no declaration leaves code behind when the last line is listed
(`Settles.declaration`).
-/

namespace MiniC

/-! ## Entries -/

namespace Listing

/-- The source behind its first lines. -/
def linesBehind (count : Nat) (source : List UInt8) : List UInt8 :=
  (fun rest => (splitLine rest).2)^[count] source

/-- A line of a listing with the instructions behind it. -/
structure Entry where
  number : Nat
  line : List UInt8
  code : List Instr

def Entry.text (e : Entry) : List UInt8 := Utf8.encode (block e.number e.line e.code)

def text (entries : List Entry) : List UInt8 := entries.flatMap Entry.text

/-- The instructions of a listing, in the order in which they are shown. -/
def rows (entries : List Entry) : List Instr := entries.flatMap Entry.code

/-- The entries show the first lines of the source, numbered from one on. -/
def ShowsLines (source : List UInt8) (entries : List Entry) : Prop :=
  ∀ k e, entries[k]? = some e →
    e.number = k + 1 ∧ e.line = (splitLine (linesBehind k source)).1

/-- The listing has come to be by the given entries. -/
structure Records (source : List UInt8) (out : Sink) (l : Listing) (entries : List Entry) :
    Prop where
  lines : ShowsLines source entries
  line_eq : l.line = entries.length + 1
  rest_eq : l.rest = linesBehind entries.length source
  listed_eq : l.listed = (rows entries).length
  out_eq : l.out = out.write (text entries)

/-- The next entry of a listing. -/
def entry (l : Listing) (code : Array Instr) : Entry :=
  ⟨l.line, (splitLine l.rest).1, (code.extract l.listed).toList⟩

/-- The listing behind its next entry. -/
def behind (l : Listing) (code : Array Instr) : Listing :=
  l.record (l.entry code).text (splitLine l.rest).2 code.size

variable {l l' : Listing} {source : List UInt8} {out : Sink} {code : Array Instr}
  {entries more : List Entry}

@[simp] theorem rows_nil : rows [] = [] := rfl

@[simp] theorem rows_cons (e : Entry) (entries : List Entry) :
    rows (e :: entries) = e.code ++ rows entries := rfl

@[simp] theorem rows_append (entries more : List Entry) :
    rows (entries ++ more) = rows entries ++ rows more := List.flatMap_append

theorem code_entry (l : Listing) (code : Array Instr) :
    (l.entry code).code = code.toList.drop l.listed := by
  simp [entry, Array.toList_extract, List.extract_eq_take_drop]

theorem records_start (source : List UInt8) (out : Sink) :
    Records source out ⟨source, 1, 0, out⟩ [] where
  lines k e h := by simp at h
  line_eq := rfl
  rest_eq := rfl
  listed_eq := rfl
  out_eq := (Sink.write_nil out).symm

theorem Records.behind (h : Records source out l entries) (hle : l.listed ≤ code.size) :
    Records source out (l.behind code) (entries ++ [l.entry code]) where
  lines k e he := by
    rw [List.getElem?_append] at he
    split_ifs at he with hk
    · exact h.lines k e he
    · obtain ⟨hzero, rfl⟩ := List.getElem?_eq_some_iff.mp he
      have hk' : k = entries.length := by
        rw [List.length_singleton] at hzero
        omega
      subst hk'
      simp only [Nat.sub_self, List.getElem_cons_zero]
      exact ⟨h.line_eq, by rw [entry, h.rest_eq]⟩
  line_eq := by
    show l.line + 1 = _
    rw [h.line_eq, List.length_append, List.length_singleton]
  rest_eq := by
    show (splitLine l.rest).2 = _
    rw [h.rest_eq, List.length_append, List.length_singleton, linesBehind, linesBehind,
      Function.iterate_succ_apply']
  listed_eq := by
    show code.size = _
    rw [rows_append, rows_cons, rows_nil, List.append_nil, List.length_append, code_entry,
      List.length_drop, ← h.listed_eq, Array.length_toList]
    omega
  out_eq := by
    show l.out.write (l.entry code).text = _
    rw [h.out_eq, ← Sink.write_append, text, text, List.flatMap_append, List.flatMap_singleton]

/-- Entries that are listed one behind the other, while the code stays the same. -/
inductive Lists (code : Array Instr) : Listing → List Entry → Listing → Prop
  | none (l : Listing) : Lists code l [] l
  | line {l l' : Listing} {more : List Entry} (hrest : l.rest ≠ []) (hle : l.listed ≤ code.size)
      (h : Lists code (l.behind code) more l') : Lists code l (l.entry code :: more) l'

namespace Lists

theorem records (h : Lists code l more l') (hl : Records source out l entries) :
    Records source out l' (entries ++ more) := by
  induction h generalizing entries with
  | none l => rwa [List.append_nil]
  | line _ hle _ ih =>
    have hnext := ih (hl.behind hle)
    rwa [List.append_assoc] at hnext

theorem line_eq (h : Lists code l more l') : l'.line = l.line + more.length := by
  induction h with
  | none l => rfl
  | @line l l' more _ _ _ ih =>
    rw [ih, List.length_cons]
    show l.line + 1 + more.length = _
    omega

/-- All that has not been listed goes with the first entry. -/
theorem rows_eq (h : Lists code l more l') :
    (more = [] ∧ l' = l) ∨
      l.listed ≤ code.size ∧ rows more = code.toList.drop l.listed ∧ l'.listed = code.size := by
  induction h with
  | none l => exact .inl ⟨rfl, rfl⟩
  | @line l l' more _ hle _ ih =>
    refine .inr ⟨hle, ?_⟩
    rw [rows_cons, code_entry]
    rcases ih with ⟨rfl, rfl⟩ | ⟨-, hrows, hlisted⟩
    · exact ⟨List.append_nil _, rfl⟩
    · have hnone : code.toList.drop (l.behind code).listed = [] :=
        List.drop_eq_nil_of_le (Array.length_toList ▸ le_rfl)
      exact ⟨by rw [hrows, hnone, List.append_nil], hlisted⟩

end Lists

/-! ## Lines of a source -/

theorem splitLine_newline (rest : List UInt8) :
    (splitLine (Byte.newline :: rest)).2 = rest := by
  simp [splitLine]

theorem splitLine_cons {b : UInt8} (hb : b ≠ Byte.newline) (rest : List UInt8) :
    (splitLine (b :: rest)).2 = (splitLine rest).2 := by
  simp only [splitLine, List.dropWhile_cons, hb, ne_eq, not_false_eq_true, decide_true, if_true]
  split <;> rfl

/-- What stands behind some newline stands behind the first one. -/
theorem suffix_splitLine {rest bytes : List UInt8} (h : Byte.newline :: rest <:+ bytes) :
    rest <:+ (splitLine bytes).2 := by
  obtain ⟨front, rfl⟩ := h
  induction front with
  | nil => rw [List.nil_append, splitLine_newline]
  | cons b front ih =>
    by_cases hb : b = Byte.newline
    · rw [hb, List.cons_append, splitLine_newline]
      exact ⟨front ++ [Byte.newline], by simp⟩
    · rwa [List.cons_append, splitLine_cons hb]

theorem linesBehind_succ (count : Nat) (source : List UInt8) :
    linesBehind (count + 1) source = (splitLine (linesBehind count source)).2 :=
  Function.iterate_succ_apply' _ _ _

/-- A source that has a line has all the lines before it. -/
theorem linesBehind_ne_nil {count count' : Nat} (hle : count ≤ count')
    (h : linesBehind count' source ≠ []) : linesBehind count source ≠ [] := by
  induction count', hle using Nat.le_induction with
  | base => exact h
  | succ count' _ ih =>
    apply ih
    intro hnil
    rw [linesBehind_succ, hnil] at h
    exact h rfl

end Listing

/-! ## Lexemes on their lines -/

namespace Lexer

open Listing

variable {source : List UInt8}

/-- Lexemes in the order of their lines. The source has a line where there is a token. -/
structure Located (source : List UInt8) (items : List Lexeme) : Prop where
  sorted : items.Pairwise fun x y => x.line ≤ y.line
  inside : ∀ x ∈ items, x.token ≠ .ok .eof → linesBehind (x.line - 1) source ≠ []

/-- Newlines that are skipped are counted. -/
theorem skip_linesBehind (comment : Bool) {bytes : List UInt8} {line : Nat} (hline : 0 < line)
    (h : bytes <:+ linesBehind (line - 1) source) :
    line ≤ (skip comment bytes line).2 ∧
      (skip comment bytes line).1 <:+ linesBehind ((skip comment bytes line).2 - 1) source := by
  induction bytes generalizing comment line with
  | nil => exact ⟨le_rfl, h⟩
  | cons b rest ih =>
    have htail : rest <:+ linesBehind (line - 1) source := (List.suffix_cons _ _).trans h
    rw [skip]
    by_cases hb : b = Byte.newline
    · have hbehind : rest <:+ linesBehind line source := by
        have hsplit := suffix_splitLine (hb ▸ h)
        rwa [← linesBehind_succ, Nat.sub_add_cancel hline] at hsplit
      rw [if_pos hb]
      obtain ⟨hle, hsuffix⟩ := ih false (show 0 < line + 1 by omega) hbehind
      exact ⟨by omega, hsuffix⟩
    · rw [if_neg hb]
      split_ifs <;> first | exact ⟨le_rfl, h⟩ | exact ih _ hline htail

theorem scan_suffix {lx : Lexer} (h : lx.scan.1 ≠ .eof) :
    lx.scan.2 <:+ (skip false lx.rest lx.line).1 ∧ (skip false lx.rest lx.line).1 ≠ [] := by
  unfold scan at h ⊢
  generalize (skip false lx.rest lx.line).1 = bytes at h ⊢
  cases bytes with
  | nil => exact absurd rfl h
  | cons b after => exact ⟨(found_suffix h).trans (List.suffix_cons _ _), by simp⟩

theorem Reads.located {lx : Lexer} {items : List Lexeme} {t : SymbolTable} (h : Reads lx items t)
    (hline : 0 < lx.line) (hrest : lx.rest <:+ linesBehind (lx.line - 1) source) :
    Located source items ∧ ∀ x ∈ items, lx.line ≤ x.line := by
  induction h with
  | @eof lx h =>
    obtain ⟨hle, -⟩ := skip_linesBehind false hline hrest
    have hnext : lx.next.2.line = (skip false lx.rest lx.line).2 := by rw [next_eq]
    refine ⟨⟨List.pairwise_singleton _ _, fun x hx hne => ?_⟩, fun x hx => ?_⟩
    · rw [List.mem_singleton.mp hx] at hne
      exact absurd rfl hne
    · rw [List.mem_singleton.mp hx, hnext]
      exact hle
  | @next lx items t h _ ih =>
    obtain ⟨hle, hsuffix⟩ := skip_linesBehind false hline hrest
    obtain ⟨hscan, hne⟩ := scan_suffix h
    have hnext : lx.next.2.line = (skip false lx.rest lx.line).2 := by rw [next_eq]
    have hrest' : lx.next.2.rest = lx.scan.2 := by rw [next_eq]
    rw [← hnext] at hle hsuffix
    obtain ⟨hitems, hafter⟩ := ih (by omega) (hrest' ▸ hscan.trans hsuffix)
    refine ⟨⟨List.pairwise_cons.mpr ⟨hafter, hitems.sorted⟩, fun x hx => ?_⟩, fun x hx => ?_⟩
    · rcases List.mem_cons.mp hx with rfl | hx
      · exact fun _ hnil => hne (List.suffix_nil.mp (hnil ▸ hsuffix))
      · exact hitems.inside x hx
    · rcases List.mem_cons.mp hx with rfl | hx
      · exact hle
      · exact hle.trans (hafter x hx)

end Lexer

/-! ## Actions beside a listing -/

namespace Compile

open Listing Lexer

variable {α β : Type} {n : Nat} {s s' : State} {x : CompileM α} {f : α → CompileM β} {p : Permit}
  {ids : Set SymbolId}

/-- The current token as a lexeme, and those behind it. -/
def State.ahead (s : State) : List Lexeme := ⟨s.line, .ok s.current⟩ :: s.rest.items

/-- The same end with another listing. -/
def relist (g : Option Listing → Option Listing) :
    EStateM.Result CompileError State α → EStateM.Result CompileError State α
  | .ok a s => .ok a { s with listing := g s.listing }
  | .error e s => .error e { s with listing := g s.listing }

/-- From the state on, the action neither moves on nor looks at the listing. -/
inductive Apart (x : CompileM α) (s : State) : Prop
  | ok (a : α) (t : State) (hahead : t.ahead = s.ahead) (hlisting : t.listing = s.listing)
      (h : ∀ g : Option Listing → Option Listing,
        x { s with listing := g s.listing } = .ok a { t with listing := g t.listing })
  | error (e : CompileError) (h : ∀ g : Option Listing → Option Listing,
      x { s with listing := g s.listing } = .error e { s with listing := g s.listing })

namespace Apart

theorem relist_eq (h : Apart x s) (g : Option Listing → Option Listing) :
    x { s with listing := g s.listing } = relist g (x s) := by
  cases h with
  | ok a t _ _ h =>
    have hx : x s = .ok a t := h id
    rw [h g, hx, relist]
  | error e h =>
    have hx : x s = .error e s := h id
    rw [h g, hx, relist]

theorem same (h : Apart x s) :
    (after x s).ahead = s.ahead ∧ (after x s).listing = s.listing := by
  cases h with
  | ok a t hahead hlisting h =>
    have hx : x s = .ok a t := h id
    rw [after_of_ok hx]
    exact ⟨hahead, hlisting⟩
  | error e h =>
    have hx : x s = .error e s := h id
    rw [after_of_error hx]
    exact ⟨rfl, rfl⟩

theorem emit (i : Instr) (s : State) : Apart (emit i) s := by
  by_cases hfit : s.words + i.words ≤ s.limits.code.toNat
  · exact .ok s.code.size { s with code := s.code.push i, words := s.words + i.words } rfl rfl
      fun g => (emit_apply i _).trans (if_pos hfit)
  · exact .error ⟨s.line, .capacityExceeded .code s.limits.code.toNat⟩
      fun g => (emit_apply i _).trans (if_neg hfit)

theorem storeData (bytes : List UInt8) (s : State) : Apart (storeData bytes) s := by
  by_cases hfit : s.data.size + bytes.length ≤ s.limits.data.toNat
  · exact .ok () { s with data := s.data ++ bytes } rfl rfl
      fun g => (storeData_apply bytes _).trans (if_pos hfit)
  · exact .error ⟨s.line, .capacityExceeded .data s.limits.data.toNat⟩
      fun g => (storeData_apply bytes _).trans (if_neg hfit)

theorem loadToPush (s : State) : Apart loadToPush s := by
  cases hback : s.code.back? with
  | none => exact .ok none s rfl rfl fun g => (loadToPush_apply _).trans (by simp only [hback])
  | some i =>
    cases i with
    | load width =>
      exact .ok (some width) { s with code := s.code.pop.push .push } rfl rfl fun g =>
        (loadToPush_apply _).trans (by simp only [hback])
    | _ => exact .ok none s rfl rfl fun g => (loadToPush_apply _).trans (by simp only [hback])

theorem dropLoad (s : State) : Apart dropLoad s := by
  cases hback : s.code.back? with
  | none => exact .ok false s rfl rfl fun g => (dropLoad_apply _).trans (by simp only [hback])
  | some i =>
    cases i with
    | load width =>
      exact .ok true { s with code := s.code.pop, words := s.words - 1 } rfl rfl fun g =>
        (dropLoad_apply _).trans (by simp only [hback])
    | _ => exact .ok false s rfl rfl fun g => (dropLoad_apply _).trans (by simp only [hback])

theorem defineGlobal (id : SymbolId) (b : Binding) (s : State) : Apart (defineGlobal id b) s := by
  cases hdefine : s.symbols.define? id b with
  | none =>
    exact .error ⟨s.line, .duplicateGlobal (s.symbols.name id)⟩ fun g =>
      (defineGlobal_apply id b _).trans (by simp only [hdefine])
  | some symbols =>
    exact .ok () { s with symbols } rfl rfl fun g =>
      (defineGlobal_apply id b _).trans (by simp only [hdefine])

theorem declare (id : SymbolId) (type : CType) (slot : Word) (duplicate : String → Reason)
    (s : State) : Apart (declare id type slot duplicate) s := by
  cases hdeclare : s.symbols.declareLocal? id type slot with
  | none =>
    exact .error ⟨s.line, duplicate (s.symbols.name id)⟩ fun g =>
      (declare_apply id type slot duplicate _).trans (by simp only [hdeclare])
  | some symbols =>
    exact .ok () { s with symbols } rfl rfl fun g =>
      (declare_apply id type slot duplicate _).trans (by simp only [hdeclare])

/-- A look at the state that does not go to the listing. -/
theorem look {a : State → α} (ha : ∀ s g, a { s with listing := g } = a s) (s : State) :
    Apart (do return a (← get)) s :=
  .ok (a s) s rfl rfl fun g => congrArg (EStateM.Result.ok · _) (ha s (g s.listing))

/-- A change of the state that leaves the position and the listing alone. -/
theorem change {g : State → State}
    (hg : ∀ s l, g { s with listing := l } = { g s with listing := l })
    (hahead : ∀ s, (g s).ahead = s.ahead) (hlisting : ∀ s, (g s).listing = s.listing) (s : State) :
    Apart (modify g) s := by
  refine .ok ⟨⟩ (g s) (hahead s) (hlisting s) fun f => ?_
  show EStateM.Result.ok PUnit.unit (g { s with listing := f s.listing }) = _
  rw [hg, hlisting]

end Apart

/-- Of the basic actions only one has to do with the listing. -/
theorem Basic.apart {motive : {α : Type} → CompileM α → Prop} (moveOn : motive Compile.advance)
    (other : ∀ {α : Type} {x : CompileM α}, (∀ s, Apart x s) → motive x) (h : Basic p ids x) :
    motive x := by
  cases h with
  | advance => exact moveOn
  | pure a => exact other fun s => .ok a s rfl rfl fun _ => rfl
  | @fail _ reason => exact other fun s => .error ⟨s.line, reason⟩ fun _ => rfl
  | current | here | dataSize | frame | meaning => exact other (.look fun _ _ => rfl)
  | patch | defineFunction | openScope | closeScope | setFrame =>
    exact other (.change (fun _ _ => rfl) (fun _ => rfl) fun _ => rfl)
  | @emit i => exact other (.emit i)
  | loadToPush => exact other .loadToPush
  | dropLoad => exact other .dropLoad
  | storeData bytes => exact other (.storeData bytes)
  | defineGlobal => exact other (.defineGlobal _ _)
  | declare hid type slot => exact other (.declare _ type slot _)

/-! ## Moving on with a listing -/

section Moving

variable {l : Listing}

/-- With a sink that takes everything, the lines are listed as long as there are any, unless the
listing is ahead of the code. -/
theorem listLines_run (count : Nat) (hl : s.listing = some l) (hout : l.out.capacity = none) :
    (s.code.size < l.listed ∧
      listLines count s = .error ⟨l.line, .listingAhead l.listed s.code.size⟩ s) ∨
    ∃ more l', Lists s.code l more l' ∧ more.length ≤ count ∧
      (l'.rest = [] ∨ l.line + count ≤ l'.line) ∧
      listLines count s = .ok () { s with listing := some l' } := by
  have hstay : listLines 0 s = .ok () { s with listing := some l } := hl ▸ rfl
  induction count generalizing s l with
  | zero => exact .inr ⟨[], l, .none l, le_rfl, .inr le_rfl, hstay⟩
  | succ count ih =>
    by_cases hrest : l.rest.isEmpty = true
    · refine .inr ⟨[], l, .none l, Nat.zero_le _, .inl (List.isEmpty_iff.mp hrest), ?_⟩
      rw [listLines_of_empty (count + 1) hl hrest]
      exact hstay
    rw [listLines_succ count hl hrest, Sink.accepts_of_unlimited hout]
    by_cases hle : l.listed ≤ s.code.size
    · rw [if_pos hle, if_pos rfl]
      have hne : l.rest ≠ [] := fun hnil => hrest (List.isEmpty_iff.mpr hnil)
      have hout' : (l.behind s.code).out.capacity = none := (Sink.capacity_write _ _).trans hout
      have hnext : (l.behind s.code).line = l.line + 1 := rfl
      obtain ⟨hlt, -⟩ | ⟨more, l', hlists, hcount, hlines, hrun⟩ :=
        ih (s := s.recorded l) (l := l.behind s.code) rfl hout' rfl
      · exact absurd hlt (Nat.lt_irrefl _)
      · refine .inr ⟨_ :: more, l', .line hne hle hlists, Nat.succ_le_succ hcount, ?_, hrun⟩
        exact hlines.imp_right fun hline => by omega
    · exact .inl ⟨Nat.lt_of_not_le hle, if_neg hle⟩

/-- The state behind the next token. -/
def State.moved (s : State) (token : Token) (line : Nat) (items : List Lexeme) : State :=
  { s with current := token, line, rest := .ofList items }

/-- How moving on may end: there is no other token, none that can be read, instructions that were
listed are gone, or some lines are listed. -/
inductive Moved (s : State) (l : Listing) : EStateM.Result CompileError State Unit → Prop
  | stays (h : s.rest.items = []) : Moved s l (.ok () s)
  | unread {lexeme : Lexeme} {items : List Lexeme} {reason : Reason}
      (hitems : s.rest.items = lexeme :: items) (htoken : lexeme.token = .error reason) :
      Moved s l (.error ⟨lexeme.line, reason⟩ s)
  | ahead {lexeme : Lexeme} {items : List Lexeme} {token : Token}
      (hitems : s.rest.items = lexeme :: items) (htoken : lexeme.token = .ok token)
      (hlt : s.code.size < l.listed) :
      Moved s l (.error ⟨l.line, .listingAhead l.listed s.code.size⟩
        (s.moved token lexeme.line items))
  | moved {lexeme : Lexeme} {items : List Lexeme} {token : Token} {more : List Entry}
      {l' : Listing} (hitems : s.rest.items = lexeme :: items) (htoken : lexeme.token = .ok token)
      (hlists : Lists s.code l more l') (hcount : more.length ≤ lexeme.line - l.line)
      (hlines : l'.rest = [] ∨ lexeme.line ≤ l'.line) :
      Moved s l (.ok () { s.moved token lexeme.line items with listing := some l' })

theorem advance_moved (hl : s.listing = some l) (hout : l.out.capacity = none) :
    Moved s l (advance s) := by
  rw [advance_apply]
  cases hitems : s.rest.items with
  | nil => exact .stays hitems
  | cons lexeme items =>
    dsimp only
    cases htoken : lexeme.token with
    | error reason => exact .unread hitems htoken
    | ok token =>
      have hl' : (s.moved token lexeme.line items).listing = some l := hl
      show Moved s l (listBefore lexeme.line (s.moved token lexeme.line items))
      rw [listBefore, get_bind, hl']
      dsimp only
      obtain ⟨hlt, hrun⟩ | ⟨more, l', hlists, hcount, hlines, hrun⟩ :=
        listLines_run (lexeme.line - l.line) hl' hout
      · rw [hrun]
        exact .ahead hitems htoken hlt
      · rw [hrun]
        exact .moved hitems htoken hlists hcount (hlines.imp_right fun hline => by omega)

end Moving

/-! ## Compilations with and without a listing -/

/-- A state in the midst of a compilation whose listing has come to be by the given entries. -/
structure Recording (source : List UInt8) (out : Sink) (s : State) (l : Listing)
    (entries : List Entry) : Prop where
  listing_eq : s.listing = some l
  records : Records source out l entries
  line_le : l.line ≤ s.line
  located : Located source s.ahead

variable {source : List UInt8} {out : Sink} {l : Listing} {entries : List Entry}

namespace Recording

theorem of_same (h : Recording source out s l entries) (hahead : s'.ahead = s.ahead)
    (hlisting : s'.listing = s.listing) : Recording source out s' l entries := by
  have hline : s'.line = s.line := congrArg Lexeme.line (List.cons.inj hahead).1
  exact ⟨hlisting.trans h.listing_eq, h.records, hline ▸ h.line_le, hahead ▸ h.located⟩

theorem capacity_eq (h : Recording source out s l entries) (hout : out.capacity = none) :
    l.out.capacity = none := by
  rw [h.records.out_eq, Sink.capacity_write, hout]

/-- There is a line left to be listed as long as there is a token. -/
theorem rest_ne_nil (h : Recording source out s l entries) (hne : s.current ≠ .eof) :
    l.rest ≠ [] := by
  have hinside := h.located.inside ⟨s.line, .ok s.current⟩ List.mem_cons_self (by simpa using hne)
  have hline := h.records.line_eq
  have hle := h.line_le
  rw [h.records.rest_eq]
  exact linesBehind_ne_nil (show entries.length ≤ s.line - 1 by omega) hinside

theorem moved {lexeme : Lexeme} {items : List Lexeme} {token : Token} {more : List Entry}
    {l' : Listing} (h : Recording source out s l entries) (hitems : s.rest.items = lexeme :: items)
    (htoken : lexeme.token = .ok token) (hlists : Lists s.code l more l')
    (hcount : more.length ≤ lexeme.line - l.line) :
    Recording source out { s.moved token lexeme.line items with listing := some l' } l'
      (entries ++ more) := by
  have hahead : s.ahead = ⟨s.line, .ok s.current⟩ :: lexeme :: items := by rw [State.ahead, hitems]
  have hlexeme : (⟨lexeme.line, .ok token⟩ : Lexeme) = lexeme := by rw [← htoken]
  obtain ⟨hsorted, hinside⟩ := hahead ▸ h.located
  obtain ⟨hbehind, hsorted⟩ := List.pairwise_cons.mp hsorted
  refine ⟨rfl, hlists.records h.records, ?_, ?_⟩
  · have hle := h.line_le
    have hnext := hbehind lexeme List.mem_cons_self
    show l'.line ≤ lexeme.line
    rw [hlists.line_eq]
    dsimp only at hnext
    omega
  · show Located source (⟨lexeme.line, .ok token⟩ :: items)
    rw [hlexeme]
    exact ⟨hsorted, fun x hx => hinside x (List.mem_cons_of_mem _ hx)⟩

end Recording

/-- Instructions that were listed are gone when the next line is due. -/
def Overtakes (l : Listing) (r : EStateM.Result CompileError State α) : Prop :=
  ∃ line t, r = .error ⟨line, .listingAhead l.listed t.code.size⟩ t ∧ t.code.size < l.listed

/-- The action does with a listing what it does without one, unless the listing overtakes it. -/
def Shadows (source : List UInt8) (out : Sink) (x : CompileM α) (s : State) : Prop :=
  ∃ l entries, Recording source out (after x s) l entries ∧
    (Overtakes l (x s) ∨ x { s with listing := none } = relist (fun _ => none) (x s))

theorem Shadows.bind (hx : Shadows source out x s)
    (hf : ∀ a s' l entries, x s = .ok a s' → Recording source out s' l entries →
      Shadows source out (f a) s') : Shadows source out (x >>= f) s := by
  obtain ⟨l, entries, hr, hend⟩ := hx
  cases h : x s with
  | error e s' =>
    rw [after_of_error h] at hr
    refine ⟨l, entries, by rwa [after_bind_of_error h], ?_⟩
    rw [h] at hend
    rw [bind_of_error h]
    rcases hend with ⟨line, t, herror, hlt⟩ | hsame
    · cases herror
      exact .inl ⟨line, s', rfl, hlt⟩
    · exact .inr (bind_of_error hsame)
  | ok a s' =>
    rw [after_of_ok h] at hr
    rw [h] at hend
    rcases hend with ⟨line, t, herror, -⟩ | hsame
    · cases herror
    · obtain ⟨l', entries', hr', hend'⟩ := hf a s' l entries h hr
      refine ⟨l', entries', by rwa [after_bind_of_ok h], ?_⟩
      rw [bind_of_ok h, bind_of_ok hsame]
      exact hend'

theorem Apart.shadows (h : Apart x s) (hr : Recording source out s l entries) :
    Shadows source out x s :=
  ⟨l, entries, hr.of_same h.same.1 h.same.2, .inr (h.relist_eq fun _ => none)⟩

theorem shadows_advance (hout : out.capacity = none) (hr : Recording source out s l entries) :
    Shadows source out advance s := by
  have hmoved := advance_moved hr.listing_eq (hr.capacity_eq hout)
  generalize hend : advance s = r at hmoved
  cases hmoved with
  | stays h =>
    refine ⟨l, entries, by rwa [after_of_ok hend], .inr ?_⟩
    simp only [hend, advance_apply, h]
    rfl
  | unread hitems htoken =>
    refine ⟨l, entries, by rwa [after_of_error hend], .inr ?_⟩
    simp only [hend, advance_apply, hitems, htoken]
    rfl
  | @ahead lexeme items token hitems htoken hlt =>
    have hmoved := hr.moved hitems htoken (.none l) (Nat.zero_le _)
    rw [List.append_nil] at hmoved
    refine ⟨l, entries, ?_, .inl ⟨l.line, s.moved token lexeme.line items, hend, hlt⟩⟩
    rw [after_of_error hend]
    exact hmoved.of_same rfl hr.listing_eq
  | moved hitems htoken hlists hcount =>
    have hmoved := hr.moved hitems htoken hlists hcount
    refine ⟨_, _, by rwa [after_of_ok hend], .inr ?_⟩
    simp only [hend, advance_apply, hitems, htoken]
    exact listBefore_of_none rfl

theorem Composed.shadows (hout : out.capacity = none) (h : Composed p ids x)
    (hr : Recording source out s l entries) : Shadows source out x s := by
  induction h generalizing s l entries with
  | basic h =>
    exact h.apart (motive := fun x => ∀ s l entries, Recording source out s l entries →
      Shadows source out x s) (fun _ _ _ hr => shadows_advance hout hr)
      (fun hapart s _ _ hr => (hapart s).shadows hr) s l entries hr
  | bind _ _ ihx ihf => exact (ihx hr).bind fun a s' _ _ hfirst hr' => ihf s a s' hfirst hr'
  | @whileToken _ _ more body _ _ a ih =>
    have hloop : ∀ fuel a s l entries, Recording source out s l entries →
        Shadows source out (Compile.loop more body fuel a) s := by
      intro fuel
      induction fuel with
      | zero => exact fun a s l entries hr => ⟨l, entries, hr, .inr rfl⟩
      | succ fuel ihfuel =>
        intro a s l entries hr
        refine Shadows.bind ⟨l, entries, hr, .inr rfl⟩ fun token s' l entries hcurrent hr => ?_
        obtain ⟨rfl, rfl⟩ := current_eq_ok.mp hcurrent
        split
        · exact (ih a hr).bind fun a' s' l entries _ hr' => ihfuel a' s' l entries hr'
        · exact ⟨l, entries, hr, .inr rfl⟩
    obtain ⟨l', entries', hr', hend⟩ := hloop (s.left + 1) a s l entries hr
    rw [after, ← whileToken_apply, ← after] at hr'
    refine ⟨l', entries', hr', ?_⟩
    rw [whileToken_apply, whileToken_apply]
    exact hend

theorem Composed.recording {a : α} (hout : out.capacity = none) (h : Composed p ids x)
    (hr : Recording source out s l entries) (hx : x s = .ok a s') :
    ∃ l' entries', Recording source out s' l' entries' := by
  obtain ⟨l', entries', hr', -⟩ := h.shadows hout hr
  exact ⟨l', entries', after_of_ok hx ▸ hr'⟩

/-! ## Code that is left when all lines are listed -/

/-- Where all lines are listed, all code is. -/
def Settled (s : State) (l : Listing) : Prop := l.rest = [] → l.listed = s.code.size

theorem settled_advance {u : Unit} (hout : out.capacity = none)
    (hr : Recording source out s l entries) (hsettled : Settled s l)
    (h : advance s = .ok u s') :
    ∃ l' entries', Recording source out s' l' entries' ∧ Settled s' l' := by
  have hmoved := advance_moved hr.listing_eq (hr.capacity_eq hout)
  rw [h] at hmoved
  cases hmoved with
  | stays => exact ⟨l, entries, hr, hsettled⟩
  | moved hitems htoken hlists hcount =>
    refine ⟨_, _, hr.moved hitems htoken hlists hcount, ?_⟩
    rcases hlists.rows_eq with ⟨-, rfl⟩ | ⟨-, -, hlisted⟩
    · exact hsettled
    · exact fun _ => hlisted

/-- The action, if it succeeds, leaves no code behind all lines. -/
def Settles (source : List UInt8) (out : Sink) (x : CompileM α) : Prop :=
  ∀ {s l entries a s'}, Closed s → Recording source out s l entries → x s = .ok a s' →
    ∃ l' entries', Recording source out s' l' entries' ∧ Settled s' l'

namespace Settles

theorem behind (hout : out.capacity = none) (hx : Composed .all ∅ x)
    (hf : ∀ a, Settles source out (f a)) : Settles source out (x >>= f) := by
  intro s l entries b s' hs hr h
  obtain ⟨a, s₁, hfirst, hsecond⟩ := bind_eq_ok.mp h
  obtain ⟨l₁, entries₁, hr₁⟩ := hx.recording hout hr hfirst
  exact hf a ((hx.steps_ok hfirst).closed hs) hr₁ hsecond

/-- A declaration ends by moving on over a token, and so on a line that is still to be listed. -/
theorem declarators (hout : out.capacity = none) (base : CType) : Settles source out (do
    whileToken (fun token => token ≠ .semicolon ∧ token ≠ .rightBrace)
      (fun _ => declarator base) ()
    advance) := by
  intro s l entries u s' hs hr h
  obtain ⟨_, s₁, hloop, hadvance⟩ := bind_eq_ok.mp h
  have hcomposed : Composed .all ∅ (whileToken
      (fun token => token ≠ .semicolon ∧ token ≠ .rightBrace) (fun _ => declarator base) ()) :=
    .rounds (fun _ => .declarator base) ()
  obtain ⟨l₁, entries₁, hr₁⟩ := hcomposed.recording hout hr hloop
  have hstop := Composed.not_more (fun _ => (Advances.declarator base).composed)
    (fun _ _ _ _ hs _ h => (Advances.declarator base).left_lt hs h) hs hloop
  have hne : s₁.current ≠ .eof := by
    intro heof
    simp [heof] at hstop
  exact settled_advance hout hr₁ (fun hnil => absurd hnil (hr₁.rest_ne_nil hne)) hadvance

theorem declaration (hout : out.capacity = none) : Settles source out declaration := by
  refine behind hout (.basic .current) fun token => ?_
  split
  · exact behind hout .enumeration fun _ => behind hout (.pure _) (declarators hout)
  · exact behind hout .baseType (declarators hout)

theorem loop {more : Token → Bool} {body : α → CompileM α}
    (hcomposed : ∀ a, Composed .all ∅ (body a)) (hbody : ∀ a, Settles source out (body a))
    {a a' : α} {fuel : Nat} (hs : Closed s)
    (hr : Recording source out s l entries) (hsettled : Settled s l)
    (h : Compile.loop more body fuel a s = .ok a' s') :
    ∃ l' entries', Recording source out s' l' entries' ∧ Settled s' l' := by
  induction fuel generalizing s l entries a with
  | zero =>
    cases h
    exact ⟨l, entries, hr, hsettled⟩
  | succ fuel ih =>
    cases hm : more s.current with
    | false =>
      rw [loop_succ_of_not_more hm] at h
      cases h
      exact ⟨l, entries, hr, hsettled⟩
    | true =>
      rw [loop_succ_of_more hm] at h
      obtain ⟨a₁, s₁, hround, h⟩ := bind_eq_ok.mp h
      obtain ⟨l₁, entries₁, hr₁, hsettled₁⟩ := hbody a hs hr hround
      exact ih (((hcomposed a).steps_ok hround).closed hs) hr₁ hsettled₁ h

end Settles

/-! ## Whole sources -/

theorem recording_start (source : List UInt8) (limits : Limits) (out : Sink) :
    Recording source out (start source limits (some out)) ⟨source, 1, 0, out⟩ [] := by
  have hsource : (reader source limits).rest <:+ linesBehind 0 source := List.suffix_refl source
  obtain ⟨hlocated, hlines⟩ :=
    (reads_start source limits (some out)).located (show 0 < 1 by omega) hsource
  refine ⟨rfl, records_start source out, le_rfl, ?_, fun x hx hne => ?_⟩
  · exact List.pairwise_cons.mpr ⟨hlines, hlocated.sorted⟩
  · rcases List.mem_cons.mp hx with rfl | hx
    · exact absurd rfl hne
    · exact hlocated.inside x hx hne

theorem Ready.settled_declarations {u : Unit} (hout : out.capacity = none) (hs : Ready n s)
    (hr : Recording source out s l entries) (hsettled : Settled s l)
    (h : declarations s = .ok u s') :
    ∃ l' entries', Recording source out s' l' entries' ∧ Settled s' l' := by
  obtain ⟨_, s₁, hadv, hloop⟩ := bind_eq_ok.mp h
  obtain ⟨l₁, entries₁, hr₁, hsettled₁⟩ := settled_advance hout hr hsettled hadv
  rw [whileToken_apply] at hloop
  exact Settles.loop (fun _ => Advances.declaration.composed) (fun _ => Settles.declaration hout)
    (hs.proper hadv).closed hr₁ hsettled₁ hloop

/-- At the end of the source the line that it ends on is listed. -/
theorem finish_run (hout : out.capacity = none) (hr : Recording source out s l entries) :
    (s.code.size < l.listed ∧
      finish s = .error ⟨l.line, .listingAhead l.listed s.code.size⟩ s) ∨
    ∃ more l', Lists s.code l more l' ∧ (l'.rest = [] ∨ s.line < l'.line) ∧
      finish s = if (s.symbols.binding SymbolTable.entry).kind = .function then
          .ok ⟨s.code, s.data, s.symbols⟩ { s with listing := some l' }
        else .error ⟨s.line, .mainNotDefined⟩ { s with listing := some l' } := by
  have hlist : listBefore (s.line + 1) s = listLines (s.line + 1 - l.line) s := by
    rw [listBefore, get_bind, hr.listing_eq]
  have hle := hr.line_le
  obtain ⟨hlt, hrun⟩ | ⟨more, l', hlists, -, hlines, hrun⟩ :=
    listLines_run (s.line + 1 - l.line) hr.listing_eq (hr.capacity_eq hout)
  · exact .inl ⟨hlt, by rw [finish, get_bind, bind_of_error (hlist.trans hrun)]⟩
  · refine .inr ⟨more, l', hlists, hlines.imp_right fun h => by omega, ?_⟩
    rw [finish, get_bind, bind_of_ok (hlist.trans hrun)]
    split <;> rfl

theorem finish_listed (hout : out.capacity = none) (hr : Recording source out s l entries)
    (hsettled : Settled s l) :
    ∃ l' entries', (after finish s).listing = some l' ∧ Records source out l' entries' ∧
      (Overtakes l' (finish s) ∨
        finish { s with listing := none } = relist (fun _ => none) (finish s) ∧
          l'.listed = (after finish s).code.size) := by
  obtain ⟨hlt, hend⟩ | ⟨more, l', hlists, hlines, hend⟩ := finish_run hout hr
  · refine ⟨l, entries, ?_, hr.records, .inl ⟨l.line, s, hend, hlt⟩⟩
    rw [after_of_error hend]
    exact hr.listing_eq
  · have hlisted : l'.listed = s.code.size := by
      rcases hlists.rows_eq with ⟨-, rfl⟩ | ⟨-, -, hlisted⟩
      · exact hsettled (hlines.resolve_right (Nat.not_lt.mpr hr.line_le))
      · exact hlisted
    refine ⟨l', entries ++ more, ?_, hlists.records hr.records, .inr ⟨?_, ?_⟩⟩
    · rw [after, hend]
      split_ifs <;> rfl
    · rw [hend, finish_apply rfl]
      split_ifs <;> rfl
    · rw [after, hend, hlisted]
      split_ifs <;> rfl

/-- A compilation with a listing comes to the same end as the one without, unless the listing
overtakes it. If it succeeds, all instructions are listed. -/
theorem program_listed (source : List UInt8) (limits : Limits) (hout : out.capacity = none) :
    ∃ l entries, (after program (start source limits (some out))).listing = some l ∧
      Records source out l entries ∧
      (Overtakes l (program (start source limits (some out))) ∨
        program (start source limits none) =
            relist (fun _ => none) (program (start source limits (some out))) ∧
          ∀ p s, program (start source limits (some out)) = .ok p s → l.listed = p.code.size) := by
  have hready := ready_start source limits (some out)
  have hr := recording_start source limits out
  rw [program_eq]
  obtain ⟨l, entries, hrend, hend⟩ := composed_declarations.shadows hout hr
  cases h : declarations (start source limits (some out)) with
  | error e s =>
    rw [after_of_error h] at hrend
    rw [h] at hend
    rw [after_bind_of_error h, bind_of_error h]
    refine ⟨l, entries, hrend.listing_eq, hrend.records, ?_⟩
    rcases hend with ⟨line, t, herror, hlt⟩ | hsame
    · cases herror
      exact .inl ⟨line, s, rfl, hlt⟩
    · exact .inr ⟨bind_of_error hsame, fun p s hp => by cases hp⟩
  | ok u s =>
    obtain ⟨l₁, entries₁, hr₁, hsettled⟩ := hready.settled_declarations hout hr (fun _ => rfl) h
    rw [h] at hend
    rw [after_bind_of_ok h, bind_of_ok h]
    have hsame : declarations (start source limits none) = .ok u { s with listing := none } := by
      rcases hend with ⟨line, t, herror, -⟩ | hsame
      · cases herror
      · exact hsame
    obtain ⟨l', entries', hl', hrecords, hfinish⟩ := finish_listed hout hr₁ hsettled
    refine ⟨l', entries', hl', hrecords, hfinish.imp_right fun ⟨hfinish, hlisted⟩ => ?_⟩
    refine ⟨(bind_of_ok hsame).trans hfinish, fun p s' hp => ?_⟩
    rw [hlisted, after_of_ok hp, finish_ok hp]

end Compile

end MiniC
