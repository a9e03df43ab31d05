import MiniC.Proofs.Compiling.Lockstep
import MiniC.Proofs.Compiling.Regions

/-!
# Limits only cut a compilation off

A source is read twice, with a smaller and with a larger table of names. The tables are the same
until the smaller one is full (`Roomier`), and from then on a name is either known to both or cannot
be read with the smaller one. So the lexemes are alike (`Reads.alike`), the two compilations run in
lockstep, and one with larger limits can only get further.
-/

namespace MiniC

namespace Lexer

/-- The second table has more room: it holds the same names, and more only if the first is full. -/
structure Roomier (t t' : SymbolTable) : Prop where
  fresh : t.Fresh
  fresh' : t'.Fresh
  grows : t.symbols.toList <+: t'.symbols.toList
  same_or_full : t'.symbols = t.symbols ∨ t.capacity ≤ t.size
  capacity_le : t.capacity ≤ t'.capacity

theorem nameToken_eq {n : Nat} {t t' : SymbolTable} {id : SymbolId} (h : SymbolTable.Agree n t t')
    (hid : id < n) : nameToken t' id = nameToken t id := by
  rw [nameToken, nameToken, h.binding_eq hid]

/-- A table only grows when a name is entered. -/
theorem enter_grows {t : SymbolTable} (hf : t.Fresh) (name : String) :
    (enter t name).2.Fresh ∧ t.symbols.toList <+: (enter t name).2.symbols.toList ∧
      (enter t name).2.capacity = t.capacity := by
  rw [enter]
  cases hintern : t.intern name with
  | error reason => exact ⟨hf, List.prefix_refl _, rfl⟩
  | ok r =>
    obtain ⟨-, hgrow, hfresh⟩ := SymbolTable.intern_ok hintern hf
    exact ⟨hfresh, hgrow, (intern_capacity hintern).1⟩

/-- A name that can be entered into the smaller table has the same number in the larger one. -/
theorem Roomier.enter {t t' : SymbolTable} (h : Roomier t t') (name : String) :
    Roomier (enter t name).2 (enter t' name).2 ∧
      (((Lexer.enter t' name).1 = (Lexer.enter t name).1 ∧
          (t'.symbols = t.symbols →
            (Lexer.enter t' name).2.symbols = (Lexer.enter t name).2.symbols)) ∨
        ∃ reason, (Lexer.enter t name).1 = .error reason ∧ reason.isCapacity = true) := by
  obtain ⟨hfresh, hgrow, hcap⟩ := enter_grows h.fresh name
  obtain ⟨hfresh', hgrow', hcap'⟩ := enter_grows h.fresh' name
  cases hl : t.lookup name with
  | some id =>
    obtain ⟨_, hs, -⟩ := SymbolTable.getElem?_of_lookup h.fresh.indexed hl
    have hid : id < t.size := (Array.getElem?_eq_some_iff.mp hs).1
    have hl' := SymbolTable.lookup_mono h.fresh.indexed h.fresh'.indexed h.grows hl
    rw [enter_of_lookup hl, enter_of_lookup hl']
    refine ⟨h, .inl ⟨?_, fun h => h⟩⟩
    rw [nameToken_eq (SymbolTable.Agree.of_grows h.fresh h.fresh' h.grows) hid]
  | none =>
    by_cases hroom : t.size < t.capacity
    · have hsame : t'.symbols = t.symbols := h.same_or_full.resolve_right (by omega)
      have hnames : t'.names = t.names := by rw [SymbolTable.names, hsame]; rfl
      have hl' : t'.lookup name = none := by
        rw [h.fresh'.indexed.lookup_eq_none_iff, hnames]
        exact h.fresh.indexed.lookup_eq_none_iff.mp hl
      have hsize : t'.size = t.size := by rw [SymbolTable.size, hsame]; rfl
      have hroom' : t'.size < t'.capacity := hsize.trans_lt (hroom.trans_le h.capacity_le)
      rw [enter_of_room hl hroom] at hfresh ⊢
      rw [enter_of_room hl' hroom'] at hfresh' ⊢
      have hsame' : (t'.add ⟨name, .unbound⟩).symbols = (t.add ⟨name, .unbound⟩).symbols := by
        rw [SymbolTable.add, hsame]
        rfl
      have hprefix : (t.add ⟨name, .unbound⟩).symbols.toList <+:
          (t'.add ⟨name, .unbound⟩).symbols.toList := by rw [hsame']
      have hlt : t.size < (t.add ⟨name, .unbound⟩).size := by
        simp [SymbolTable.size, SymbolTable.add]
      refine ⟨⟨hfresh, hfresh', hprefix, .inl hsame', h.capacity_le⟩, .inl ⟨?_, fun _ => hsame'⟩⟩
      rw [hsize, nameToken_eq (SymbolTable.Agree.of_grows hfresh hfresh' hprefix) hlt]
    · rw [enter_of_full hl (Nat.le_of_not_lt hroom)]
      refine ⟨⟨h.fresh, hfresh', h.grows.trans hgrow', .inr (Nat.le_of_not_lt hroom), ?_⟩, .inr ?_⟩
      · rw [hcap']
        exact h.capacity_le
      · exact ⟨_, rfl, rfl⟩

/-- Two readings of the same source, the second with more room for names. -/
structure Beside (lx lx' : Lexer) : Prop where
  rest_eq : lx'.rest = lx.rest
  line_eq : lx'.line = lx.line
  symbols : Roomier lx.symbols lx'.symbols

theorem Beside.scan_eq {lx lx' : Lexer} (h : Beside lx lx') : lx'.scan = lx.scan := by
  rw [scan, scan, h.rest_eq, h.line_eq]

theorem Beside.next {lx lx' : Lexer} (h : Beside lx lx') :
    Beside lx.next.2 lx'.next.2 ∧
      ((lx'.next.1 = lx.next.1 ∧ (lx'.symbols.symbols = lx.symbols.symbols →
          lx'.next.2.symbols.symbols = lx.next.2.symbols.symbols)) ∨
        ∃ reason, lx.next.1 = .error reason ∧ reason.isCapacity = true) := by
  rw [next_eq, next_eq, h.scan_eq, h.rest_eq, h.line_eq]
  cases lx.scan.1 with
  | eof => exact ⟨⟨rfl, rfl, h.symbols⟩, .inl ⟨rfl, fun h => h⟩⟩
  | other token => exact ⟨⟨rfl, rfl, h.symbols⟩, .inl ⟨rfl, fun h => h⟩⟩
  | name text =>
    obtain ⟨hroomier, htoken⟩ := h.symbols.enter text
    exact ⟨⟨rfl, rfl, hroomier⟩, htoken⟩

/-- The lexemes of the two readings are alike, and so are the tables if no lexeme is an error. -/
theorem Reads.alike {lx lx' : Lexer} {items items' : List Lexeme} {t t' : SymbolTable}
    (h : Reads lx items t) (h' : Reads lx' items' t') (hb : Beside lx lx') :
    Compile.Alike False items items' ∧ items'.length = items.length ∧ Roomier t t' ∧
      (lx'.symbols.symbols = lx.symbols.symbols → (∀ l ∈ items, ∃ token, l.token = .ok token) →
        t'.symbols = t.symbols) := by
  induction h generalizing lx' items' with
  | @eof lx hfound =>
    have hline : lx'.next.2.line = lx.next.2.line := hb.next.1.line_eq
    cases h' with
    | eof =>
      rw [hline]
      exact ⟨.cons _ .nil, rfl, hb.symbols, fun h _ => h⟩
    | next hfound' => exact absurd (hb.scan_eq ▸ hfound) hfound'
  | @next lx items t hfound _ ih =>
    cases h' with
    | eof hfound' => exact absurd (hb.scan_eq ▸ hfound') hfound
    | @next _ items' _ hfound' hrest' =>
      obtain ⟨hnext, htoken⟩ := hb.next
      obtain ⟨halike, hlength, hroomier, hsame⟩ := ih hrest' hnext
      rw [hnext.line_eq]
      rcases htoken with ⟨heq, hsymbols⟩ | ⟨reason, herror, hcapacity⟩
      · rw [heq]
        refine ⟨.cons _ halike, by simp [hlength], hroomier, fun h hread => ?_⟩
        exact hsame (hsymbols h) fun l hl => hread l (List.mem_cons_of_mem _ hl)
      · rw [herror]
        refine ⟨.full hcapacity _ _ _, by simp [hlength], hroomier, fun _ hread => ?_⟩
        obtain ⟨token, htoken⟩ := hread _ List.mem_cons_self
        exact absurd htoken (by simp)

end Lexer

namespace Compile

open Program (compile)

variable {s s' : State} {source : List UInt8} {limits limits' : Limits}

theorem beside_reader (source : List UInt8) (h : limits.symbols ≤ limits'.symbols) :
    Lexer.Beside (reader source limits) (reader source limits') :=
  ⟨rfl, rfl, SymbolTable.fresh_builtin _, SymbolTable.fresh_builtin _, List.prefix_refl _, .inl rfl,
    UInt64.le_iff_toNat_le.mp h⟩

theorem tracks_of_larger (source : List UInt8) (hsymbols : limits.symbols ≤ limits'.symbols)
    (hcode : limits.code ≤ limits'.code) (hdata : limits.data ≤ limits'.data) :
    Tracks False (start source limits none).symbols.size 0 (start source limits none)
      (start source limits' none) := by
  obtain ⟨halike, hlength, hroomier, -⟩ := (reads_start source limits none).alike
    (reads_start source limits' none) (beside_reader source hsymbols)
  exact tracks_start halike hlength (.of_grows hroomier.fresh hroomier.fresh' hroomier.grows)
    hcode hdata

theorem indexed_start (source : List UInt8) (limits : Limits) (listing : Option Sink) :
    (start source limits listing).symbols.Indexed :=
  ((reads_start source limits listing).grows (fresh_reader source limits)).2.indexed

/-- Where all lexemes could be read with the smaller table, the tables differ in nothing but their
capacity. -/
theorem symbols_of_larger {u u' : Unit} {t t' : State} (hsymbols : limits.symbols ≤ limits'.symbols)
    (h : declarations (start source limits none) = .ok u t)
    (h' : declarations (start source limits' none) = .ok u' t')
    (ht : SymbolTable.Agree (start source limits none).symbols.size t.symbols t'.symbols) :
    t'.symbols = { t.symbols with capacity := limits'.symbols.toNat } := by
  have hready := ready_start source limits none
  have hsteps := steps_declarations (start source limits none)
  have hsteps' := steps_declarations (start source limits' none)
  rw [after_of_ok h] at hsteps
  rw [after_of_ok h'] at hsteps'
  have hsame : (start source limits' none).symbols.symbols =
      (start source limits none).symbols.symbols :=
    ((reads_start source limits none).alike (reads_start source limits' none)
      (beside_reader source hsymbols)).2.2.2 rfl (hready.declarations_ok h).2
  have hsize : t'.symbols.size = (start source limits none).symbols.size :=
    hsteps'.sameNames.size_eq.trans (congrArg Array.size hsame)
  have hcapacity : t'.symbols.capacity = limits'.symbols.toNat :=
    hsteps'.sameNames.capacity_eq.trans
      ((reads_start source limits' none).bounded (bounded_reader source limits')).capacity_eq
  have hrecords := ht.symbols_eq_of_size hsteps.sameNames.size_eq hsize
  have hindex : t'.symbols.index = t.symbols.index := by
    rw [(hsteps'.sameNames.indexed (indexed_start source limits' none)).index_eq,
      (hsteps.sameNames.indexed (indexed_start source limits none)).index_eq,
      SymbolTable.names, SymbolTable.names, hrecords]
  calc t'.symbols =
      ⟨t'.symbols.symbols, t'.symbols.index, t'.symbols.scopes, t'.symbols.capacity⟩ := rfl
    _ = _ := by rw [hrecords, hindex, ht.scopes_eq, hcapacity]

/-- What compiles with smaller limits compiles to the same program with larger ones, and what fails
fails in the same way, unless it is a region that is too small. The program records the capacity of
its table of names, which is all that differs. -/
theorem compile_of_larger_limits (source : List UInt8) {limits limits' : Limits}
    (hsymbols : limits.symbols ≤ limits'.symbols) (hcode : limits.code ≤ limits'.code)
    (hdata : limits.data ≤ limits'.data) :
    (∀ p, compile source limits = .ok p → compile source limits' =
      .ok { p with symbols := { p.symbols with capacity := limits'.symbols.toNat } }) ∧
    ∀ e, compile source limits = .error e → e.reason.isCapacity = false →
      compile source limits' = .error e := by
  have hready := ready_start source limits none
  rw [compile_eq, compile_eq]
  cases hready.together (tracks_of_larger source hsymbols hcode hdata) with
  | error h h' =>
    rw [h, h']
    exact ⟨by simp, fun e he _ => he⟩
  | full h he =>
    rw [h]
    refine ⟨by simp, fun e' heq hreason => ?_⟩
    obtain rfl := Except.error.inj heq
    simp [he] at hreason
  | past hseam => exact hseam.elim
  | @ok _ t t' h h' ht =>
    have htable := symbols_of_larger hsymbols h h' ht.symbols
    rw [h, h']
    dsimp only
    rw [ht.code_eq, ht.data_eq, ht.line_eq, htable]
    have hbinding : ({ t.symbols with capacity := limits'.symbols.toNat } : SymbolTable).binding =
        t.symbols.binding := rfl
    rw [hbinding]
    split_ifs
    · exact ⟨fun p hp => by rw [← Except.ok.inj hp], by simp⟩
    · exact ⟨by simp, fun e he _ => he⟩

/-- A source that fills the regions of `tightLimits` to the last record, word and byte. -/
def tightSource : List UInt8 := Utf8.encode
  "int total; int add(int n) { return total = total + n; } int main() { return add(2); }"

def tightLimits : Limits := ⟨25, 27, 8, 0, 0, 0⟩

def faultySource : List UInt8 := Utf8.encode "int main() { return x; }"

theorem compile_of_tight_limits :
    (∃ p, compile tightSource tightLimits = .ok p ∧ p.words.length = 27 ∧
      compile tightSource (.ofPoolSize Limits.defaultPoolSize) =
        .ok { p with symbols := { p.symbols with
          capacity := (Limits.ofPoolSize Limits.defaultPoolSize).symbols.toNat } }) ∧
      compile faultySource tightLimits = .error ⟨1, .undefinedVariable "x"⟩ ∧
      compile faultySource (.ofPoolSize Limits.defaultPoolSize) =
        .error ⟨1, .undefinedVariable "x"⟩ := by
  have hlarger := fun source => compile_of_larger_limits source
    (by decide : tightLimits.symbols ≤ (Limits.ofPoolSize Limits.defaultPoolSize).symbols)
    (by decide : tightLimits.code ≤ (Limits.ofPoolSize Limits.defaultPoolSize).code)
    (by decide : tightLimits.data ≤ (Limits.ofPoolSize Limits.defaultPoolSize).data)
  have hwords : (compile tightSource tightLimits).toOption.map (·.words.length) = some 27 := by
    decide +kernel
  have hfaulty : compile faultySource tightLimits = .error ⟨1, .undefinedVariable "x"⟩ := by
    decide +kernel
  refine ⟨?_, hfaulty, (hlarger faultySource).2 _ hfaulty rfl⟩
  cases h : compile tightSource tightLimits with
  | error e => simp [h, Except.toOption] at hwords
  | ok p =>
    simp only [h, Except.toOption, Option.map_some, Option.some.injEq] at hwords
    exact ⟨p, rfl, hwords, (hlarger tightSource).1 p h⟩

end Compile

end MiniC
