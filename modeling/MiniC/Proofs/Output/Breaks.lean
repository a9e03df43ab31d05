import MiniC.Proofs.Output.Sessions

/-!
# Line breaks behind parentheses

A line is listed as soon as a token behind it is looked at, with all the code that there is. `&`
looks at the token behind its operand and then removes the load that the operand's code ends with.
As a rule the load is emitted after that look, so it is not listed. But where the operand ends with
parentheses the load is there already: behind `&(x)` a line break lists the load, and it is gone
when the next line is due. So it is behind the inner parentheses of `&(a || (x))`.

In a source where no parenthesis that ends an operand of `&` ends a line (`Lexer.plain`) the listing
keeps in step with the code (`InStep`). `Upholds` is the judgement for this: an action that begins
where one condition holds ends where another one does, or fails without breaking off. The conditions
say which parentheses the tokens to come stand in (`Nesting`), and whether the loads at the end of
the code are still to be listed (`FreshLoads`), which is asked only where the operand of an `&`
ends.
-/

namespace MiniC

/-! ## Plain sources -/

namespace Lexer

/-- What a pair of parentheses holds: the operand of an `&`, the type of a cast in front of that
operand, or anything else. -/
inductive Paren where
  | operand
  | cast
  | other
  deriving DecidableEq

/-- Where tokens stand: whether directly behind an `&`, with only signs and casts between, and in
which parentheses, the innermost first. -/
structure Nesting where
  behind : Bool
  outer : List Paren

/-- Whether a token behind which the operand of an `&` is still to come leads on to the operand. -/
def leads (behind : Bool) : Token → Bool
  | .binary .and => true
  | .binary .add | .binary .mul => behind
  | _ => false

/-- Tokens of a source that are no parentheses. -/
def passed : Token → Bool
  | .eof | .leftParen | .rightParen => false
  | _ => true

/-- The parentheses in front of a token. -/
def Paren.opening (behind : Bool) (next : Option Lexeme) : Paren :=
  match behind, next.map Lexeme.token with
  | false, _ => .other
  | true, some (.ok (.keyword .intKw)) | true, some (.ok (.keyword .charKw)) => .cast
  | true, _ => .operand

/-- Whether the tokens begin with a closing parenthesis that ends the operand of an `&`: it closes
the parentheses around the operand, or the next token is another one that ends it. -/
def ends : List Paren → List Lexeme → Bool
  | paren :: outer, ⟨_, .ok .rightParen⟩ :: items => paren = .operand || ends outer items
  | _, _ => false

/-- No parenthesis that ends an operand of `&` ends a line. -/
def calm : Nesting → List Lexeme → Bool
  | _, [] => true
  | place, x :: items =>
    match x.token with
    | .error _ => true
    | .ok .leftParen => calm ⟨false, .opening place.behind items.head? :: place.outer⟩ items
    | .ok .rightParen =>
      (!ends place.outer (x :: items) || items.head?.all (·.line = x.line)) &&
        calm ⟨place.outer.head? = some .cast, place.outer.tail⟩ items
    | .ok token => calm ⟨leads place.behind token, place.outer⟩ items

def plain (items : List Lexeme) : Bool := calm ⟨false, []⟩ items

variable {place : Nesting} {behind : Bool} {outer : List Paren} {paren : Paren} {line : Nat}
  {token : Token} {items : List Lexeme}

theorem calm_close (h : calm place (⟨line, .ok .rightParen⟩ :: items) = true) :
    (ends place.outer (⟨line, .ok .rightParen⟩ :: items) = true →
      ∀ x ∈ items.head?, x.line = line) ∧
    calm ⟨place.outer.head? = some .cast, place.outer.tail⟩ items = true := by
  rw [calm, Bool.and_eq_true, Bool.or_eq_true, Bool.not_eq_true'] at h
  refine ⟨fun hends => ?_, h.2⟩
  have hline := h.1.resolve_left (by simp [hends])
  simpa [Option.all_eq_true] using hline

theorem calm_over (h : passed token = true) :
    calm place (⟨line, .ok token⟩ :: items) =
      calm ⟨leads place.behind token, place.outer⟩ items := by
  cases token with
  | eof | leftParen | rightParen => cases h
  | _ => rfl

/-- Behind a token the rest is calm too. -/
theorem calm_tail (h : calm place (⟨line, .ok token⟩ :: items) = true) :
    ∃ place, calm place items = true := by
  cases token with
  | rightParen => exact ⟨_, (calm_close h).2⟩
  | _ => exact ⟨_, h⟩

theorem Reads.readable {lx : Lexer} {t : SymbolTable} (h : Reads lx items t) :
    ∀ x ∈ items, ∀ reason, x.token = .error reason → reason.isCrash = false := by
  induction h with
  | eof => simp
  | @next lx items t _ _ ih =>
    intro x hx reason hreason
    rcases List.mem_cons.mp hx with rfl | hx
    · rcases next_error hreason with rfl | rfl <;> rfl
    · exact ih x hx reason hreason

end Lexer

/-! ## Instructions that change after they are listed -/

def Instr.isLoad : Instr → Bool
  | .load _ => true
  | _ => false

/-- What becomes of an instruction: a branch gets its target, and a load in front of an assignment
or a step turns into a push. -/
inductive Revised : Instr → Instr → Prop
  | same (i : Instr) : Revised i i
  | branch (condition : Branch) (target target' : UInt64) :
      Revised (.branch condition target) (.branch condition target')
  | push (width : Width) : Revised (.load width) .push

namespace Revised

variable {i j : Instr} {rows code : List Instr}

theorem retarget (h : Revised i j) (target : UInt64) : Revised i (Compile.retarget target j) := by
  cases h with
  | same =>
    cases i with
    | branch condition old => exact .branch condition old target
    | _ => exact .same _
  | branch condition old _ => exact .branch condition old target
  | push width => exact .push width

/-- The push that takes the place of a load. -/
def pushed : Instr → Instr
  | .load _ => .push
  | i => i

theorem toPush (h : Revised i j) : Revised i (pushed j) := by
  cases h with
  | same =>
    cases i with
    | load width => exact .push width
    | _ => exact .same _
  | branch condition old new => exact .branch condition old new
  | push width => exact .push width

theorem modify {f : Instr → Instr} (hf : ∀ {i j}, Revised i j → Revised i (f j))
    (h : List.Forall₂ Revised rows code) (index : Nat) :
    List.Forall₂ Revised rows (code.modify index f) := by
  induction h generalizing index with
  | nil => simp
  | cons h _ ih =>
    cases index with
    | zero => exact .cons (hf h) ‹_›
    | succ index => exact .cons h (ih index)

theorem refl (code : List Instr) : List.Forall₂ Revised code code :=
  List.forall₂_same.mpr fun i _ => .same i

end Revised

namespace Listing

variable {l l' : Listing} {code : Array Instr} {entries more : List Entry}

/-- The rows of a listing are what the instructions have been. -/
def RowsOf (l : Listing) (entries : List Entry) (code : Array Instr) : Prop :=
  List.Forall₂ Revised (rows entries) (code.toList.take l.listed)

theorem Lists.rowsOf (h : Lists code l more l') (hrows : l.RowsOf entries code) :
    l'.RowsOf (entries ++ more) code := by
  rw [RowsOf, rows_append]
  rcases h.rows_eq with ⟨rfl, rfl⟩ | ⟨-, hmore, hlisted⟩
  · rwa [rows_nil, List.append_nil]
  · rw [hmore, hlisted, ← Array.length_toList, List.take_length]
    have happend : List.Forall₂ Revised (rows entries ++ code.toList.drop l.listed)
        (code.toList.take l.listed ++ code.toList.drop l.listed) :=
      List.rel_append hrows (Revised.refl _)
    rwa [List.take_append_drop] at happend

namespace RowsOf

theorem push (h : l.RowsOf entries code) (hle : l.listed ≤ code.size) (i : Instr) :
    l.RowsOf entries (code.push i) := by
  rw [RowsOf, Array.toList_push, List.take_append_of_le_length (by simpa using hle)]
  exact h

theorem pop (h : l.RowsOf entries code) (hlt : l.listed < code.size) :
    l.RowsOf entries code.pop := by
  rw [RowsOf, Array.toList_pop, List.dropLast_eq_take, List.take_take,
    Nat.min_eq_left (by rw [Array.length_toList]; omega)]
  exact h

theorem modify {f : Instr → Instr} (h : l.RowsOf entries code)
    (hf : ∀ {i j}, Revised i j → Revised i (f j)) (index : Nat) :
    l.RowsOf entries (code.modify index f) := by
  have htake : (code.modify index f).toList.take l.listed =
      (code.toList.take l.listed).modify index f := by
    rw [Array.toList_modify]
    apply List.ext_getElem?
    intro j
    rw [List.getElem?_take, List.getElem?_modify, List.getElem?_modify, List.getElem?_take]
    split_ifs <;> rfl
  rw [RowsOf, htake]
  exact Revised.modify hf h index

end RowsOf

theorem Lists.eq_of_nil (h : Lists code l more l') (hnil : l.rest = [] ∨ more.length = 0) :
    l' = l := by
  cases h with
  | none => rfl
  | line hrest => simp [hrest] at hnil

end Listing

/-! ## Listings that keep in step -/

namespace Compile

open Listing Lexer

variable {α β : Type} {n : Nat} {s s' : State} {x : CompileM α} {f : α → CompileM β}
  {source : List UInt8} {out : Sink} {l : Listing} {entries : List Entry}

/-- The listing shows what the listed instructions have been, and all lines up to the current one
are listed. -/
structure KeepsUp (source : List UInt8) (out : Sink) (s : State) (l : Listing)
    (entries : List Entry) : Prop where
  recording : Recording source out s l entries
  rows : l.RowsOf entries s.code
  reached : l.rest = [] ∨ s.line ≤ l.line
  readable : ∀ x ∈ s.rest.items, ∀ reason, x.token = .error reason → reason.isCrash = false

/-- A compilation with a listing: the source, and a sink without a limit. -/
structure Job where
  source : List UInt8
  out : Sink
  unlimited : out.capacity = none

def InStep (j : Job) (s : State) : Prop :=
  Closed s ∧ ∃ l entries, KeepsUp j.source j.out s l entries

/-- Nothing is listed behind the last instruction that is no load. -/
def FreshLoads (s : State) : Prop :=
  ∀ l ∈ s.listing, l.listed = 0 ∨
    ∃ index i, l.listed ≤ index + 1 ∧ s.code[index]? = some i ∧ i.isLoad = false

/-- The tokens to come are calm, at the place if one is given. -/
def Calm (s : State) : Option Nesting → Prop
  | some place => calm place s.ahead = true
  | none => ∃ place, calm place s.ahead = true

variable {j : Job} {m k : Option Nesting}

namespace KeepsUp

theorem listed_le (h : KeepsUp source out s l entries) : l.listed ≤ s.code.size := by
  have hlength := h.rows.length_eq
  rw [← h.recording.records.listed_eq, List.length_take, Array.length_toList] at hlength
  omega

/-- Moving on keeps the listing in step. Nothing is listed where the next token is on the same line.
-/
theorem advance (hout : out.capacity = none) (h : KeepsUp source out s l entries) :
    match advance s with
    | .ok _ s' => ((s.rest.items = [] ∧ s' = s) ∨ s'.ahead = s.rest.items) ∧ s'.code = s.code ∧
        (∃ l' entries', KeepsUp source out s' l' entries') ∧
        ((∀ x ∈ s.rest.items.head?, x.line = s.line) → s'.listing = s.listing)
    | .error e _ => e.reason.isCrash = false := by
  have hmoved := advance_moved h.recording.listing_eq (h.recording.capacity_eq hout)
  generalize Compile.advance s = r at hmoved
  cases hmoved with
  | stays hnil => exact ⟨.inl ⟨hnil, rfl⟩, rfl, ⟨l, entries, h⟩, fun _ => rfl⟩
  | unread hitems htoken => exact h.readable _ (hitems ▸ List.mem_cons_self) _ htoken
  | ahead _ _ hlt => exact absurd hlt (Nat.not_lt.mpr h.listed_le)
  | @moved lexeme items token more l' hitems htoken hlists hcount hlines =>
    have hahead : (⟨lexeme.line, .ok token⟩ : Lexeme) :: items = s.rest.items := by
      rw [hitems, ← htoken]
    refine ⟨.inr hahead, rfl, ⟨l', entries ++ more, ?_⟩, fun hsame => ?_⟩
    · exact ⟨h.recording.moved hitems htoken hlists hcount, hlists.rowsOf h.rows, hlines,
        fun x hx => h.readable x (hitems ▸ List.mem_cons_of_mem _ hx)⟩
    · have hline : lexeme.line = s.line := hsame lexeme (by rw [hitems]; rfl)
      have hnone : l.rest = [] ∨ more.length = 0 := h.reached.imp_right fun hle => by omega
      show some l' = s.listing
      rw [hlists.eq_of_nil hnone, h.recording.listing_eq]

end KeepsUp

theorem Closed.of_ahead (hs : Closed s) (h : s'.ahead = s.ahead) : Closed s' := by
  obtain ⟨hcurrent, hrest⟩ := List.cons.inj h
  have hcurrent : s'.current = s.current := by simpa using congrArg Lexeme.token hcurrent
  rw [Closed, hcurrent, hrest]
  exact hs

theorem Calm.of_ahead (h : Calm s m) (hahead : s'.ahead = s.ahead) : Calm s' m := by
  cases m <;> simpa only [Calm, hahead] using h

theorem Calm.somewhere (h : Calm s m) : Calm s none := by
  cases m with
  | none => exact h
  | some place => exact ⟨place, h⟩

/-- What stays in step when only the code changes. -/
theorem InStep.of_code (h : InStep j s) (hahead : s'.ahead = s.ahead)
    (hlisting : s'.listing = s.listing)
    (hcode : ∀ l entries, s.listing = some l → l.listed ≤ s.code.size → l.RowsOf entries s.code →
      l.RowsOf entries s'.code) : InStep j s' := by
  obtain ⟨hs, l, entries, hl⟩ := h
  obtain ⟨hcurrent, hrest⟩ := List.cons.inj hahead
  have hline : s'.line = s.line := by simpa using congrArg Lexeme.line hcurrent
  refine ⟨hs.of_ahead hahead, l, entries, hl.recording.of_same hahead hlisting, ?_, ?_, ?_⟩
  · exact hcode l entries hl.recording.listing_eq hl.listed_le hl.rows
  · rw [hline]
    exact hl.reached
  · exact hrest ▸ hl.readable

/-! ## The judgement -/

/-- Begun where `P` holds, the action ends where `Q` does, or fails without breaking off. -/
def Upholds (P : State → Prop) (x : CompileM α) (Q : State → Prop) : Prop :=
  ∀ s, P s → match x s with
    | .ok _ s' => Q s'
    | .error e _ => e.reason.isCrash = false

namespace Upholds

variable {P Q R : State → Prop}

theorem mono {P' Q' : State → Prop} (h : Upholds P x Q) (hP : ∀ s, P' s → P s)
    (hQ : ∀ s, Q s → Q' s) : Upholds P' x Q' := by
  intro s hs
  have hx := h s (hP s hs)
  split at hx
  · exact hQ _ hx
  · exact hx

theorem bind (hx : Upholds P x R) (hf : ∀ a, Upholds R (f a) Q) : Upholds P (x >>= f) Q := by
  intro s hs
  have hfirst := hx s hs
  cases h : x s with
  | error e s' =>
    rw [h] at hfirst
    rw [bind_of_error h]
    exact hfirst
  | ok a s' =>
    rw [h] at hfirst
    rw [bind_of_ok h]
    exact hf a s' hfirst

theorem and (hQ : Upholds P x Q) (hR : Upholds P x R) : Upholds P x fun s => Q s ∧ R s := by
  intro s hs
  have hq := hQ s hs
  have hr := hR s hs
  cases h : x s with
  | error e s' => rwa [h] at hq
  | ok a s' =>
    rw [h] at hq hr
    exact ⟨hq, hr⟩

theorem pure (a : α) : Upholds P (Pure.pure a) P := fun _ hs => hs

theorem fail {reason : Reason} (h : reason.isCrash = false) :
    Upholds P (Compile.fail reason : CompileM α) Q := fun _ _ => h

theorem get {g : State → CompileM α} (h : ∀ s, Upholds P (g s) Q) :
    Upholds P (MonadState.get >>= g) Q := fun s hs => h s s hs

theorem current {g : Token → CompileM α}
    (h : ∀ token, Upholds (fun s => P s ∧ s.current = token) (g token) Q) :
    Upholds P (Compile.current >>= g) Q := fun s hs => h s.current s ⟨hs, rfl⟩

/-- A look at a token that is known already. -/
theorem currentIs {token : Token} {g : Token → CompileM α}
    (h : Upholds (fun s => P s ∧ s.current = token) (g token) Q) :
    Upholds (fun s => P s ∧ s.current = token) (Compile.current >>= g) Q := by
  rintro s ⟨hs, rfl⟩
  exact h s ⟨hs, rfl⟩

theorem left (h : Upholds P x Q) : Upholds (fun s => P s ∧ R s) x Q :=
  h.mono (fun _ hs => hs.1) fun _ hs => hs

theorem whileToken {more : Token → Bool} {body : α → CompileM α}
    (h : ∀ a, Upholds (fun s => P s ∧ more s.current = true) (body a) P) (a : α) :
    Upholds P (whileToken more body a) P := by
  have hloop : ∀ fuel a, Upholds P (loop more body fuel a) P := by
    intro fuel
    induction fuel with
    | zero => exact fun a => .pure a
    | succ fuel ih =>
      intro a s hs
      cases hm : more s.current with
      | false =>
        rw [loop_succ_of_not_more hm]
        exact hs
      | true =>
        rw [loop_succ_of_more hm]
        exact (h a).bind ih s ⟨hs, hm⟩
  exact .get fun s => hloop _ a

/-- Behind a loop stands a token that the loop stops at. -/
theorem upTo {more : Token → Bool} {body : α → CompileM α} (hclosed : ∀ s, P s → Closed s)
    (hbody : ∀ a, Advances ∅ (body a))
    (h : ∀ a, Upholds (fun s => P s ∧ more s.current = true) (body a) P) (a : α) :
    Upholds P (Compile.whileToken more body a) fun s => P s ∧ more s.current = false := by
  intro s hs
  have hend := whileToken h a s hs
  cases hloop : Compile.whileToken more body a s with
  | error e s' => rwa [hloop] at hend
  | ok a' s' =>
    rw [hloop] at hend
    exact ⟨hend, Composed.not_more (fun a => (hbody a).composed)
      (fun a _ _ _ hs _ h => (hbody a).left_lt hs h) (hclosed s hs) hloop⟩

end Upholds

/-! ## Basic actions -/

/-- In step, with calm tokens to come. If these are some for which `fresh` is asked for, the loads
at the end of the code are not listed. -/
structure Job.At (j : Job) (fresh : List Lexeme → Prop) (m : Option Nesting) (s : State) :
    Prop where
  inStep : InStep j s
  calm : Calm s m
  loads : fresh s.ahead → FreshLoads s

variable {p q : List Lexeme → Prop}

theorem Job.At.weaken (h : j.At q m s) (hpq : p ≤ q) : j.At p m s :=
  ⟨h.inStep, h.calm, fun hp => h.loads (hpq _ hp)⟩

theorem Job.At.somewhere (h : j.At p m s) : j.At p none s := ⟨h.inStep, h.calm.somewhere, h.loads⟩

theorem FreshLoads.of_listing_eq (h : FreshLoads s) (hlisting : s'.listing = s.listing)
    (hcode : ∀ (index : Nat) (i : Instr), s.code[index]? = some i → i.isLoad = false →
      ∃ i', s'.code[index]? = some i' ∧ i'.isLoad = false) : FreshLoads s' := by
  intro l hl
  rw [hlisting] at hl
  refine (h l hl).imp_right fun ⟨index, i, hle, hi, hload⟩ => ?_
  obtain ⟨i', hi', hload'⟩ := hcode index i hi hload
  exact ⟨index, i', hle, hi', hload'⟩

/-- Behind an instruction that is no load there are no loads. -/
theorem InStep.freshLoads {i : Instr} (h : InStep j s) (hback : s.code.back? = some i)
    (hi : i.isLoad = false) : FreshLoads s := by
  obtain ⟨-, l', entries, hl'⟩ := h
  intro l hl
  rw [hl'.recording.listing_eq, Option.mem_some_iff] at hl
  subst hl
  have hle := hl'.listed_le
  rw [Array.back?_eq_getElem?] at hback
  exact .inr ⟨s.code.size - 1, i, by omega, hback, hi⟩

/-- What a change of the code must leave to the listing. -/
structure Recodes (j : Job) (q : Prop) (s s' : State) : Prop where
  rows : ∀ l entries, s.listing = some l → l.listed ≤ s.code.size → l.RowsOf entries s.code →
    l.RowsOf entries s'.code
  loads : q → InStep j s' → s'.listing = s.listing → FreshLoads s'

/-- Actions that change the code at most. -/
theorem Upholds.code (hapart : ∀ s, Apart x s)
    (hreason : ∀ s e s', x s = .error e s' → e.reason.isCrash = false)
    (hcode : ∀ s a s', j.At p m s → x s = .ok a s' → Recodes j (q s.ahead) s s') :
    Upholds (j.At p m) x (j.At q m) := by
  intro s hs
  obtain ⟨hahead, hlisting⟩ := (hapart s).same
  cases hend : x s with
  | error e s' => exact hreason s e s' hend
  | ok a s' =>
    rw [after_of_ok hend] at hahead hlisting
    obtain ⟨hrows, hloads⟩ := hcode s a s' hs hend
    have hin := hs.inStep.of_code hahead hlisting hrows
    exact ⟨hin, hs.calm.of_ahead hahead, fun hq => hloads (hahead ▸ hq) hin hlisting⟩

/-- Actions that leave the code alone. -/
theorem Upholds.still (hapart : ∀ s, Apart x s)
    (hreason : ∀ s e s', x s = .error e s' → e.reason.isCrash = false)
    (hcode : ∀ s a s', x s = .ok a s' → s'.code = s.code) : Upholds (j.At p m) x (j.At p m) := by
  refine .code hapart hreason fun s a s' hs hend => ⟨fun l entries _ _ hrows => ?_, ?_⟩
  · rwa [hcode s a s' hend]
  · exact fun hp _ hl => (hs.loads hp).of_listing_eq hl fun index i hi hload =>
      ⟨i, by rw [hcode s a s' hend, hi], hload⟩

theorem emit_recodes {i : Instr} {index : Nat} {fresh : Prop} (hs : j.At p m s)
    (h : emit i s = .ok index s') (hfresh : fresh → p s.ahead ∨ i.isLoad = false) :
    Recodes j fresh s s' := by
  rw [emit_apply] at h
  split_ifs at h
  cases h
  refine ⟨fun l entries _ hle hrows => hrows.push hle i, fun hasked hin hl => ?_⟩
  rcases hfresh hasked with hp | hi
  · refine (hs.loads hp).of_listing_eq hl fun index i' hi' hload => ⟨i', ?_, hload⟩
    have hlt := (Array.getElem?_eq_some_iff.mp hi').1
    rw [Array.getElem?_push_lt hlt, ← hi', Array.getElem?_eq_getElem]
  · exact hin.freshLoads Array.back?_push hi

theorem emit_reason {i : Instr} {e : CompileError} (h : emit i s = .error e s') :
    e.reason.isCrash = false := by
  rw [emit_apply] at h
  split_ifs at h
  cases h
  rfl

/-- To put a push in the place of a load is to change the last instruction. -/
theorem pop_push_eq_modify {code : Array Instr} {width : Width}
    (hback : code.back? = some (.load width)) :
    code.pop.push .push = code.modify (code.size - 1) Revised.pushed := by
  rw [Array.back?_eq_getElem?] at hback
  apply Array.ext_getElem?
  intro index
  rw [Array.getElem?_push, Array.getElem?_pop, Array.size_pop, Array.getElem?_modify]
  by_cases heq : index = code.size - 1
  · rw [if_pos heq, if_pos heq.symm, heq, hback]
    rfl
  · rw [if_neg heq, if_neg (Ne.symm heq)]
    split_ifs with hlt
    · rfl
    · rw [Array.getElem?_eq_none (by omega)]

/-- An instruction that is no load stands before a load at the end. -/
theorem lt_of_back_load {code : Array Instr} {width : Width} {index : Nat} {i : Instr}
    (hback : code.back? = some (.load width)) (hi : code[index]? = some i)
    (hload : i.isLoad = false) : index < code.size - 1 := by
  have hin := (Array.getElem?_eq_some_iff.mp hi).1
  rw [Array.back?_eq_getElem?] at hback
  by_contra hge
  obtain rfl : index = code.size - 1 := by omega
  rw [hback] at hi
  obtain rfl := Option.some.inj hi
  simp [Instr.isLoad] at hload

namespace Upholds

theorem emit (i : Instr) : Upholds (j.At p m) (emit i) (j.At p m) :=
  .code (.emit i) (fun _ _ _ => emit_reason) fun _ _ _ hs h => emit_recodes hs h .inl

/-- Behind an instruction that is no load. -/
theorem emit_solid {i : Instr} (hi : i.isLoad = false) :
    Upholds (j.At p m) (Compile.emit i) (j.At ⊤ m) :=
  .code (.emit i) (fun _ _ _ => emit_reason) fun _ _ _ hs h => emit_recodes hs h fun _ => .inr hi

theorem emitAll (code : List Instr) : Upholds (j.At p m) (emitAll code) (j.At p m) := by
  induction code with
  | nil => exact .pure ()
  | cons i code ih => exact (emit i).bind fun _ => ih

theorem emitAll_solid {code : List Instr} (h : ∃ i ∈ code, i.isLoad = false) :
    Upholds (j.At p m) (Compile.emitAll code) (j.At ⊤ m) := by
  induction code with
  | nil => simp at h
  | cons i code ih =>
    by_cases hi : i.isLoad = false
    · exact (emit_solid hi).bind fun _ => emitAll code
    · exact (emit i).bind fun _ => ih (by simpa [hi] using h)

theorem patch (index : Nat) : Upholds (j.At p m) (patch index) (j.At p m) := by
  have hsolid : ∀ target i, (retarget target i).isLoad = i.isLoad := by
    intro target i
    cases i <;> rfl
  refine .code (.change (fun _ _ => rfl) (fun _ => rfl) fun _ => rfl) (fun s e s' h => ?_)
    fun s _ s' hs h => ?_
  · cases h
  · cases h
    refine ⟨fun l entries _ _ hrows => hrows.modify (·.retarget _) index, fun hp _ hl => ?_⟩
    refine (hs.loads hp).of_listing_eq hl fun index' i hi hload => ?_
    rw [Array.getElem?_modify, hi]
    split_ifs
    · exact ⟨_, rfl, by rw [hsolid, hload]⟩
    · exact ⟨i, rfl, hload⟩

theorem loadToPush : Upholds (j.At p m) loadToPush (j.At ⊥ m) := by
  refine .code .loadToPush (fun s e s' h => ?_) fun s _ s' hs h => ⟨?_, False.elim⟩
  · rw [loadToPush_apply] at h
    split at h <;> cases h
  · rw [loadToPush_apply] at h
    split at h
    · rename_i width hback
      cases h
      intro l entries _ _ hrows
      dsimp only
      rw [pop_push_eq_modify hback]
      exact hrows.modify Revised.toPush _
    · cases h
      exact fun _ _ _ _ hrows => hrows

/-- The load that is removed is not listed. -/
theorem dropLoad : Upholds (j.At ⊤ m) dropLoad (j.At ⊤ m) := by
  refine .code .dropLoad (fun s e s' h => ?_) fun s _ s' hs h => ?_
  · rw [dropLoad_apply] at h
    split at h <;> cases h
  · rw [dropLoad_apply] at h
    split at h
    · rename_i width hback
      cases h
      have hloads := hs.loads trivial
      refine ⟨fun l entries hl hle hrows => hrows.pop ?_, fun _ _ hl => ?_⟩
      · rcases hloads l hl with hzero | ⟨index, i, hbound, hi, hload⟩
        · rw [Array.back?_eq_getElem?] at hback
          have hsize := (Array.getElem?_eq_some_iff.mp hback).1
          omega
        · have hlt := lt_of_back_load hback hi hload
          omega
      · refine hloads.of_listing_eq hl fun index i hi hload => ⟨i, ?_, hload⟩
        rw [Array.getElem?_pop, if_pos (lt_of_back_load hback hi hload), hi]
    · cases h
      exact ⟨fun _ _ _ _ hrows => hrows, fun _ _ _ => hs.loads trivial⟩

theorem storeData (bytes : List UInt8) : Upholds (j.At p m) (storeData bytes) (j.At p m) := by
  refine .still (.storeData bytes) (fun s e s' h => ?_) fun s _ s' h => ?_
  · rw [storeData_apply] at h
    split_ifs at h
    cases h
    rfl
  · rw [storeData_apply] at h
    split_ifs at h
    cases h
    rfl

theorem defineGlobal (id : SymbolId) (b : Binding) :
    Upholds (j.At p m) (defineGlobal id b) (j.At p m) := by
  refine .still (.defineGlobal id b) (fun s e s' h => ?_) fun s _ s' h => ?_
  · rw [defineGlobal_apply] at h
    split at h <;> cases h
    rfl
  · rw [defineGlobal_apply] at h
    split at h <;> cases h
    rfl

theorem declare (id : SymbolId) (type : CType) (slot : Word) {duplicate : String → Reason}
    (hduplicate : ∀ name, (duplicate name).isCrash = false) :
    Upholds (j.At p m) (declare id type slot duplicate) (j.At p m) := by
  refine .still (.declare id type slot duplicate) (fun s e s' h => ?_) fun s _ s' h => ?_
  · rw [declare_apply] at h
    split at h <;> cases h
    exact hduplicate _
  · rw [declare_apply] at h
    split at h <;> cases h
    rfl

/-- Changes of the names or of the frame. -/
theorem change {g : State → State}
    (hg : ∀ s l, g { s with listing := l } = { g s with listing := l })
    (hahead : ∀ s, (g s).ahead = s.ahead) (hlisting : ∀ s, (g s).listing = s.listing)
    (hcode : ∀ s, (g s).code = s.code) :
    Upholds (j.At p m) (modify g) (j.At p m) := by
  refine .still (.change hg hahead hlisting) (fun s e s' h => ?_) fun s _ s' h => ?_
  · cases h
  · cases h
    exact hcode s

/-! ## Moving on -/

/-- Moving on leaves the listing in step. -/
theorem moveOn {P Q : State → Prop} (hP : ∀ s, P s → InStep j s)
    (hQ : ∀ s s', P s → InStep j s' → (s.rest.items = [] ∧ s' = s ∨ s'.ahead = s.rest.items) →
      s'.code = s.code →
      ((∀ x ∈ s.rest.items.head?, x.line = s.line) → s'.listing = s.listing) → Q s') :
    Upholds P advance Q := by
  intro s hs
  obtain ⟨hclosed, l, entries, hl⟩ := hP s hs
  have hend := hl.advance j.unlimited
  have hsteps := steps_advance s
  cases h : Compile.advance s with
  | error e s' => rwa [h] at hend
  | ok u s' =>
    rw [h] at hend
    rw [after_of_ok h] at hsteps
    obtain ⟨hahead, hcode, hkeeps, hlisting⟩ := hend
    exact hQ s s' hs ⟨hsteps.closed hclosed, hkeeps⟩ hahead hcode hlisting

end Upholds

/-- There is a token behind the current one, unless that is the end. -/
theorem Closed.rest_ne_nil (hs : Closed s) (hne : s.current ≠ .eof) : s.rest.items ≠ [] := by
  obtain ⟨heof, -⟩ | ⟨-, front, line, hitems, -⟩ := hs
  · exact absurd heof hne
  · simp [hitems]

theorem Calm.ahead {place : Nesting} {token : Token} (h : Calm s (some place))
    (ht : s.current = token) :
    Lexer.calm place (⟨s.line, .ok token⟩ :: s.rest.items) = true := by
  rw [← ht]
  exact h

/-- A place inside of parentheses that is not directly behind an `&`. -/
def within (outer : List Paren) : Option Nesting := some ⟨false, outer⟩

/-- Nothing is said about the place, or it is not directly behind an `&`. -/
def Rests (m : Option Nesting) : Prop := m = none ∨ ∃ outer, m = within outer

/-- Whether the operand of an `&` ends in front of tokens: that of the last `&`, or that of one with
parentheses around the place. -/
def Asked (last : Bool) (outer : List Paren) (items : List Lexeme) : Prop :=
  last = true ∨ ends outer items = true

theorem asked_le_of_imp {last last' : Bool} {outer : List Paren} (h : last = true → last' = true) :
    Asked last outer ≤ Asked last' outer := fun _ hasked => hasked.imp_left h

namespace Upholds

variable {outer : List Paren} {paren : Paren} {behind : Bool}

/-- Where nothing is said about the place, there is one. -/
theorem somewhere (h : ∀ place, Upholds (j.At p (some place)) x (j.At q none)) :
    Upholds (j.At p none) x (j.At q none) := by
  intro s hs
  obtain ⟨place, hplace⟩ := hs.calm
  exact h place s ⟨hs.inStep, hplace, hs.loads⟩

/-- Moving on over whatever there is. -/
theorem advance_any : Upholds (j.At p m) Compile.advance (j.At ⊥ none) := by
  refine moveOn (fun _ hs => hs.inStep) fun s s' hs hin hahead _ _ => ⟨hin, ?_, False.elim⟩
  obtain ⟨place, hplace⟩ := hs.calm.somewhere
  rcases hahead with ⟨-, rfl⟩ | hahead
  · exact ⟨place, hplace⟩
  · obtain ⟨place', hplace'⟩ := calm_tail hplace
    exact ⟨place', hahead ▸ hplace'⟩

/-- Moving on over a token of the source. -/
theorem moveOver {token : Token} {Q : State → Prop} (hne : token ≠ .eof)
    (hQ : ∀ s s', j.At p m s → s.current = token → InStep j s' → s'.ahead = s.rest.items →
      s'.code = s.code →
      ((∀ x ∈ s.rest.items.head?, x.line = s.line) → s'.listing = s.listing) → Q s') :
    Upholds (fun s => j.At p m s ∧ s.current = token) Compile.advance Q := by
  refine moveOn (fun s hs => hs.1.inStep) fun s s' ⟨hs, ht⟩ hin hahead hcode hlisting => ?_
  have hrest := hs.inStep.1.rest_ne_nil (ht ▸ hne)
  exact hQ s s' hs ht hin (hahead.resolve_left fun h => hrest h.1) hcode hlisting

/-- Moving on over a token that is no parenthesis. -/
theorem advance_over {token : Token} (h : passed token = true) :
    Upholds (fun s => j.At p (some ⟨behind, outer⟩) s ∧ s.current = token) Compile.advance
      (j.At ⊥ (some ⟨leads behind token, outer⟩)) := by
  refine moveOver (by rintro rfl; cases h) fun s s' hs ht hin hahead _ _ =>
    ⟨hin, ?_, False.elim⟩
  have hcalm := hs.calm.ahead ht
  rw [calm_over h, ← hahead] at hcalm
  exact hcalm

/-- Moving on over a token behind which no operand of an `&` is to come. -/
theorem advance {token : Token} (h : passed token = true) (hleads : leads behind token = false) :
    Upholds (fun s => j.At p (some ⟨behind, outer⟩) s ∧ s.current = token) Compile.advance
      (j.At ⊥ (within outer)) := by
  have hover : Upholds (fun s => j.At p (some ⟨behind, outer⟩) s ∧ s.current = token)
      Compile.advance (j.At ⊥ (some ⟨leads behind token, outer⟩)) := advance_over h
  rwa [hleads] at hover

/-- Moving on over an opening parenthesis. What it opens shows in the token behind it. -/
theorem advance_open :
    Upholds (fun s => j.At p (some ⟨behind, outer⟩) s ∧ s.current = .leftParen) Compile.advance
      fun s => j.At ⊥ (within (.opening behind s.ahead.head? :: outer)) s := by
  refine moveOver (by simp) fun s s' hs ht hin hahead _ _ => ⟨hin, ?_, False.elim⟩
  show Lexer.calm _ s'.ahead = true
  rw [hahead]
  exact hs.calm.ahead ht

/-- Moving on over a closing parenthesis. Nothing is listed where it ends the operand of an `&`. -/
theorem advance_close
    (hq : ∀ line items, q items → p (⟨line, .ok .rightParen⟩ :: items) ∧
      ends (paren :: outer) (⟨line, .ok .rightParen⟩ :: items) = true) :
    Upholds (fun s => j.At p (within (paren :: outer)) s ∧ s.current = .rightParen) Compile.advance
      (j.At q (some ⟨paren = .cast, outer⟩)) := by
  refine moveOver (by simp) fun s s' hs ht hin hahead hcode hlisting => ?_
  obtain ⟨hline, hcalm⟩ := calm_close (hs.calm.ahead ht)
  refine ⟨hin, ?_, fun hfresh => ?_⟩
  · show Lexer.calm _ s'.ahead = true
    rw [hahead]
    simpa using hcalm
  · obtain ⟨hp, hends⟩ := hq s.line _ (hahead ▸ hfresh)
    have hloads := hs.loads (by rwa [State.ahead, ht])
    exact hloads.of_listing_eq (hlisting (hline hends)) fun index i hi hload =>
      ⟨i, by rw [hcode, hi], hload⟩

/-- Moving on over a token in the same parentheses, or anywhere. -/
theorem advance_rests {token : Token} (hm : Rests m) (h : passed token = true)
    (hleads : leads false token = false) :
    Upholds (fun s => j.At p m s ∧ s.current = token) Compile.advance (j.At ⊥ m) := by
  rcases hm with rfl | ⟨outer, rfl⟩
  · exact advance_any.left
  · exact advance h hleads

/-! ## Tokens and types -/

theorem expect {token : Token} {reason : Reason} {P Q : State → Prop}
    (h : Upholds (fun s => P s ∧ s.current = token) Compile.advance Q)
    (hreason : reason.isCrash = false) : Upholds P (expect token reason) Q := by
  refine .current fun t => ?_
  split
  · rename_i ht
    exact ht ▸ h
  · exact .fail hreason

theorem skipOver {token : Token} (hm : Rests m) (h : passed token = true)
    (hleads : leads false token = false) :
    Upholds (j.At ⊥ m) (skipOver token) (j.At ⊥ m) := by
  refine .current fun t => ?_
  split
  · rename_i ht
    subst ht
    exact advance_rests hm h hleads
  · exact (Upholds.pure _).left

theorem baseType (hm : Rests m) : Upholds (j.At p m) baseType (j.At ⊥ m) := by
  refine Upholds.bind (.current fun t => ?_) fun _ => .pure _
  split
  · exact (advance_rests hm rfl rfl).bind fun _ => .pure _
  · exact (advance_rests hm rfl rfl).bind fun _ => .pure _
  · exact (Upholds.pure _).mono (fun s hs => hs.1.weaken bot_le) fun s hs => hs

theorem pointerLevels (hm : Rests m) (type : CType) :
    Upholds (j.At ⊥ m) (pointerLevels type) (j.At ⊥ m) := by
  refine .whileToken (fun type => ?_) type
  have hstar : Upholds (fun s => j.At ⊥ m s ∧ s.current = .binary .mul) Compile.advance
      (j.At ⊥ m) := advance_rests hm rfl rfl
  exact (hstar.mono (fun s hs => ⟨hs.1, by simpa using hs.2⟩) fun s hs => hs).bind fun _ => .pure _

/-- What does not move on leaves the token. -/
theorem keepsToken {P Q : State → Prop} {token : Token} (hapart : ∀ s, Apart x s)
    (h : Upholds P x Q) :
    Upholds (fun s => P s ∧ s.current = token) x fun s => Q s ∧ s.current = token := by
  rintro s ⟨hs, rfl⟩
  have hahead := (hapart s).same.1
  have hend := h s hs
  cases hx : x s with
  | error e s' => rwa [hx] at hend
  | ok a s' =>
    rw [hx] at hend
    rw [after_of_ok hx] at hahead
    exact ⟨hend, by simpa using congrArg Lexeme.token (List.cons.inj hahead).1⟩

end Upholds

end Compile

end MiniC
