import Mathlib
import MiniC.Descriptors

/-!
# Calls about files

A program opens, reads and closes files in any order. Whether a path may be opened depends on the
files and the flags alone (`FileStore.grant?`), and a number is given out only then, so numbers are
counted by the calls that were granted. A number that was closed is below the next one and is not
open, and nothing changes that (`Shut`).

An open file is read from its own position on. A call on another number leaves the position alone,
and no call changes what a file holds but one that empties it (`Attached.perform`). So what is read
through one number is the file from its start up to the position, whatever else happens meanwhile
(`Attached.history`).
-/

namespace MiniC

/-! ## Tables -/

section Tables

variable {α β : Type} [BEq α] [LawfulBEq α] [DecidableEq α]

theorem lookup_cons_ite (key k : α) (b : β) (table : List (α × β)) :
    ((k, b) :: table).lookup key = if key = k then some b else table.lookup key := by
  by_cases h : key = k
  · simp [h]
  · have hne : (key == k) = false := beq_eq_false_iff_ne.mpr h
    rw [List.lookup_cons, hne, if_neg h]

theorem lookup_filter_ne (key gone : α) (table : List (α × β)) :
    (table.filter (·.1 ≠ gone)).lookup key = if key = gone then none else table.lookup key := by
  induction table with
  | nil => simp
  | cons entry table ih =>
    obtain ⟨k, b⟩ := entry
    by_cases hk : k = gone
    · rw [List.filter_cons_of_neg (by simp [hk]), ih, lookup_cons_ite, hk]
      split_ifs <;> rfl
    · rw [List.filter_cons_of_pos (by simp [hk]), lookup_cons_ite, lookup_cons_ite, ih]
      by_cases hkey : key = gone
      · rw [if_pos hkey, if_pos hkey, if_neg (hkey ▸ Ne.symm hk)]
      · rw [if_neg hkey, if_neg hkey]

theorem lookup_map_value (f : α → β → β) (key : α) (table : List (α × β)) :
    (table.map fun (k, b) => (k, f k b)).lookup key = (table.lookup key).map (f key) := by
  induction table with
  | nil => rfl
  | cons entry table ih =>
    obtain ⟨k, b⟩ := entry
    rw [List.map_cons, lookup_cons_ite, lookup_cons_ite, ih]
    split_ifs with h
    · rw [h, Option.map_some]
    · rfl

end Tables

/-! ## Files -/

namespace FileStore

variable {store : FileStore} {path place : NodePath} {content content' : List UInt8}

theorem lookup_of_node? (h : store.node? path = some (.file content)) :
    store.nodes.lookup path = some (.file content) := by
  rw [node?] at h
  split at h
  · rename_i node hnode
    rw [hnode, h]
  · split_ifs at h
    cases h

theorem node?_put_self (store : FileStore) (path : NodePath) (content : List UInt8) :
    (store.put path content).node? path = some (.file content) := by
  have hlookup : (store.put path content).nodes.lookup path = some (.file content) := by
    rw [put, List.lookup_append, lookup_filter_ne]
    simp
  rw [node?, hlookup]

theorem node?_put_of_ne (h : store.node? path = some (.file content)) (hne : path ≠ place) :
    (store.put place content').node? path = some (.file content) := by
  have hlookup : (store.put place content').nodes.lookup path = some (.file content) := by
    rw [put, List.lookup_append, lookup_filter_ne, if_neg hne, lookup_of_node? h]
    rfl
  rw [node?, hlookup]

/-- Where opening a path leads to, and the node that is there from then on. Flags that contradict
one another, a path that leads nowhere, a directory that is to be written and a file that is missing
and not to be created are refused. -/
def grant? (store : FileStore) (path : List UInt8) (flags : OpenFlags) :
    Option (NodePath × FileNode) :=
  match store.resolve (Utf8.decode path) with
  | .error _ => none
  | .ok place =>
    if flags.consistent then
      match store.node? place with
      | some (.file content) => some (place, .file (if flags.truncate then [] else content))
      | some .directory => if flags.writes then none else some (place, .directory)
      | none => if flags.create then some (place, .file []) else none
    else none

end FileStore

/-! ## Calls -/

inductive FileCall where
  | openPath (path : List UInt8) (flags : Word)
  | read (fd : Word) (length : Nat)
  | close (fd : Word)
  deriving DecidableEq, Repr

/-- What a call returns: a number, or the bytes that were read, if reading did not fail. -/
inductive FileAnswer where
  | number (n : Word)
  | bytes (read : Option (List UInt8))
  deriving DecidableEq, Repr

/-- A call that was made, the files that it found, and what it returned. -/
structure FileEvent where
  store : FileStore
  call : FileCall
  answer : FileAnswer
  deriving DecidableEq, Repr

namespace FileEvent

/-- What a call to open a path was granted. -/
def grant? (e : FileEvent) : Option (NodePath × FileNode) :=
  match e.call with
  | .openPath path flags => e.store.grant? path (.ofWord flags)
  | _ => none

/-- The call opened the file at a place to empty it. -/
def Truncates (e : FileEvent) (place : NodePath) : Prop :=
  match e.call with
  | .openPath _ flags =>
    (OpenFlags.ofWord flags).truncate = true ∧ e.grant?.map (·.1) = some place
  | _ => False

instance (e : FileEvent) (place : NodePath) : Decidable (e.Truncates place) :=
  match e with
  | ⟨_, .openPath _ _, _⟩ => inferInstanceAs (Decidable (_ ∧ _))
  | ⟨_, .read _ _, _⟩ | ⟨_, .close _, _⟩ => inferInstanceAs (Decidable False)

/-- What a call to read the file with a number returned. -/
def chunk? (fd : Word) (e : FileEvent) : Option (Option (List UInt8)) :=
  match e.call, e.answer with
  | .read fd' _, .bytes read => if fd' = fd then some read else none
  | _, _ => none

/-- The call found nothing left to read behind a number. -/
def FindsEnd (e : FileEvent) (fd : Word) : Prop :=
  ∃ length, 0 < length ∧ e.call = .read fd length ∧ e.answer = .bytes (some [])

/-- How many calls opened something. -/
def opens (events : List FileEvent) : Nat := events.countP (·.grant?.isSome)

theorem opens_append (events events' : List FileEvent) :
    opens (events ++ events') = opens events + opens events' :=
  List.countP_append

end FileEvent

namespace Descriptors

open FileEvent (opens)

variable {d : Descriptors} {path : List UInt8} {flags fd : Word} {place : NodePath}
  {node : FileNode} {file : OpenFile} {n length : Nat}

/-- The answer to a call, and the open files afterwards. -/
def perform (d : Descriptors) : FileCall → FileAnswer × Descriptors
  | .openPath path flags => (.number (d.openPath path flags).1, (d.openPath path flags).2)
  | .read fd length => (.bytes (d.read fd length).1, (d.read fd length).2)
  | .close fd => (.number (d.close fd).1, (d.close fd).2)

/-- The open files after calls, one after the other. -/
def after (d : Descriptors) (calls : List FileCall) : Descriptors :=
  calls.foldl (fun d call => (d.perform call).2) d

/-- What happens at a call. -/
def event (d : Descriptors) (call : FileCall) : FileEvent := ⟨d.store, call, (d.perform call).1⟩

/-- What happens at calls, one after the other. -/
def history (d : Descriptors) : List FileCall → List FileEvent
  | [] => []
  | call :: calls => d.event call :: history (d.perform call).2 calls

theorem after_cons (d : Descriptors) (call : FileCall) (calls : List FileCall) :
    d.after (call :: calls) = (d.perform call).2.after calls := rfl

/-- A history that is cut in two is that of the calls in front and that of the calls behind. -/
theorem history_eq_append {calls : List FileCall} {before rest : List FileEvent}
    (h : d.history calls = before ++ rest) : ∃ front back, calls = front ++ back ∧
      before = d.history front ∧ rest = (d.after front).history back := by
  induction before generalizing d calls with
  | nil => exact ⟨[], calls, rfl, rfl, h.symm⟩
  | cons e before ih =>
    cases calls with
    | nil => simp [history] at h
    | cons call calls =>
      obtain ⟨rfl, htail⟩ := List.cons.inj h
      obtain ⟨front, back, rfl, rfl, rfl⟩ := ih htail
      exact ⟨call :: front, back, rfl, rfl, rfl⟩

theorem history_eq_cons {calls : List FileCall} {e : FileEvent} {rest : List FileEvent}
    (h : d.history calls = e :: rest) : ∃ call back, calls = call :: back ∧ e = d.event call ∧
      rest = (d.perform call).2.history back := by
  cases calls with
  | nil => simp [history] at h
  | cons call calls =>
    obtain ⟨rfl, rfl⟩ := List.cons.inj h
    exact ⟨call, calls, rfl, rfl, rfl⟩

/-! ## What a call does -/

theorem openPath_of_refused (h : d.store.grant? path (.ofWord flags) = none) :
    d.openPath path flags = (-1, d) := by
  rw [FileStore.grant?] at h
  rw [openPath]
  cases hplace : d.store.resolve (Utf8.decode path) with
  | error e => rfl
  | ok place =>
    by_cases hflags : (OpenFlags.ofWord flags).consistent = true
    · rcases hnode : d.store.node? place with _ | ⟨content⟩ | _
      · have hcreate : ¬ (OpenFlags.ofWord flags).create = true := by
          simpa [hplace, hflags, hnode] using h
        simp [hflags, openNode?, hnode, hcreate]
      · simp [hplace, hflags, hnode] at h
      · have hwrites : (OpenFlags.ofWord flags).writes = true := by
          simpa [hplace, hflags, hnode] using h
        simp [hflags, openNode?, hnode, hwrites]
    · simp [hflags]

/-- A call that is granted gives out the next number. Files stay as they are, but for the one that
is opened, where it is to be emptied. -/
theorem openPath_of_granted (h : d.store.grant? path (.ofWord flags) = some (place, node)) :
    ∃ file store, d.openPath path flags = (Word.ofNat d.next,
        { d with store, opened := (d.next, file) :: d.opened, next := d.next + 1 }) ∧
      (∀ content, node = .file content →
        file = ⟨some place, 0, (OpenFlags.ofWord flags).read⟩) ∧
      store.node? place = some node ∧
      ∀ other content, d.store.node? other = some (.file content) →
        (other = place → (OpenFlags.ofWord flags).truncate = false) →
        store.node? other = some (.file content) := by
  rw [FileStore.grant?] at h
  rw [openPath]
  cases hplace : d.store.resolve (Utf8.decode path) with
  | error e => simp [hplace] at h
  | ok target =>
    by_cases hflags : (OpenFlags.ofWord flags).consistent = true
    · simp only [hplace, hflags, if_true] at h ⊢
      rw [openNode?]
      rcases hnode : d.store.node? target with _ | ⟨content⟩ | _ <;> simp only [hnode] at h ⊢
      · obtain ⟨hcreate, heq⟩ := Option.ite_none_right_eq_some.mp h
        obtain ⟨rfl, rfl⟩ := Prod.mk.inj (Option.some.inj heq)
        rw [if_pos hcreate]
        refine ⟨_, _, rfl, fun _ _ => rfl, d.store.node?_put_self _ _, fun other _ hother _ => ?_⟩
        exact FileStore.node?_put_of_ne hother (by rintro rfl; simp [hnode] at hother)
      · obtain ⟨rfl, rfl⟩ := Prod.mk.inj (Option.some.inj h)
        cases htruncate : (OpenFlags.ofWord flags).truncate with
        | false =>
          exact ⟨_, _, rfl, fun _ _ => rfl, by simpa using hnode, fun _ _ hother _ => hother⟩
        | true =>
          refine ⟨_, _, rfl, fun _ _ => rfl, by simpa using d.store.node?_put_self target [],
            fun other _ hother hne => ?_⟩
          exact FileStore.node?_put_of_ne hother (by rintro rfl; simpa using hne rfl)
      · obtain ⟨hwrites, heq⟩ := Option.ite_none_left_eq_some.mp h
        obtain ⟨rfl, rfl⟩ := Prod.mk.inj (Option.some.inj heq)
        rw [if_neg hwrites]
        exact ⟨_, _, rfl, (by simp), hnode, fun _ _ hother _ => hother⟩
    · simp [hplace, hflags] at h

theorem file?_eq (hfd : fd.toInt = n) : d.file? fd = (d.opened.lookup n).map (n, ·) := by
  rw [file?]
  induction d.opened with
  | nil => rfl
  | cons entry opened ih =>
    obtain ⟨k, file⟩ := entry
    rw [List.find?_cons, lookup_cons_ite, ih, hfd]
    by_cases hk : k = n
    · simp [hk]
    · simp [hk, Ne.symm hk]

theorem file?_eq_some (h : d.file? fd = some (n, file)) :
    fd.toInt = n ∧ d.opened.lookup n = some file := by
  have hfd : fd.toInt = n := by
    have := List.find?_some h
    simpa using (of_decide_eq_true this).symm
  rw [file?_eq hfd] at h
  refine ⟨hfd, ?_⟩
  cases hlookup : d.opened.lookup n with
  | none => simp [hlookup] at h
  | some found => simpa [hlookup] using h

/-- Reading moves on in the file with the number, and changes nothing else. -/
theorem read_frame (d : Descriptors) (fd : Word) (length : Nat) :
    (d.read fd length).2.store = d.store ∧ (d.read fd length).2.next = d.next ∧
      ∀ n : Nat, ∃ f, (d.read fd length).2.opened.lookup n = (d.opened.lookup n).map f ∧
        (fd.toInt ≠ n → f = id) := by
  have hstay : ∀ n : Nat, ∃ f, d.opened.lookup n = (d.opened.lookup n).map f ∧
      (fd.toInt ≠ n → f = id) := fun n => ⟨id, by simp, fun _ => rfl⟩
  rw [read]
  split_ifs with hzero
  · exact ⟨rfl, rfl, hstay⟩
  · rcases hfile : d.file? fd with _ | ⟨m, file⟩
    · exact ⟨rfl, rfl, hstay⟩
    · dsimp only
      cases d.unread? file with
      | none => exact ⟨rfl, rfl, hstay⟩
      | some rest =>
        obtain ⟨hfd, -⟩ := file?_eq_some hfile
        refine ⟨rfl, rfl, fun n =>
          ⟨_, lookup_map_value (fun k f => if k = m then _ else f) n _, ?_⟩⟩
        intro hne
        have hnm : ¬ n = m := by
          rintro rfl
          exact hne hfd
        exact funext fun f => if_neg hnm

/-- Closing takes the file with the number away, and changes nothing else. -/
theorem close_cases (d : Descriptors) (fd : Word) :
    d.close fd = (-1, d) ∨
      ∃ (n : Nat) (file : OpenFile), fd.toInt = n ∧ d.opened.lookup n = some file ∧
        d.close fd = (0, { d with opened := d.opened.filter (·.1 ≠ n) }) := by
  rw [close]
  cases hfile : d.file? fd with
  | none => exact .inl rfl
  | some found =>
    obtain ⟨n, file⟩ := found
    obtain ⟨hfd, hlookup⟩ := file?_eq_some hfile
    exact .inr ⟨n, file, hfd, hlookup, rfl⟩

/-- Opening either is refused, or gives out the next number. -/
theorem openPath_cases (d : Descriptors) (path : List UInt8) (flags : Word) :
    (d.store.grant? path (.ofWord flags) = none ∧ d.openPath path flags = (-1, d)) ∨
      ∃ place node file store, d.store.grant? path (.ofWord flags) = some (place, node) ∧
        d.openPath path flags = (Word.ofNat d.next,
          { d with store, opened := (d.next, file) :: d.opened, next := d.next + 1 }) := by
  cases h : d.store.grant? path (.ofWord flags) with
  | none => exact .inl ⟨rfl, openPath_of_refused h⟩
  | some grant =>
    obtain ⟨place, node⟩ := grant
    obtain ⟨file, store, hopen, -⟩ := openPath_of_granted h
    exact .inr ⟨place, node, file, store, rfl, hopen⟩

/-! ## Numbers -/

/-- So many numbers have been given out, one after the other, and what is open has one of them. -/
structure Numbered (d : Descriptors) (count : Nat) : Prop where
  next_eq : d.next = first + count
  bounds : ∀ n file, d.opened.lookup n = some file → first ≤ n ∧ n < d.next

theorem numbered_start (store : FileStore) (input : List UInt8) : (start store input).Numbered 0 :=
  ⟨rfl, fun _ _ h => by simp [start] at h⟩

theorem Numbered.perform {count : Nat} (h : d.Numbered count) (call : FileCall) :
    (d.perform call).2.Numbered (count + opens [d.event call]) := by
  cases call with
  | openPath path flags =>
    show (d.openPath path flags).2.Numbered _
    obtain ⟨hgrant, hopen⟩ | ⟨place, node, file, store, hgrant, hopen⟩ :=
      d.openPath_cases path flags
    · have hopens : opens [d.event (.openPath path flags)] = 0 := by
        simp [opens, FileEvent.grant?, event, hgrant]
      rwa [hopen, hopens]
    · have hopens : opens [d.event (.openPath path flags)] = 1 := by
        simp [opens, FileEvent.grant?, event, hgrant]
      rw [hopen, hopens]
      refine ⟨by rw [h.next_eq, Nat.add_assoc], fun n f hlookup => ?_⟩
      have hnext := h.next_eq
      rw [lookup_cons_ite] at hlookup
      split_ifs at hlookup with hn
      · dsimp only
        omega
      · have := h.bounds n f hlookup
        dsimp only
        omega
  | read fd length =>
    obtain ⟨-, hnext, hlookup⟩ := d.read_frame fd length
    refine ⟨hnext.trans h.next_eq, fun n f hn => ?_⟩
    obtain ⟨g, hg, -⟩ := hlookup n
    obtain ⟨f', hf', -⟩ := Option.map_eq_some_iff.mp (hg.symm.trans hn)
    exact hnext.symm ▸ h.bounds n f' hf'
  | close fd =>
    show (d.close fd).2.Numbered count
    obtain hclose | ⟨m, file, -, -, hclose⟩ := d.close_cases fd
    · rwa [hclose]
    · rw [hclose]
      refine ⟨h.next_eq, fun n f hn => ?_⟩
      rw [lookup_filter_ne] at hn
      split_ifs at hn
      exact h.bounds n f hn

theorem Numbered.after {count : Nat} (h : d.Numbered count) (calls : List FileCall) :
    (d.after calls).Numbered (count + opens (d.history calls)) := by
  induction calls generalizing d count with
  | nil => exact h
  | cons call calls ih =>
    have hopens : opens (d.history (call :: calls)) =
        opens [d.event call] + opens ((d.perform call).2.history calls) :=
      FileEvent.opens_append [d.event call] _
    rw [after_cons, hopens, ← Nat.add_assoc]
    exact ih (h.perform call)

/-! ## Closed files -/

/-- The number was given out, and it is not open any more. -/
structure Shut (d : Descriptors) (n : Nat) : Prop where
  first_le : first ≤ n
  lt_next : n < d.next
  lookup_eq : d.opened.lookup n = none

theorem Shut.perform (h : d.Shut n) (call : FileCall) : (d.perform call).2.Shut n := by
  cases call with
  | openPath path flags =>
    show (d.openPath path flags).2.Shut n
    obtain ⟨-, hopen⟩ | ⟨place, node, file, store, -, hopen⟩ := d.openPath_cases path flags
    · rwa [hopen]
    · rw [hopen]
      refine ⟨h.first_le, h.lt_next.trans (Nat.lt_succ_self _), ?_⟩
      rw [lookup_cons_ite, if_neg h.lt_next.ne, h.lookup_eq]
  | read fd length =>
    obtain ⟨-, hnext, hlookup⟩ := d.read_frame fd length
    obtain ⟨f, hf, -⟩ := hlookup n
    exact ⟨h.first_le, hnext.symm ▸ h.lt_next, by rw [Descriptors.perform, hf, h.lookup_eq]; rfl⟩
  | close fd =>
    show (d.close fd).2.Shut n
    obtain hclose | ⟨m, file, -, -, hclose⟩ := d.close_cases fd
    · rwa [hclose]
    · rw [hclose]
      refine ⟨h.first_le, h.lt_next, ?_⟩
      rw [lookup_filter_ne, h.lookup_eq, ite_self]

theorem Shut.after (h : d.Shut n) (calls : List FileCall) : (d.after calls).Shut n := by
  induction calls generalizing d with
  | nil => exact h
  | cons call calls ih => exact ih (h.perform call)

theorem ne_zero_of_toInt (hfd : fd.toInt = n) (hn : first ≤ n) : fd ≠ 0 := by
  rintro rfl
  have : (0 : Int) = n := hfd
  rw [first] at hn
  omega

theorem Shut.close_eq (h : d.Shut n) (hfd : fd.toInt = n) : d.close fd = (-1, d) := by
  rw [close, file?_eq hfd, h.lookup_eq]
  rfl

theorem Shut.read_eq (h : d.Shut n) (hfd : fd.toInt = n) (length : Nat) :
    d.read fd length = (none, d) := by
  rw [read, if_neg (ne_zero_of_toInt hfd h.first_le), file?_eq hfd, h.lookup_eq]
  rfl

theorem Numbered.shut_of_close {count : Nat} (h : d.Numbered count) (hclose : (d.close fd).1 = 0) :
    ∃ n : Nat, fd.toInt = n ∧ (d.close fd).2.Shut n := by
  obtain hfail | ⟨n, file, hfd, hlookup, hok⟩ := d.close_cases fd
  · rw [hfail] at hclose
    exact absurd hclose (show ¬ (-1 : Word) = 0 by decide)
  · obtain ⟨hfirst, hnext⟩ := h.bounds n file hlookup
    refine ⟨n, hfd, ?_⟩
    rw [hok]
    exact ⟨hfirst, hnext, by rw [lookup_filter_ne, if_pos rfl]⟩

/-! ## What is read -/

/-- The number stands for a file with the given content, which has been read up to a position. -/
structure Attached (d : Descriptors) (n : Nat) (place : NodePath) (content : List UInt8)
    (position : Nat) : Prop where
  first_le : first ≤ n
  lt_next : n < d.next
  lookup_eq : d.opened.lookup n = some ⟨some place, position, true⟩
  node_eq : d.store.node? place = some (.file content)

namespace Attached

variable {content : List UInt8} {position : Nat}

theorem read_eq (h : d.Attached n place content position) (hfd : fd.toInt = n) (length : Nat) :
    (d.read fd length).1 = some ((content.drop position).take length) ∧
      (d.read fd length).2.Attached n place content
        (position + ((content.drop position).take length).length) := by
  have hunread : d.unread? ⟨some place, position, true⟩ = some (content.drop position) := by
    simp [unread?, h.node_eq]
  rw [read, if_neg (ne_zero_of_toInt hfd h.first_le), file?_eq hfd, h.lookup_eq]
  simp only [Option.map_some, hunread, true_and]
  refine ⟨h.first_le, h.lt_next, ?_, h.node_eq⟩
  refine (lookup_map_value (fun k f => if k = n then _ else f) n _).trans ?_
  rw [h.lookup_eq, Option.map_some, if_pos rfl]

/-- A call either reads on in the file, or it leaves the position alone. -/
theorem perform (h : d.Attached n place content position) (hfd : fd.toInt = n) {call : FileCall}
    (hopen : call ≠ .close fd) (hkept : ¬ (d.event call).Truncates place) :
    (∃ length, call = .read fd length ∧
      (d.perform call).1 = .bytes (some ((content.drop position).take length)) ∧
      (d.perform call).2.Attached n place content
        (position + ((content.drop position).take length).length)) ∨
    ((∀ length, call ≠ .read fd length) ∧
      (d.perform call).2.Attached n place content position) := by
  cases call with
  | openPath path flags =>
    refine .inr ⟨by simp, ?_⟩
    show (d.openPath path flags).2.Attached n place content position
    cases hgrant : d.store.grant? path (.ofWord flags) with
    | none => rwa [openPath_of_refused hgrant]
    | some grant =>
      obtain ⟨target, node⟩ := grant
      obtain ⟨file, store, hresult, -, -, hfiles⟩ := openPath_of_granted hgrant
      rw [hresult]
      refine ⟨h.first_le, h.lt_next.trans (Nat.lt_succ_self _), ?_, ?_⟩
      · rw [lookup_cons_ite, if_neg h.lt_next.ne, h.lookup_eq]
      · refine hfiles place content h.node_eq fun htarget =>
          Bool.eq_false_iff.mpr fun htruncate => ?_
        refine hkept ⟨htruncate, ?_⟩
        show (d.store.grant? path (.ofWord flags)).map (·.1) = some place
        rw [hgrant, htarget]
        rfl
  | read fd' length =>
    by_cases heq : fd' = fd
    · subst heq
      obtain ⟨hread, hattached⟩ := h.read_eq hfd length
      exact .inl ⟨length, rfl, congrArg FileAnswer.bytes hread, hattached⟩
    · refine .inr ⟨fun length' hcall => heq (FileCall.read.inj hcall).1, ?_⟩
      have hne : fd'.toInt ≠ n := fun hn => heq (Int64.toInt_inj.mp (hn.trans hfd.symm))
      obtain ⟨hstore, hnext, hlookup⟩ := d.read_frame fd' length
      obtain ⟨f, hf, hid⟩ := hlookup n
      refine ⟨h.first_le, hnext.symm ▸ h.lt_next, ?_, hstore.symm ▸ h.node_eq⟩
      rw [Descriptors.perform, hf, hid hne, h.lookup_eq]
      rfl
  | close fd' =>
    refine .inr ⟨by simp, ?_⟩
    have hne : fd'.toInt ≠ n := fun hn => hopen (by rw [Int64.toInt_inj.mp (hn.trans hfd.symm)])
    show (d.close fd').2.Attached n place content position
    obtain hclose | ⟨m, file, hm, -, hclose⟩ := d.close_cases fd'
    · rwa [hclose]
    · rw [hclose]
      refine ⟨h.first_le, h.lt_next, ?_, h.node_eq⟩
      rw [lookup_filter_ne, if_neg (by rintro rfl; exact hne hm), h.lookup_eq]

/-- As long as the file is open and not emptied, what is read through its number makes up the
content from the position on, all of it if the end was found. -/
theorem history (h : d.Attached n place content position) (hfd : fd.toInt = n)
    {calls : List FileCall} (hopen : ∀ e ∈ d.history calls, e.call ≠ .close fd)
    (hkept : ∀ e ∈ d.history calls, ¬ e.Truncates place) :
    ∃ chunks : List (List UInt8),
      (d.history calls).filterMap (FileEvent.chunk? fd) = chunks.map some ∧
      chunks.flatten <+: content.drop position ∧
      ((∃ e ∈ d.history calls, e.FindsEnd fd) → chunks.flatten = content.drop position) := by
  induction calls generalizing d position with
  | nil => exact ⟨[], rfl, List.nil_prefix, by simp [Descriptors.history]⟩
  | cons call calls ih =>
    have hcall : call ≠ .close fd := hopen _ List.mem_cons_self
    have hrest := fun e he => hopen e (List.mem_cons_of_mem _ he)
    have hrest' := fun e he => hkept e (List.mem_cons_of_mem _ he)
    rw [Descriptors.history]
    obtain ⟨length, rfl, hanswer, hnext⟩ | ⟨hother, hnext⟩ :=
      h.perform hfd hcall (hkept _ List.mem_cons_self)
    · obtain ⟨chunks, hchunks, hprefix, hend⟩ := ih hnext hrest hrest'
      rw [← List.drop_drop] at hprefix hend
      generalize content.drop position = left at hanswer hprefix hend
      have hsplit : left.take length ++ left.drop (left.take length).length = left :=
        List.prefix_iff_eq_append.mp (List.take_prefix length left)
      have hchunk : (d.event (.read fd length)).chunk? fd = some (some (left.take length)) := by
        rw [FileEvent.chunk?, event, hanswer]
        exact if_pos rfl
      refine ⟨left.take length :: chunks, ?_, ?_, ?_⟩
      · rw [List.filterMap_cons_some hchunk, hchunks, List.map_cons]
      · rw [List.flatten_cons]
        conv_rhs => rw [← hsplit]
        exact (List.prefix_append_right_inj _).mpr hprefix
      · rintro ⟨e, he, hfinds⟩
        rw [List.flatten_cons]
        rcases List.mem_cons.mp he with rfl | he
        · -- Nothing was read although something was asked for, so nothing is left.
          obtain ⟨length', hpos, hread, hempty⟩ := hfinds
          obtain rfl : length = length' := (FileCall.read.inj hread).2
          have hnil : left.take length = [] :=
            Option.some.inj (FileAnswer.bytes.inj (hanswer.symm.trans hempty))
          obtain rfl : left = [] := (List.take_eq_nil_iff.mp hnil).resolve_left hpos.ne'
          simpa using hprefix
        · rw [hend ⟨e, he, hfinds⟩, hsplit]
    · obtain ⟨chunks, hchunks, hprefix, hend⟩ := ih hnext hrest hrest'
      have hchunk : (d.event call).chunk? fd = none := by
        cases call with
        | read fd' length =>
          have hne : fd' ≠ fd := by
            rintro rfl
            exact hother length rfl
          exact if_neg hne
        | _ => rfl
      refine ⟨chunks, by rw [List.filterMap_cons_none hchunk, hchunks], hprefix, ?_⟩
      rintro ⟨e, he, hfinds⟩
      rcases List.mem_cons.mp he with rfl | he
      · obtain ⟨length, -, hread, -⟩ := hfinds
        exact absurd hread (hother length)
      · exact hend ⟨e, he, hfinds⟩

end Attached

/-- Opening a file to be read attaches the next number to it, at the start. -/
theorem attached_of_granted {content : List UInt8} (hfirst : first ≤ d.next)
    (hgrant : d.store.grant? path (.ofWord flags) = some (place, .file content))
    (hread : (OpenFlags.ofWord flags).read = true) :
    (d.openPath path flags).1 = Word.ofNat d.next ∧
      (d.openPath path flags).2.Attached d.next place content 0 := by
  obtain ⟨file, store, hopen, hfile, hnode, -⟩ := openPath_of_granted hgrant
  rw [hopen, hfile content rfl, hread]
  exact ⟨rfl, hfirst, Nat.lt_succ_self _, List.lookup_cons_self, hnode⟩

/-- What happens at a call in the midst of others happens to the files that those in front leave. -/
theorem event_of_history {store : FileStore} {input : List UInt8} {calls : List FileCall}
    {before rest : List FileEvent} {e : FileEvent}
    (h : (start store input).history calls = before ++ e :: rest) :
    ∃ d call back, Numbered d (opens before) ∧ e = d.event call ∧
      rest = (d.perform call).2.history back := by
  obtain ⟨front, back, -, rfl, hrest⟩ := history_eq_append h
  obtain ⟨call, back, -, he, hback⟩ := history_eq_cons hrest.symm
  have hnumbered := (numbered_start store input).after front
  rw [Nat.zero_add] at hnumbered
  exact ⟨_, call, back, hnumbered, he, hback⟩

/-- Whatever calls are made, in whatever order, numbers are given out one after the other from three
on to the calls that are granted, and a call that is not returns minus one. A number that was closed
can neither be closed again nor be read. What is read through the number of a file, as long as it is
open and the file is not emptied, is the content from the start on, and all of it once nothing is
read although something was asked for. -/
theorem descriptors_independent (store : FileStore) (input : List UInt8) (calls : List FileCall) :
    (∀ (before after : List FileEvent) (e : FileEvent) (path : List UInt8) (flags : Word),
      (start store input).history calls = before ++ e :: after → e.call = .openPath path flags →
        (e.grant? = none → e.answer = .number (-1)) ∧
        (e.grant?.isSome → ∃ fd, e.answer = .number fd ∧ fd = Word.ofNat (3 + opens before) ∧
          (3 + opens before < 2 ^ 63 → fd.toInt = 3 + opens before))) ∧
    (∀ (before between after : List FileEvent) (e e' : FileEvent) (fd : Word),
      (start store input).history calls = before ++ e :: (between ++ e' :: after) →
      e.call = .close fd → e.answer = .number 0 →
        (e'.call = .close fd → e'.answer = .number (-1)) ∧
        ∀ length, e'.call = .read fd length → e'.answer = .bytes none) ∧
    ∀ (before between after : List FileEvent) (e : FileEvent) (path : List UInt8) (flags fd : Word)
      (place : NodePath) (content : List UInt8),
      (start store input).history calls = before ++ e :: (between ++ after) →
      e.call = .openPath path flags → e.grant? = some (place, .file content) →
      (OpenFlags.ofWord flags).read = true → e.answer = .number fd → 3 + opens before < 2 ^ 63 →
      (∀ x ∈ between, x.call ≠ .close fd) → (∀ x ∈ between, ¬ x.Truncates place) →
        ∃ chunks : List (List UInt8),
          between.filterMap (FileEvent.chunk? fd) = chunks.map some ∧
          chunks.flatten <+: content ∧
          ((∃ x ∈ between, x.FindsEnd fd) → chunks.flatten = content) := by
  refine ⟨fun before after e path flags h hcall => ?_,
    fun before between after e e' fd h hcall hzero => ?_,
    fun before between after e path flags fd place content h hcall hgrant hread hanswer hfits hopen
      hkept => ?_⟩
  · obtain ⟨d, call, back, hd, rfl, -⟩ := event_of_history h
    obtain rfl : call = .openPath path flags := hcall
    have hnext : d.next = 3 + opens before := hd.next_eq
    have hgrant : (d.event (.openPath path flags)).grant? =
      d.store.grant? path (.ofWord flags) := rfl
    have hanswer : (d.event (.openPath path flags)).answer =
      .number (d.openPath path flags).1 := rfl
    rw [hgrant, hanswer]
    obtain ⟨hnone, hresult⟩ | ⟨place, node, file, store', hsome, hresult⟩ :=
      d.openPath_cases path flags
    · rw [hnone, hresult]
      exact ⟨fun _ => rfl, by simp⟩
    · rw [hsome, hresult, hnext]
      refine ⟨by simp, fun _ => ⟨_, rfl, rfl, fun hfits => ?_⟩⟩
      rw [Word.ofNat, Int64.toInt_ofNat_of_lt hfits, Nat.cast_add, Nat.cast_ofNat]
  · obtain ⟨d, call, back, hd, rfl, hback⟩ := event_of_history h
    obtain rfl : call = .close fd := hcall
    obtain ⟨n, hfd, hshut⟩ := hd.shut_of_close (FileAnswer.number.inj hzero)
    obtain ⟨front, back, -, -, hrest⟩ := history_eq_append hback.symm
    obtain ⟨call, -, -, rfl, -⟩ := history_eq_cons hrest.symm
    have hshut' := hshut.after front
    refine ⟨fun hcall => ?_, fun length hcall => ?_⟩
    · obtain rfl : call = .close fd := hcall
      exact congrArg FileAnswer.number (congrArg Prod.fst (hshut'.close_eq hfd))
    · obtain rfl : call = .read fd length := hcall
      exact congrArg FileAnswer.bytes (congrArg Prod.fst (hshut'.read_eq hfd length))
  · obtain ⟨d, call, back, hd, rfl, hback⟩ := event_of_history h
    obtain rfl : call = .openPath path flags := hcall
    have hnext : d.next = 3 + opens before := hd.next_eq
    obtain ⟨hnumber, hattached⟩ :=
      attached_of_granted (hnext ▸ Nat.le_add_right 3 _) hgrant hread
    obtain rfl : (d.openPath path flags).1 = fd := FileAnswer.number.inj hanswer
    obtain ⟨front, back, -, rfl, -⟩ := history_eq_append hback.symm
    rw [hnumber] at hopen ⊢
    exact hattached.history (Int64.toInt_ofNat_of_lt (hnext ▸ hfits)) hopen hkept

/-- A directory with one file of five bytes. -/
def sharedStore : FileStore := .ofList [] [("a", .file [1, 2, 3, 4, 5])]

/-- The file is opened twice, by two names, and read in turns. One number is closed and used again,
and the file is opened once more. -/
def sharedEvents : List FileEvent :=
  [⟨sharedStore, .openPath (Utf8.encode "a") 0, .number 3⟩,
    ⟨sharedStore, .openPath (Utf8.encode "b") 0, .number (-1)⟩,
    ⟨sharedStore, .openPath (Utf8.encode "./a") 0, .number 4⟩,
    ⟨sharedStore, .read 3 2, .bytes (some [1, 2])⟩,
    ⟨sharedStore, .read 4 4, .bytes (some [1, 2, 3, 4])⟩,
    ⟨sharedStore, .close 4, .number 0⟩,
    ⟨sharedStore, .openPath (Utf8.encode "a") 0, .number 5⟩,
    ⟨sharedStore, .read 4 1, .bytes none⟩,
    ⟨sharedStore, .read 3 9, .bytes (some [3, 4, 5])⟩,
    ⟨sharedStore, .read 3 1, .bytes (some [])⟩]

theorem history_shared :
    (start sharedStore []).history (sharedEvents.map (·.call)) = sharedEvents := by
  cbv

theorem descriptors_independent_shared :
    (start sharedStore []).history (sharedEvents.map (·.call)) = sharedEvents ∧
      (∃ fd, sharedEvents[6].answer = .number fd ∧ fd.toInt = 5) ∧
      sharedEvents[7].answer = .bytes none ∧
      ∃ chunks : List (List UInt8),
        (sharedEvents.drop 1).filterMap (FileEvent.chunk? 3) = chunks.map some ∧
        chunks.flatten = [1, 2, 3, 4, 5] := by
  obtain ⟨hnumber, hshut, hread⟩ :=
    descriptors_independent sharedStore [] (sharedEvents.map (·.call))
  rw [history_shared] at hnumber hshut hread
  refine ⟨history_shared, ?_, ?_, ?_⟩
  · obtain ⟨fd, hanswer, -, hfits⟩ :=
      (hnumber (sharedEvents.take 6) (sharedEvents.drop 7) _ _ _ rfl rfl).2 (by cbv)
    have hopens : opens (sharedEvents.take 6) = 2 := by cbv
    rw [hopens] at hfits
    exact ⟨fd, hanswer, hfits (by decide)⟩
  · exact (hshut (sharedEvents.take 5) [sharedEvents[6]] (sharedEvents.drop 8) _ _ 4 rfl rfl
      rfl).2 1 rfl
  · obtain ⟨chunks, hchunks, -, hall⟩ := hread [] (sharedEvents.drop 1) [] _ _ _ 3 ["a"]
      [1, 2, 3, 4, 5] rfl rfl (by cbv) rfl rfl (by decide) (by decide) (by decide)
    exact ⟨chunks, hchunks, hall ⟨_, List.getElem_mem (n := 8) (by decide), 1, by decide, rfl, rfl⟩⟩

end Descriptors

end MiniC
