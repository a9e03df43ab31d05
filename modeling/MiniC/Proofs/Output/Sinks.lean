import Mathlib
import MiniC.Sink

/-!
# Actions that write to a sink

What is written to a sink in parts is written as one (`Sink.write_append`), and a sink that has
refused something keeps nothing of what follows (`Sink.write_append_of_refused`).

An action that writes to its sink and never looks at it does the same whatever the sink is, as long
as the sink takes what is written. Otherwise it fails there, and the sink holds as much of the
output as it can (`Outlet.Writes`). This carries over from actions to sequences of actions, so that
it has to be shown for the single actions only (`Outlet.Prints`).
-/

namespace MiniC

namespace Sink

variable {out : Sink} {bytes : List UInt8} {capacity : Nat}

/-! ## Writing in parts -/

theorem ext {out out' : Sink} (hwritten : out.written.toList = out'.written.toList)
    (hcapacity : out.capacity = out'.capacity) : out = out' := by
  obtain ⟨written, capacity⟩ := out
  obtain ⟨written', capacity'⟩ := out'
  obtain rfl : written = written' := Array.toList_inj.mp hwritten
  obtain rfl : capacity = capacity' := hcapacity
  rfl

@[simp]
theorem capacity_write (out : Sink) (bytes : List UInt8) :
    (out.write bytes).capacity = out.capacity := by
  obtain ⟨written, _ | capacity⟩ := out <;> rfl

theorem toList_write_of_unlimited (h : out.capacity = none) (bytes : List UInt8) :
    (out.write bytes).written.toList = out.written.toList ++ bytes := by
  rw [write, h, Array.toList_appendList]

theorem toList_write_of_limited (h : out.capacity = some capacity) (bytes : List UInt8) :
    (out.write bytes).written.toList =
      out.written.toList ++ bytes.take (capacity - out.written.size) := by
  rw [write, h, Array.toList_appendList]

theorem size_write_of_limited (h : out.capacity = some capacity) (bytes : List UInt8) :
    (out.write bytes).written.size =
      out.written.size + min (capacity - out.written.size) bytes.length := by
  rw [← Array.length_toList, toList_write_of_limited h, List.length_append, List.length_take,
    Array.length_toList]

theorem accepts_of_unlimited (h : out.capacity = none) (bytes : List UInt8) :
    out.accepts bytes = true := by
  rw [accepts, h]

theorem accepts_iff_of_limited (h : out.capacity = some capacity) :
    out.accepts bytes = true ↔ bytes = [] ∨ out.written.size + bytes.length ≤ capacity := by
  simp [accepts, h]

@[simp]
theorem accepts_nil (out : Sink) : out.accepts [] = true := by
  rw [accepts]
  split <;> rfl

@[simp]
theorem write_nil (out : Sink) : out.write [] = out := by
  obtain ⟨written, _ | capacity⟩ := out <;> simp [write]

theorem write_append (out : Sink) (bytes more : List UInt8) :
    out.write (bytes ++ more) = (out.write bytes).write more := by
  refine ext ?_ (by simp)
  have hsame := capacity_write out bytes
  cases h : out.capacity with
  | none =>
    rw [h] at hsame
    rw [toList_write_of_unlimited h, toList_write_of_unlimited hsame, toList_write_of_unlimited h,
      List.append_assoc]
  | some capacity =>
    rw [h] at hsame
    rw [toList_write_of_limited h, toList_write_of_limited hsame, toList_write_of_limited h,
      size_write_of_limited h, List.take_append, List.append_assoc]
    congr 3
    omega

/-- Two parts are taken if the first one is and the second one is then. -/
theorem accepts_append (out : Sink) (bytes more : List UInt8) :
    out.accepts (bytes ++ more) = (out.accepts bytes && (out.write bytes).accepts more) := by
  have hsame := capacity_write out bytes
  cases h : out.capacity with
  | none =>
    rw [h] at hsame
    simp [accepts_of_unlimited, h]
  | some capacity =>
    rw [h] at hsame
    rw [Bool.eq_iff_iff, Bool.and_eq_true, accepts_iff_of_limited h, accepts_iff_of_limited h,
      accepts_iff_of_limited hsame, size_write_of_limited h]
    cases bytes with
    | nil => simp
    | cons b bytes =>
      cases more with
      | nil => simp
      | cons c more =>
        simp only [List.cons_append, List.length_cons, List.length_append, reduceCtorEq, false_or]
        omega

/-- A sink that has refused something keeps nothing of what follows. -/
theorem write_append_of_refused (h : out.accepts bytes = false) (more : List UInt8) :
    out.write (bytes ++ more) = out.write bytes := by
  cases hcapacity : out.capacity with
  | none => simp [accepts_of_unlimited hcapacity] at h
  | some capacity =>
    have hlarge : ¬ (bytes = [] ∨ out.written.size + bytes.length ≤ capacity) := by
      rw [← accepts_iff_of_limited hcapacity, h]
      simp
    refine ext ?_ (by simp)
    rw [toList_write_of_limited hcapacity, toList_write_of_limited hcapacity,
      List.take_append_of_le_length (by omega)]

/-! ## Empty sinks -/

theorem toList_write_empty_none (bytes : List UInt8) :
    ((empty none).write bytes).written.toList = bytes :=
  toList_write_of_unlimited rfl bytes

theorem toList_write_empty_some (capacity : Nat) (bytes : List UInt8) :
    ((empty (some capacity)).write bytes).written.toList = bytes.take capacity :=
  toList_write_of_limited rfl bytes

theorem accepts_empty_some : (empty (some capacity)).accepts bytes = true ↔
    bytes.length ≤ capacity := by
  rw [accepts_iff_of_limited rfl]
  cases bytes <;> simp [empty]

end Sink

/-! ## Actions -/

/-- How actions on states write: the sink of a state can be exchanged for another one, and some
errors say that a sink has refused what was written. -/
structure Outlet (ε σ : Type) where
  put : Sink → σ → σ
  refused : ε → Prop

namespace Outlet

variable {ε σ α β : Type} {o : Outlet ε σ} {x : EStateM ε σ α} {f : α → EStateM ε σ β} {s : σ}
  {bytes more : List UInt8}

/-- The same end with another sink. -/
def replace (o : Outlet ε σ) (out : Sink) : EStateM.Result ε σ α → EStateM.Result ε σ α
  | .ok a s => .ok a (o.put out s)
  | .error e s => .error e (o.put out s)

/-- From the state `s` on, up to its sink, the action writes `bytes` and ends with `r`, whatever the
sink is. A sink that refuses some of the bytes makes it fail when these are written. -/
structure Writes (o : Outlet ε σ) (x : EStateM ε σ α) (s : σ) (bytes : List UInt8)
    (r : EStateM.Result ε σ α) : Prop where
  accepted : ∀ out : Sink, out.accepts bytes = true →
    x (o.put out s) = o.replace (out.write bytes) r
  refused : ∀ out : Sink, out.accepts bytes = false →
    ∃ e s', o.refused e ∧ x (o.put out s) = .error e (o.put (out.write bytes) s')

theorem bind_of_ok {s s' : σ} {a : α} (h : x s = .ok a s') : (x >>= f) s = f a s' := by
  show EStateM.bind x f s = _
  rw [EStateM.bind, h]

theorem bind_of_error {s s' : σ} {e : ε} (h : x s = .error e s') :
    (x >>= f) s = .error e s' := by
  show EStateM.bind x f s = _
  rw [EStateM.bind, h]

namespace Writes

theorem seq {a : α} {s' : σ} {r : EStateM.Result ε σ β} (hx : o.Writes x s bytes (.ok a s'))
    (hf : o.Writes (f a) s' more r) : o.Writes (x >>= f) s (bytes ++ more) r where
  accepted out h := by
    rw [Sink.accepts_append, Bool.and_eq_true] at h
    rw [bind_of_ok (hx.accepted out h.1), hf.accepted _ h.2, Sink.write_append]
  refused out h := by
    rw [Sink.accepts_append, Bool.and_eq_false_iff] at h
    cases hfirst : out.accepts bytes with
    | false =>
      obtain ⟨e, s', he, hs'⟩ := hx.refused out hfirst
      exact ⟨e, s', he, by rw [bind_of_error hs', Sink.write_append_of_refused hfirst]⟩
    | true =>
      obtain ⟨e, s', he, hs'⟩ := hf.refused _ (h.resolve_left (by simp [hfirst]))
      exact ⟨e, s', he, by rw [bind_of_ok (hx.accepted out hfirst), hs', Sink.write_append]⟩

/-- What follows an action that fails is not done. -/
theorem stop {e : ε} {s' : σ} (hx : o.Writes x s bytes (.error e s')) :
    o.Writes (x >>= f) s bytes (.error e s') where
  accepted out h := bind_of_error (hx.accepted out h)
  refused out h := by
    obtain ⟨e, s', he, hs'⟩ := hx.refused out h
    exact ⟨e, s', he, bind_of_error hs'⟩

/-- An action that writes something and goes on as another one. -/
theorem print {y : EStateM ε σ α} {e : ε} {s' : σ} {r : EStateM.Result ε σ α} (he : o.refused e)
    (hx : ∀ out : Sink, x (o.put out s) = if out.accepts bytes then y (o.put (out.write bytes) s')
      else .error e (o.put (out.write bytes) s'))
    (hy : o.Writes y s' more r) : o.Writes x s (bytes ++ more) r where
  accepted out h := by
    rw [Sink.accepts_append, Bool.and_eq_true] at h
    rw [hx, if_pos h.1, hy.accepted _ h.2, Sink.write_append]
  refused out h := by
    rw [Sink.accepts_append, Bool.and_eq_false_iff] at h
    cases hfirst : out.accepts bytes with
    | false =>
      refine ⟨e, s', he, ?_⟩
      rw [hx, if_neg (Bool.eq_false_iff.mp hfirst), Sink.write_append_of_refused hfirst]
    | true =>
      obtain ⟨e, s', he, hs'⟩ := hy.refused _ (h.resolve_left (by simp [hfirst]))
      exact ⟨e, s', he, by rw [hx, if_pos hfirst, hs', Sink.write_append]⟩

/-- An action that does not use the sink. -/
theorem silent {r : EStateM.Result ε σ α} (h : ∀ out, x (o.put out s) = o.replace out r) :
    o.Writes x s [] r where
  accepted out _ := by rw [h, Sink.write_nil]
  refused out hout := by simp at hout

/-- What an action does from a state that has the same sink beside it does not depend on the sink.
-/
theorem congr {y : EStateM ε σ α} {s' : σ} {r : EStateM.Result ε σ α}
    (h : ∀ out, x (o.put out s) = y (o.put out s')) (hy : o.Writes y s' bytes r) :
    o.Writes x s bytes r where
  accepted out hout := by rw [h, hy.accepted out hout]
  refused out hout := by
    obtain ⟨e, t, he, ht⟩ := hy.refused out hout
    exact ⟨e, t, he, by rw [h, ht]⟩

end Writes

/-- The action writes to its sink and does not look at it. A quiet one does not even write. -/
def Prints (o : Outlet ε σ) (quiet : Bool) (x : EStateM ε σ α) : Prop :=
  ∀ s, ∃ bytes r, (quiet = true → bytes = []) ∧ o.Writes x s bytes r

namespace Prints

variable {quiet : Bool}

theorem bind (hx : o.Prints quiet x) (hf : ∀ a, o.Prints quiet (f a)) :
    o.Prints quiet (x >>= f) := by
  intro s
  obtain ⟨bytes, r, hquiet, hr⟩ := hx s
  cases r with
  | error e s' => exact ⟨bytes, _, hquiet, hr.stop⟩
  | ok a s' =>
    obtain ⟨more, r, hquiet', hmore⟩ := hf a s'
    exact ⟨bytes ++ more, r, fun h => by rw [hquiet h, hquiet' h, List.append_nil], hr.seq hmore⟩

theorem pure (a : α) : o.Prints quiet (Pure.pure a) := fun s =>
  ⟨[], .ok a s, fun _ => rfl, .silent fun _ => rfl⟩

theorem throw (e : ε) : o.Prints quiet (MonadExcept.throw e : EStateM ε σ α) := fun s =>
  ⟨[], .error e s, fun _ => rfl, .silent fun _ => rfl⟩

/-- What follows must not look at the sink of the state that it is given. -/
theorem get {g : σ → EStateM ε σ α} (hsame : ∀ out s, g (o.put out s) = g s)
    (hg : ∀ s, o.Prints quiet (g s)) : o.Prints quiet (MonadState.get >>= g) := by
  intro s
  obtain ⟨bytes, r, hquiet, hr⟩ := hg s s
  exact ⟨bytes, r, hquiet, .congr (fun out => congrFun (hsame out s) _) hr⟩

theorem update {g : σ → σ} (h : ∀ out s, g (o.put out s) = o.put out (g s)) :
    o.Prints quiet (modify g : EStateM ε σ PUnit) := by
  intro s
  refine ⟨[], .ok ⟨⟩ (g s), fun _ => rfl, .silent fun out => ?_⟩
  show EStateM.Result.ok PUnit.unit (g (o.put out s)) = .ok ⟨⟩ (o.put out (g s))
  rw [h]

end Prints

end Outlet

end MiniC
