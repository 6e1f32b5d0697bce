import TerminalConfig.Lexical.Fault

/-! # Readers — reading a value off the front of a buffer

    A reader works on what remains of a buffer and hands on what remains
    after it.  Positions need no counters: a place in the buffer is what
    remains there, a suffix.  Each reader carries two facts with it:

    * what it leaves is a suffix of what it was given, so it never looks
      back and loops over it end by length;
    * where it fails, the fault lies at or after the place where it began,
      and at or before the place where it stopped.

    Sequencing keeps both, so a reader put together in `do` notation has
    them without further proof. -/

namespace TerminalConfig

/-- A fault, with what remains of the buffer where it lies (`site`) and where
    reading stopped (`stop`). -/
structure Failure where
  fault : Fault
  site : Bytes
  stop : Bytes
deriving DecidableEq, Repr

/-- A way to read a value off the front of the remaining bytes. -/
structure Reader (α : Type) where
  run : Bytes → Except Failure (α × Bytes)
  rest_suffix : ∀ {s t : Bytes} {a : α}, run s = .ok (a, t) → t <:+ s
  failure_suffix : ∀ {s : Bytes} {e : Failure}, run s = .error e →
    e.stop <:+ e.site ∧ e.site <:+ s

namespace Reader

variable {α β : Type}

/-- Reads nothing. -/
def pure (a : α) : Reader α where
  run s := .ok (a, s)
  rest_suffix h := by
    cases h
    exact List.suffix_refl _
  failure_suffix h := nomatch h

/-- Fails here. -/
def fail (fault : Fault) : Reader α where
  run s := .error ⟨fault, s, s⟩
  rest_suffix h := nomatch h
  failure_suffix h := by
    cases h
    exact ⟨List.suffix_refl _, List.suffix_refl _⟩

/-- Reads with `r`, then as its value says. -/
def bind (r : Reader α) (next : α → Reader β) : Reader β where
  run s :=
    match r.run s with
    | .ok (a, t) => (next a).run t
    | .error e => .error e
  rest_suffix {s t b} h := by
    cases hr : r.run s with
    | ok v =>
        rw [hr] at h
        exact ((next v.1).rest_suffix h).trans (r.rest_suffix hr)
    | error e =>
        rw [hr] at h
        cases h
  failure_suffix {s e} h := by
    cases hr : r.run s with
    | ok v =>
        rw [hr] at h
        have := (next v.1).failure_suffix h
        exact ⟨this.1, this.2.trans (r.rest_suffix hr)⟩
    | error e' =>
        rw [hr] at h
        cases h
        exact r.failure_suffix hr

instance : Monad Reader where
  pure := Reader.pure
  bind := Reader.bind

/-- All that remains, which stays unread. -/
def remaining : Reader Bytes where
  run s := .ok (s, s)
  rest_suffix h := by
    cases h
    exact List.suffix_refl _
  failure_suffix h := nomatch h

/-- The next byte, which stays unread. -/
def ahead : Reader (Option UInt8) := do
  return (← remaining).head?

/-- Goes on to a later place. -/
def skip (jump : Bytes → Bytes) (jump_suffix : ∀ s, jump s <:+ s) : Reader Unit where
  run s := .ok ((), jump s)
  rest_suffix {s t a} h := by
    cases h
    exact jump_suffix s
  failure_suffix h := nomatch h

/-- Goes past the next byte, if there is one. -/
def skipByte : Reader Unit :=
  skip List.tail List.tail_suffix

/-- The longest run of bytes of one class. -/
def takeWhile (p : UInt8 → Bool) : Reader Bytes where
  run s := .ok (s.takeWhile p, s.dropWhile p)
  rest_suffix {s t a} h := by
    cases h
    exact List.dropWhile_suffix p
  failure_suffix h := nomatch h

/-- Turns a fault that `r` returns as its value into a failure that lies where
    `r` began. -/
def fromStart (r : Reader (Except Fault α)) : Reader α where
  run s :=
    match r.run s with
    | .ok (.ok a, t) => .ok (a, t)
    | .ok (.error fault, t) => .error ⟨fault, s, t⟩
    | .error e => .error e
  rest_suffix {s t a} h := by
    split at h
    · next hr =>
      cases h
      exact r.rest_suffix hr
    · cases h
    · cases h
  failure_suffix {s e} h := by
    split at h
    · cases h
    · next hr =>
      cases h
      exact ⟨r.rest_suffix hr, List.suffix_refl _⟩
    · next hr =>
      cases h
      exact r.failure_suffix hr

/-- Reads with `second` from the same place where `first` fails. -/
def orElse (first second : Reader α) : Reader α where
  run s :=
    match first.run s with
    | .ok v => .ok v
    | .error _ => second.run s
  rest_suffix {s t a} h := by
    split at h
    · next hr =>
      cases h
      exact first.rest_suffix hr
    · exact second.rest_suffix h
  failure_suffix {s e} h := by
    split at h
    · cases h
    · exact second.failure_suffix h

/-- Two readers are the same when they read the same. -/
@[ext] theorem ext {r r' : Reader α} (h : ∀ s, r.run s = r'.run s) : r = r' := by
  cases r
  cases r'
  congr
  exact funext h

@[simp] theorem run_pure (a : α) (s : Bytes) :
    (Pure.pure a : Reader α).run s = .ok (a, s) := rfl

@[simp] theorem run_fail (fault : Fault) (s : Bytes) :
    (fail fault : Reader α).run s = .error ⟨fault, s, s⟩ := rfl

theorem run_bind (r : Reader α) (next : α → Reader β) (s : Bytes) :
    (r >>= next).run s =
      match r.run s with
      | .ok (a, t) => (next a).run t
      | .error e => .error e := rfl

theorem run_bind_of_ok {r : Reader α} {next : α → Reader β} {s t : Bytes} {a : α}
    (h : r.run s = .ok (a, t)) : (r >>= next).run s = (next a).run t := by
  rw [run_bind, h]

theorem run_bind_of_error {r : Reader α} {next : α → Reader β} {s : Bytes} {e : Failure}
    (h : r.run s = .error e) : (r >>= next).run s = .error e := by
  rw [run_bind, h]

theorem run_map (f : α → β) (r : Reader α) (s : Bytes) :
    (f <$> r).run s =
      match r.run s with
      | .ok (a, t) => .ok (f a, t)
      | .error e => .error e := rfl

@[simp] theorem run_remaining (s : Bytes) : remaining.run s = .ok (s, s) := rfl

@[simp] theorem run_ahead (s : Bytes) : ahead.run s = .ok (s.head?, s) := rfl

@[simp] theorem run_skipByte_cons (b : UInt8) (s : Bytes) :
    skipByte.run (b :: s) = .ok ((), s) := rfl

@[simp] theorem run_takeWhile (p : UInt8 → Bool) (s : Bytes) :
    (takeWhile p).run s = .ok (s.takeWhile p, s.dropWhile p) := rfl

/-- A sequence that succeeds does so through its first reader. -/
theorem run_bind_eq_ok {r : Reader α} {next : α → Reader β} {s u : Bytes} {b : β} :
    (r >>= next).run s = .ok (b, u) ↔
      ∃ a t, r.run s = .ok (a, t) ∧ (next a).run t = .ok (b, u) := by
  rw [run_bind]
  constructor
  · intro h
    cases hr : r.run s with
    | ok v =>
        rw [hr] at h
        exact ⟨v.1, v.2, rfl, h⟩
    | error e =>
        rw [hr] at h
        cases h
  · intro ⟨a, t, hr, h⟩
    rw [hr]
    exact h

/-- `fromStart` succeeds as its reader does with a good value. -/
theorem run_fromStart_eq_ok {r : Reader (Except Fault α)} {s t : Bytes} {a : α} :
    (fromStart r).run s = .ok (a, t) ↔ r.run s = .ok (.ok a, t) := by
  simp only [fromStart]
  split <;> simp_all

/-- What a reader leaves is no longer than what it was given. -/
theorem length_rest (r : Reader α) {s t : Bytes} {a : α} (h : r.run s = .ok (a, t)) :
    t.length ≤ s.length :=
  (r.rest_suffix h).length_le

/-- A reader that begins by going past a byte leaves no more than what follows
    that byte. -/
theorem length_skipByte_bind {next : Unit → Reader β} {b : UInt8} {s t : Bytes} {v : β}
    (h : (skipByte >>= next).run (b :: s) = .ok (v, t)) : t.length ≤ s.length :=
  (next ()).length_rest h

/-- A reader that never succeeds without reading a byte. -/
def Progresses (r : Reader α) : Prop :=
  ∀ {s t : Bytes} {a : α}, r.run s = .ok (a, t) → t.length < s.length

/-- Progress in the first step is progress in the sequence. -/
theorem Progresses.bind {r : Reader α} {next : α → Reader β} (h : r.Progresses) :
    (r >>= next).Progresses := by
  intro s u b hrun
  obtain ⟨a, t, hr, hn⟩ := run_bind_eq_ok.mp hrun
  exact Nat.lt_of_le_of_lt ((next a).length_rest hn) (h hr)

/-- Progress does not depend on what is made of the value. -/
theorem Progresses.map {r : Reader α} (f : α → β) (h : r.Progresses) : (f <$> r).Progresses :=
  h.bind

/-- Progress does not depend on where faults lie. -/
theorem Progresses.fromStart {r : Reader (Except Fault α)} (h : r.Progresses) :
    (fromStart r).Progresses := by
  intro s t a hrun
  exact h (run_fromStart_eq_ok.mp hrun)

/-- A choice of two readers that progress does. -/
theorem Progresses.orElse {first second : Reader α} (h : first.Progresses)
    (h' : second.Progresses) : (first.orElse second).Progresses := by
  intro s t a hrun
  simp only [Reader.orElse] at hrun
  split at hrun
  · next hr =>
    cases hrun
    exact h hr
  · exact h' hrun

/-- A reader that fails progresses. -/
theorem Progresses.fail (fault : Fault) : (Reader.fail fault : Reader α).Progresses :=
  fun h => nomatch h

end Reader

end TerminalConfig
