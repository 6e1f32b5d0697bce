import Mathlib.Data.List.Forall2

/-! # Attempts — what comes of attempts in sequence

    An attempt gives a value or an error.  A sequence gives the value of its last
    attempt if all of them succeed, and attempts over a list give the list of
    their values (`mapM_eq_ok`). -/

namespace TerminalConfig

variable {ε α β : Type}

/-- The attempt gives a value. -/
def Succeeds (x : Except ε α) : Prop :=
  ∃ a, x = .ok a

theorem succeeds_ok (a : α) : Succeeds (.ok a : Except ε α) :=
  ⟨a, rfl⟩

theorem not_succeeds_error (e : ε) : ¬ Succeeds (.error e : Except ε α) := by
  rintro ⟨a, ha⟩
  cases ha

theorem error_ne_ok (e : ε) (a : α) : (.error e : Except ε α) ≠ .ok a := by
  intro h
  cases h

/-- What gives no value gives an error. -/
theorem exists_error_iff {x : Except ε α} : (∃ e, x = .error e) ↔ ¬ Succeeds x := by
  cases x with
  | error e => exact iff_of_true ⟨e, rfl⟩ (not_succeeds_error e)
  | ok a =>
      refine iff_of_false ?_ (not_not_intro (succeeds_ok a))
      rintro ⟨e, he⟩
      cases he

/-! ## Two attempts -/

/-- What comes of two attempts in sequence is what the second one makes of the
    value of the first. -/
theorem bind_eq_ok {x : Except ε α} {next : α → Except ε β} {b : β} :
    (x >>= next) = .ok b ↔ ∃ a, x = .ok a ∧ next a = .ok b := by
  cases x with
  | error e =>
      refine iff_of_false (fun h => not_succeeds_error e ⟨b, h⟩) ?_
      rintro ⟨a, ha, -⟩
      cases ha
  | ok a =>
      constructor
      · exact fun h => ⟨a, rfl, h⟩
      · rintro ⟨a', ha, h⟩
        cases ha
        exact h

/-- The error of a sequence is that of the attempt that fails. -/
theorem bind_eq_error {x : Except ε α} {next : α → Except ε β} {e : ε} :
    (x >>= next) = .error e ↔ x = .error e ∨ ∃ a, x = .ok a ∧ next a = .error e := by
  cases x with
  | error e' =>
      constructor
      · intro h
        cases h
        exact .inl rfl
      · rintro (h | ⟨a, ha, -⟩)
        · cases h
          rfl
        · cases ha
  | ok a =>
      constructor
      · exact fun h => .inr ⟨a, rfl, h⟩
      · rintro (h | ⟨a', ha, h⟩)
        · cases h
        · cases ha
          exact h

/-- Two attempts in sequence, the second one going on with the value of the
    first. -/
theorem succeeds_bind {x : Except ε α} {next : α → Except ε β} :
    Succeeds (x >>= next) ↔ ∃ a, x = .ok a ∧ Succeeds (next a) := by
  constructor
  · rintro ⟨b, hb⟩
    obtain ⟨a, ha, h⟩ := bind_eq_ok.mp hb
    exact ⟨a, ha, b, h⟩
  · rintro ⟨a, ha, b, h⟩
    exact ⟨b, bind_eq_ok.mpr ⟨a, ha, h⟩⟩

/-- What is made of the value does not matter. -/
theorem succeeds_map {x : Except ε α} {f : α → β} :
    Succeeds (x >>= fun a => pure (f a)) ↔ Succeeds x := by
  rw [succeeds_bind]
  constructor
  · rintro ⟨a, ha, -⟩
    exact ⟨a, ha⟩
  · rintro ⟨a, ha⟩
    exact ⟨a, ha, succeeds_ok _⟩

/-! ## Attempts over a list -/

/-- Attempts one after another give the list of what each of them gives. -/
theorem mapM_eq_ok {f : α → Except ε β} {as : List α} {bs : List β} :
    as.mapM f = .ok bs ↔ List.Forall₂ (fun a b => f a = .ok b) as bs := by
  induction as generalizing bs with
  | nil =>
      rw [List.forall₂_nil_left_iff]
      constructor
      · intro h
        cases h
        rfl
      · rintro rfl
        rfl
  | cons a as ih =>
      rw [List.mapM_cons, bind_eq_ok, List.forall₂_cons_left_iff]
      constructor
      · rintro ⟨b, hb, h⟩
        obtain ⟨later, hlater, h⟩ := bind_eq_ok.mp h
        cases h
        exact ⟨b, later, hb, ih.mp hlater, rfl⟩
      · rintro ⟨b, later, hb, hlater, rfl⟩
        exact ⟨b, hb, bind_eq_ok.mpr ⟨later, ih.mpr hlater, rfl⟩⟩

/-- Attempts one after another succeed when each of them does. -/
theorem succeeds_mapM {f : α → Except ε β} {as : List α} :
    Succeeds (as.mapM f) ↔ ∀ a ∈ as, Succeeds (f a) := by
  induction as with
  | nil => exact ⟨fun _ _ h => absurd h List.not_mem_nil, fun _ => succeeds_ok []⟩
  | cons a as ih =>
      rw [List.mapM_cons, List.forall_mem_cons, ← ih, succeeds_bind]
      constructor
      · rintro ⟨b, hb, h⟩
        exact ⟨⟨b, hb⟩, succeeds_map.mp h⟩
      · rintro ⟨⟨b, hb⟩, h⟩
        exact ⟨b, hb, succeeds_map.mpr h⟩

/-- If each value of a list has a result, the list has the list of results. -/
theorem exists_mapM {f : α → Except ε β} {P : α → β → Prop} {as : List α}
    (h : ∀ a ∈ as, ∃ b, f a = .ok b ∧ P a b) :
    ∃ bs, as.mapM f = .ok bs ∧ List.Forall₂ P as bs := by
  have hall : ∀ a ∈ as, Succeeds (f a) := by
    intro a ha
    obtain ⟨b, hb, -⟩ := h a ha
    exact ⟨b, hb⟩
  obtain ⟨bs, hbs⟩ := succeeds_mapM.mpr hall
  refine ⟨bs, hbs, ((List.forall₂_and_left _ _).mpr ⟨h, mapM_eq_ok.mp hbs⟩).imp ?_⟩
  rintro a b ⟨⟨b', hb', hP⟩, hb⟩
  rw [hb] at hb'
  cases hb'
  exact hP

/-- What holds of each result holds of the list. -/
theorem forall_of_forall₂ {P : β → Prop} {as : List α} {bs : List β}
    (h : List.Forall₂ (fun _ b => P b) as bs) : ∀ b ∈ bs, P b := by
  induction h with
  | nil => exact fun _ hb => absurd hb List.not_mem_nil
  | cons hb _ ih =>
      intro b' hb'
      rcases List.mem_cons.mp hb' with rfl | hmem
      · exact hb
      · exact ih b' hmem

end TerminalConfig
