import TerminalConfig.Document
import TerminalConfig.Proofs.Gap

/-! # Statements — what one step through a document can do

    A step first goes past the gap.  If the gap does not close, the first line
    of it is dropped; if nothing is behind it, the document ends; else a
    directive is read, or the line is dropped.  `Statement.next?_cases` says
    this once and for all, and the lemmas behind it carry single steps over to
    the lists of statements and fragments. -/

namespace TerminalConfig

namespace Statement

/-- The document ends where only a gap remains. -/
theorem next?_eq_none {s : Bytes} : next? s = none ↔ skipGap s = .ok [] := by
  constructor
  · intro h
    simp only [next?] at h
    split at h
    · cases h
    · next hs => exact hs
    · split at h <;> cases h
  · intro h
    simp only [next?, h]

/-- A gap that does not close costs the line that it starts in. -/
theorem next?_of_open {s : Bytes} {e : Failure} (h : skipGap s = .error e) :
    next? s = some (.skipped (.openComment e), afterLine s) := by
  simp only [next?, h]

/-- A directive that is read is the next statement. -/
theorem next?_of_directive {s t u : Bytes} {d : Directive} (h : skipGap s = .ok t)
    (hd : Reader.directive.run t = .ok (d, u)) : next? s = some (.directive d, u) := by
  cases t with
  | nil => exact absurd (Reader.progresses_directive hd) (Nat.not_lt_zero _)
  | cons a r => simp only [next?, h, hd]

/-- A line that no directive stands in front of is dropped. -/
theorem next?_of_unrecognized {s t : Bytes} {e : Failure} (h : skipGap s = .ok t) (ht : t ≠ [])
    (hd : Reader.directive.run t = .error e) :
    next? s = some (.skipped (.unrecognized (restOfLine t)), afterLine t) := by
  cases t with
  | nil => exact absurd rfl ht
  | cons a r => simp only [next?, h, hd]

/-- What one step through a document can do. -/
theorem next?_cases {s u : Bytes} {statement : Statement} (h : next? s = some (statement, u)) :
    (∃ e, skipGap s = .error e ∧ statement = .skipped (.openComment e) ∧ u = afterLine s) ∨
    (∃ t d, skipGap s = .ok t ∧ Reader.directive.run t = .ok (d, u) ∧
      statement = .directive d) ∨
    (∃ t e, skipGap s = .ok t ∧ t ≠ [] ∧ Reader.directive.run t = .error e ∧
      statement = .skipped (.unrecognized (restOfLine t)) ∧ u = afterLine t) := by
  cases hs : skipGap s with
  | error e =>
      rw [next?_of_open hs] at h
      cases h
      exact Or.inl ⟨e, rfl, rfl, rfl⟩
  | ok t =>
      refine Or.inr ?_
      cases hd : Reader.directive.run t with
      | ok v =>
          rw [next?_of_directive hs hd] at h
          cases h
          exact Or.inl ⟨t, v.1, rfl, hd, rfl⟩
      | error e =>
          -- a document that ends here has no next step
          have ht : t ≠ [] := by
            rintro rfl
            rw [next?_eq_none.mpr hs] at h
            cases h
          rw [next?_of_unrecognized hs ht hd] at h
          cases h
          exact Or.inr ⟨t, e, rfl, ht, hd, rfl, rfl⟩

/-- Only a directive that is read behind the gap is one. -/
theorem run_directive_of_next? {s t : Bytes} {d : Directive}
    (h : next? s = some (.directive d, t)) : ∃ u, Reader.directive.run u = .ok (d, t) := by
  obtain ⟨_, -, hstatement, -⟩ | ⟨u, _, -, hd, hstatement⟩ | ⟨_, _, -, -, -, hstatement, -⟩ :=
    next?_cases h
  · cases hstatement
  · cases hstatement
    exact ⟨u, hd⟩
  · cases hstatement

/-- Only a gap that does not close costs the line that it starts in for its comment. -/
theorem skipGap_of_next? {s t : Bytes} {e : Failure}
    (h : next? s = some (.skipped (.openComment e), t)) :
    skipGap s = .error e ∧ t = afterLine s := by
  obtain ⟨_, he, hstatement, ht⟩ | ⟨_, _, -, -, hstatement⟩ | ⟨_, _, -, -, -, hstatement, -⟩ :=
    next?_cases h
  · cases hstatement
    exact ⟨he, ht⟩
  · cases hstatement
  · cases hstatement

/-- A gap in front of a statement is no part of it. -/
theorem next?_of_skipGap {s t : Bytes} (h : skipGap s = .ok t) : next? s = next? t := by
  have ht : skipGap t = .ok t := settled_of_skipGap h
  cases hn : next? s with
  | none =>
      rw [next?_eq_none.mp hn] at h
      cases h
      rw [next?_eq_none.mpr skipGap_nil]
  | some v =>
      obtain ⟨e, he, -⟩ | ⟨u, d, hs, hd, hv⟩ | ⟨u, e, hs, hu, hd, hv, hrest⟩ := next?_cases hn
      · rw [h] at he
        cases he
      · rw [h] at hs
        cases hs
        rw [next?_of_directive ht hd, ← hv]
      · rw [h] at hs
        cases hs
        rw [next?_of_unrecognized ht hu hd, ← hv, ← hrest]

end Statement

namespace Document

theorem statements_of_next? {s t : Bytes} {statement : Statement}
    (h : Statement.next? s = some (statement, t)) : statements s = statement :: statements t := by
  rw [statements]
  split
  · next hn =>
    rw [h] at hn
    cases hn
  · next hn =>
    rw [h] at hn
    cases hn
    rfl

/-- A document has no statements where only a gap remains. -/
theorem statements_eq_nil {s : Bytes} : statements s = [] ↔ skipGap s = .ok [] := by
  rw [← Statement.next?_eq_none]
  cases h : Statement.next? s with
  | none =>
      rw [statements]
      split
      · simp
      · next hn =>
        rw [h] at hn
        cases hn
  | some v =>
      rw [statements_of_next? h]
      simp

/-- Documents with the same next step have the same statements. -/
theorem statements_congr {s t : Bytes} (h : Statement.next? s = Statement.next? t) :
    statements s = statements t := by
  cases hn : Statement.next? s with
  | none =>
      have hs := statements_eq_nil.mpr (Statement.next?_eq_none.mp hn)
      have ht := statements_eq_nil.mpr (Statement.next?_eq_none.mp (h.symm.trans hn))
      rw [hs, ht]
  | some v => rw [statements_of_next? hn, statements_of_next? (h.symm.trans hn)]

/-- A gap in front of a document is no part of it. -/
theorem statements_of_skipGap {s t : Bytes} (h : skipGap s = .ok t) :
    statements s = statements t :=
  statements_congr (Statement.next?_of_skipGap h)

theorem fragments_of_next? {s t : Bytes} {statement : Statement}
    (h : Statement.next? s = some (statement, t)) :
    fragments s = statement.fragment :: fragments t := by
  rw [fragments, statements_of_next? h]
  rfl

theorem fragments_of_skipGap {s t : Bytes} (h : skipGap s = .ok t) :
    fragments s = fragments t := by
  rw [fragments, statements_of_skipGap h]
  rfl

theorem fragments_eq_nil {s : Bytes} : fragments s = [] ↔ skipGap s = .ok [] := by
  rw [fragments, List.map_eq_nil_iff, statements_eq_nil]

/-- What a document says is what its first statement says, and then the rest. -/
theorem config_of_next? {s t : Bytes} {statement : Statement}
    (h : Statement.next? s = some (statement, t)) :
    config s = statement.fragment.merge (config t) := by
  rw [config, fragments_of_next? h, Config.mergeAll_cons]
  rfl

end Document

end TerminalConfig
