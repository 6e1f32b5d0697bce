import TerminalConfig.Proofs.Lookahead

/-! # Directives — one keyword, one directive

    The two directives start with different keywords, so at most one of them
    can be read at a place: the order in which they are tried does not matter
    (`run_directive_eq_ok`). -/

namespace TerminalConfig

namespace Reader

variable {α β : Type}

theorem ne_nil_of_progresses {r : Reader α} (h : r.Progresses) {s t : Bytes} {a : α}
    (hrun : r.run s = .ok (a, t)) : s ≠ [] := by
  rintro rfl
  exact absurd (h hrun) (Nat.not_lt_zero _)

/-- Behind an identifier no gap starts. -/
theorem settled_of_identifier {s t : Bytes} {name : String}
    (h : identifier.run s = .ok (name, t)) : Settled t := by
  obtain ⟨w, u, hlex, hp⟩ := run_bind_eq_ok.mp h
  cases hp
  obtain ⟨g, -, hg⟩ := run_lexeme_eq_ok.mp hlex
  exact settled_of_skipGap hg

/-- A keyword is an identifier of that name. -/
theorem run_keyword_eq_ok {expected : String} {s t : Bytes} {u : Unit} :
    (keyword expected).run s = .ok (u, t) ↔ identifier.run s = .ok (expected, t) := by
  rw [keyword, run_fromStart_eq_ok, run_bind_eq_ok]
  constructor
  · rintro ⟨name, v, hname, h⟩
    split at h
    · next he =>
      cases h
      rw [hname, he]
    · cases h
  · intro h
    refine ⟨expected, t, h, ?_⟩
    rw [if_pos rfl]
    rfl

/-- An identifier of another name is not the keyword. -/
theorem run_keyword_bind_error {expected name : String} (h : name ≠ expected) {s t : Bytes}
    (hname : identifier.run s = .ok (name, t)) (next : Unit → Reader α) :
    ∃ e, (keyword expected >>= next).run s = .error e := by
  cases hrun : (keyword expected >>= next).run s with
  | error e => exact ⟨e, rfl⟩
  | ok v =>
      obtain ⟨u, w, hk, -⟩ := run_bind_eq_ok.mp hrun
      rw [run_keyword_eq_ok, hname] at hk
      exact absurd (congrArg Prod.fst (Except.ok.inj hk)) h

/-- A directive starts with its keyword. -/
theorem identifier_of_mapDirective {s t : Bytes} {d : Directive}
    (h : mapDirective.run s = .ok (d, t)) :
    ∃ u, identifier.run s = .ok ("map", u) ∧ u ≠ [] := by
  obtain ⟨_, u, hk, h⟩ := run_bind_eq_ok.mp h
  obtain ⟨term, v, hterm, h⟩ := run_bind_eq_ok.mp h
  obtain ⟨data, w, hdata, -⟩ := run_bind_eq_ok.mp h
  have hv := ne_nil_of_progresses progresses_stringLiteral hdata
  refine ⟨u, run_keyword_eq_ok.mp hk, ?_⟩
  exact (terminalFilter.rest_suffix hterm).ne_nil hv

theorem identifier_of_debugLogDirective {s t : Bytes} {d : Directive}
    (h : debugLogDirective.run s = .ok (d, t)) :
    ∃ u, identifier.run s = .ok ("debugLog", u) ∧ u ≠ [] := by
  obtain ⟨_, u, hk, h⟩ := run_bind_eq_ok.mp h
  obtain ⟨path, v, hpath, -⟩ := run_bind_eq_ok.mp h
  exact ⟨u, run_keyword_eq_ok.mp hk, ne_nil_of_progresses progresses_stringLiteral hpath⟩

/-- A choice takes its first reader where that one succeeds. -/
theorem run_orElse_of_ok {first second : Reader α} {s : Bytes} {v : α × Bytes}
    (h : first.run s = .ok v) : (first.orElse second).run s = .ok v := by
  simp only [orElse, h]

theorem run_orElse_of_error {first second : Reader α} {s : Bytes} {e : Failure}
    (h : first.run s = .error e) : (first.orElse second).run s = second.run s := by
  simp only [orElse, h]

/-- A directive is read exactly where one of the two is. -/
theorem run_directive_eq_ok {s : Bytes} {v : Directive × Bytes} :
    directive.run s = .ok v ↔ mapDirective.run s = .ok v ∨ debugLogDirective.run s = .ok v := by
  cases hmap : mapDirective.run s with
  | ok w =>
      rw [directive, run_orElse_of_ok hmap]
      constructor
      · exact Or.inl
      · rintro (h | h)
        · exact h
        · -- the keyword of the one is not that of the other
          obtain ⟨_, hname, -⟩ := identifier_of_mapDirective hmap
          obtain ⟨_, hname', -⟩ := identifier_of_debugLogDirective h
          rw [hname] at hname'
          have : "map" = "debugLog" := congrArg Prod.fst (Except.ok.inj hname')
          exact absurd this (by decide)
  | error e =>
      rw [directive, run_orElse_of_error hmap]
      constructor
      · exact Or.inr
      · rintro (h | h)
        · cases h
        · exact h

/-- Behind a directive no gap starts. -/
theorem settled_of_directive {s t : Bytes} {d : Directive} (h : directive.run s = .ok (d, t)) :
    Settled t := by
  have hend : ∀ {r : Reader Directive}, r.Delimited d → r.run s = .ok (d, t) → Settled t := by
    intro r hr hrun
    obtain ⟨_, _, g, -, -, hg, -⟩ := hr hrun
    exact settled_of_skipGap hg
  rcases run_directive_eq_ok.mp h with h | h
  · exact hend (delimited_mapDirective d) h
  · exact hend (delimited_debugLogDirective d) h

end Reader

end TerminalConfig
