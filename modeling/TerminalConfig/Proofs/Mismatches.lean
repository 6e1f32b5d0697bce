import TerminalConfig.Proofs.Grammar

/-! # Mismatches — what can go wrong where every token can be read

    Where tokens lead up to the end (`Lexed`), none of them is malformed.  A reader
    that goes by tokens then fails only over one that does not fit its place
    (`Reader.Mismatches`).

    * A reader of one kind of token looks at the first byte: if it is of its kind,
      the token that stands there is the one it reads, and if not, the fault is a
      mismatch (`mismatches_of_first`).
    * A sequence of readers keeps to it as long as each leaves a place between two
      tokens (`TakesTokens`), since the tokens behind it can still be read. -/

namespace TerminalConfig

/-- From here on tokens can be read up to the end. -/
def Lexed (s : Bytes) : Prop :=
  ∃ tokens, Tokens s tokens []

/-- Behind tokens the later ones can still be read. -/
theorem Tokens.lexed {s t : Bytes} {tokens : List Token} (h : Tokens s tokens t) (hs : Lexed s) :
    Lexed t := by
  induction h with
  | nil => exact hs
  | cons htoken _ ih =>
      refine ih ?_
      obtain ⟨all, hall⟩ := hs
      cases hall with
      | nil =>
          obtain ⟨_, _, hnil, -⟩ := htoken
          cases hnil
      | cons hfirst hlater =>
          obtain ⟨-, rfl⟩ := hfirst.unique htoken
          exact ⟨_, hlater⟩

/-- Where all can be read and something is left, a token stands. -/
theorem Lexed.exists_token {b : UInt8} {r : Bytes} (h : Lexed (b :: r)) :
    ∃ token t, (Reader.token b).run (b :: r) = .ok (token, t) := by
  obtain ⟨tokens, htokens⟩ := h
  cases htokens with
  | cons hfirst _ =>
      obtain ⟨_, _, hcons, hrun⟩ := hfirst
      cases hcons
      exact ⟨_, _, hrun⟩

namespace Reader

variable {α β : Type}

/-- What is read is a sequence of tokens. -/
def TakesTokens (r : Reader α) : Prop :=
  ∀ ⦃s t : Bytes⦄ ⦃a : α⦄, r.run s = .ok (a, t) → ∃ tokens, Tokens s tokens t

/-- Where all tokens can be read, the reader fails only over one that does not fit. -/
def Mismatches (r : Reader α) : Prop :=
  ∀ ⦃s : Bytes⦄ ⦃e : Failure⦄, Lexed s → r.run s = .error e → e.fault.kind = .mismatch

theorem Recognizes.takesTokens {r : Reader α} {G : List Token → α → Prop} (h : r.Recognizes G) :
    r.TakesTokens := by
  intro s t a hrun
  obtain ⟨tokens, -, htokens⟩ := h.mp hrun
  exact ⟨tokens, htokens⟩

/-! ## Single tokens -/

/-- A reader that fails over any other first byte, and on the right one is the
    reader of the token there. -/
theorem mismatches_of_first {r : Reader α} {p : UInt8 → Bool} {f : α → Token} {x : Fault}
    (hkind : x.kind = .mismatch) (htoken : ∀ b, p b → token b = f <$> r)
    (hother : ∀ s : Bytes, ¬ s.head?.any p → r.run s = .error ⟨x, s, s⟩) : r.Mismatches := by
  intro s e hs herror
  by_cases hfirst : s.head?.any p
  · obtain ⟨b, rest, rfl, hb⟩ := exists_cons_of_head? hfirst
    obtain ⟨token, t, hrun⟩ := hs.exists_token
    rw [htoken b hb] at hrun
    obtain ⟨a, ha, -⟩ := run_map_eq_ok.mp hrun
    rw [herror] at ha
    cases ha
  · rw [hother s hfirst] at herror
    cases herror
    exact hkind

theorem mismatches_stringLiteral : stringLiteral.Mismatches := by
  refine mismatches_of_first (p := (· == doubleQuote)) (f := .string) (x := .expectedString)
    rfl ?_ ?_
  · intro b hb
    rw [beq_iff_eq.mp hb]
    rfl
  · intro s hs
    have hne : ¬ s.head? = some doubleQuote := fun h => hs (by simp [h])
    rw [stringLiteral, run_bind_of_ok (run_ahead s), if_neg hne, run_fail]

theorem mismatches_charLiteral : charLiteral.Mismatches := by
  refine mismatches_of_first (p := (· == apostrophe)) (f := .char) (x := .expectedChar)
    rfl ?_ ?_
  · intro b hb
    rw [beq_iff_eq.mp hb]
    rfl
  · intro s hs
    have hne : ¬ s.head? = some apostrophe := fun h => hs (by simp [h])
    rw [charLiteral, run_bind_of_ok (run_ahead s), if_neg hne, run_fail]

theorem mismatches_natural : natural.Mismatches := by
  refine mismatches_of_first (x := .expectedNatural) rfl (fun b hb => token_of_isDigit hb) ?_
  intro s hs
  rw [natural, run_bind_of_ok (run_ahead s), if_neg hs, run_fail]

theorem mismatches_identifier : identifier.Mismatches := by
  refine mismatches_of_first (x := .expectedIdentifier) rfl
    (fun b hb => token_of_startsIdentifier hb) ?_
  intro s hs
  have hbytes : identifierBytes.run s = .error ⟨.expectedIdentifier, s, s⟩ := by
    rw [identifierBytes, run_bind_of_ok (run_ahead s), if_neg hs, run_fail]
  rw [identifier, run_map, lexeme, run_bind_of_error hbytes]

theorem mismatches_symbol {text : String} {b : UInt8} (htext : text = latinString [b])
    (hb : isSymbol b) : (symbol text).Mismatches := by
  refine mismatches_of_first (p := (· == b)) (f := fun _ => Token.symbol b)
    (x := .expectedSymbol text) rfl ?_ ?_
  · intro c hc
    rw [beq_iff_eq.mp hc, token_of_isSymbol hb, htext]
  · intro s hs
    have hnone : dropText? text.toList s = none := by
      cases hdrop : dropText? text.toList s with
      | none => rfl
      | some t =>
          rw [htext] at hdrop
          rw [dropText?_latinString.mp hdrop] at hs
          exact absurd (by simp) hs
    have hexact : (exactly text).run s = .error ⟨.expectedSymbol text, s, s⟩ := by
      rw [exactly, run_bind_of_ok (run_remaining s)]
      simp only [hnone, run_fail]
    rw [symbol, lexeme, run_bind_of_error hexact]

/-! ## Readers in sequence -/

/-- A sequence fails in its first reader, or behind it. -/
theorem run_bind_eq_error {r : Reader α} {next : α → Reader β} {s : Bytes} {e : Failure} :
    (r >>= next).run s = .error e ↔
      r.run s = .error e ∨ ∃ a t, r.run s = .ok (a, t) ∧ (next a).run t = .error e := by
  cases hr : r.run s with
  | error e' =>
      rw [run_bind_of_error hr]
      constructor
      · rintro ⟨⟩
        exact Or.inl rfl
      · rintro (h | ⟨_, _, h, -⟩)
        · rw [Except.error.inj h]
        · cases h
  | ok v =>
      rw [run_bind_of_ok (a := v.1) (t := v.2) hr]
      constructor
      · exact fun h => Or.inr ⟨v.1, v.2, rfl, h⟩
      · rintro (h | ⟨_, _, h, herror⟩)
        · cases h
        · cases h
          exact herror

/-- `fromStart` fails as its reader does, or with the fault that it returns. -/
theorem run_fromStart_eq_error {r : Reader (Except Fault α)} {s : Bytes} {e : Failure}
    (h : (fromStart r).run s = .error e) :
    r.run s = .error e ∨ ∃ fault t, r.run s = .ok (.error fault, t) ∧ e = ⟨fault, s, t⟩ := by
  simp only [fromStart] at h
  split at h
  · cases h
  · next fault t hr =>
    cases h
    exact Or.inr ⟨fault, t, hr, rfl⟩
  · next hr =>
    cases h
    exact Or.inl hr

/-- A sequence goes on where all tokens can still be read. -/
theorem Mismatches.bind {r : Reader α} {next : α → Reader β} (h : r.Mismatches)
    (htakes : r.TakesTokens)
    (h' : ∀ ⦃s t : Bytes⦄ ⦃a : α⦄, r.run s = .ok (a, t) → (next a).Mismatches) :
    (r >>= next).Mismatches := by
  intro s e hs herror
  rcases run_bind_eq_error.mp herror with hr | ⟨a, t, hr, hnext⟩
  · exact h hs hr
  · obtain ⟨tokens, htokens⟩ := htakes hr
    exact h' hr (htokens.lexed hs) hnext

theorem Mismatches.map {r : Reader α} (f : α → β) (h : r.Mismatches) : (f <$> r).Mismatches := by
  intro s e hs herror
  rcases run_bind_eq_error.mp herror with hr | ⟨a, t, -, hpure⟩
  · exact h hs hr
  · cases hpure

theorem takesTokens_identifier : identifier.TakesTokens :=
  fun _ _ _ h => ⟨_, tokens_singleton.mpr (tokenAt_identifier.mpr h)⟩

theorem takesTokens_symbol {text : String} {b : UInt8} (htext : text = latinString [b])
    (hb : isSymbol b) : (symbol text).TakesTokens :=
  fun _ _ _ h => ⟨_, tokens_singleton.mpr ((run_symbol_iff htext hb).mp ⟨_, h⟩)⟩

/-- A name that is not known does not fit, and a known one leads to its payload. -/
theorem mismatches_variant (enumeration : String) {next : String → Option (Reader α)}
    (h : ∀ name r, next name = some r → r.Mismatches) : (variant enumeration next).Mismatches := by
  refine Mismatches.bind ?_ ?_ ?_
  · intro s e hs herror
    rcases run_fromStart_eq_error herror with herror | ⟨fault, t, hrun, rfl⟩
    · rcases run_bind_eq_error.mp herror with hname | ⟨name, t, -, hnext⟩
      · exact mismatches_identifier hs hname
      · split at hnext <;> cases hnext
    · obtain ⟨name, u, -, hnext⟩ := run_bind_eq_ok.mp hrun
      split at hnext <;> cases hnext
      rfl
  · intro s t r hrun
    obtain ⟨name, u, hname, hnext⟩ := run_bind_eq_ok.mp (run_fromStart_eq_ok.mp hrun)
    split at hnext <;> cases hnext
    exact takesTokens_identifier hname
  · intro s t r hrun
    obtain ⟨name, u, -, hnext⟩ := run_bind_eq_ok.mp (run_fromStart_eq_ok.mp hrun)
    split at hnext
    · next hr =>
      cases hnext
      exact h name _ hr
    · cases hnext

section Lists

variable {element : Reader α} {G : List Token → α → Prop}

/-- Elements fail where a comma is no token or an element does not fit. -/
theorem mismatches_elements (h : element.Mismatches) (htakes : element.TakesTokens) :
    (elements element).Mismatches := by
  have hcomma : (symbol ",").Mismatches := mismatches_symbol (b := comma) (by decide) (by decide)
  have htakesComma : (symbol ",").TakesTokens :=
    takesTokens_symbol (b := comma) (by decide) (by decide)
  intro s e hs herror
  show e.fault.kind = .mismatch
  replace herror : readElements element s = .error e := herror
  fun_induction readElements element s with
  | case1 s _ e' he =>
      cases herror
      exact hcomma hs he
  | case2 s _ _ u hu _ e' he =>
      cases herror
      obtain ⟨tokens, htokens⟩ := htakesComma hu
      exact h (htokens.lexed hs) he
  | case3 s _ _ u hu _ a v hv _ e' he ih =>
      cases herror
      obtain ⟨tokens, htokens⟩ := htakesComma hu
      obtain ⟨later, hlater⟩ := htakes hv
      exact ih (hlater.lexed (htokens.lexed hs)) he
  | case4 => cases herror
  | case5 => cases herror

/-- The items of a recognized element take tokens, whatever brackets surround them. -/
theorem takesTokens_listItems (h : element.Recognizes G) : (listItems element).TakesTokens := by
  intro s t as hrun
  by_cases hs : s.head? = some closeBracket
  · rw [run_listItems_of_close hs] at hrun
    cases hrun
    exact ⟨[], .nil⟩
  · obtain ⟨a, later, u, rfl, ha, hread⟩ := (run_listItems_eq_ok hs).mp hrun
    obtain ⟨first, -, hfirst⟩ := h.mp ha
    obtain ⟨-, rest, -, hrest⟩ := (readElements_iff h).mp hread
    exact ⟨first ++ rest, tokens_append.mpr ⟨u, hfirst, hrest⟩⟩

/-- A list fails over a token that fits neither its brackets nor its elements. -/
theorem mismatches_list (h : element.Recognizes G) (h' : element.Mismatches) :
    (list element).Mismatches := by
  have hopen : isSymbol openBracket := by decide
  have hclose : isSymbol closeBracket := by decide
  have hitems : (listItems element).Mismatches := by
    intro s e hs herror
    by_cases hs' : s.head? = some closeBracket
    · rw [run_listItems_of_close hs'] at herror
      cases herror
    · rw [listItems, run_bind_of_ok (run_ahead s), if_neg hs'] at herror
      have hsequence := h'.bind h.takesTokens fun _ _ a _ =>
        Mismatches.map (a :: ·) (mismatches_elements h' h.takesTokens)
      exact hsequence hs herror
  refine Mismatches.bind (mismatches_symbol (by decide) hopen) (takesTokens_symbol (by decide) hopen) ?_
  intro _ _ _ _
  refine hitems.bind (takesTokens_listItems h) ?_
  intro _ _ _ _
  exact Mismatches.map _ (mismatches_symbol (by decide) hclose)

end Lists

end Reader

end TerminalConfig
