import TerminalConfig.Proofs.ByteClasses
import TerminalConfig.Proofs.Lookahead

/-! # Token streams — the tokens that stand at a place

    `TokenAt s token t` says that a token stands at the place `s`, and that its
    gap goes up to the place `t`; `Tokens s tokens t` says the same of a
    sequence.  Places stay the bytes that remain, so a sequence composes
    without asking what stands on either side of the seam.

    * the first byte decides what kind of token it is, so each kind stands at a
      place exactly when its own reader succeeds there (`tokenAt_string` to
      `tokenAt_symbol`);
    * a sequence can be cut anywhere (`tokens_append`), and between two places
      there is one at most (`Tokens.unique`);
    * reading all tokens is finding the sequence up to the end
      (`Scan.ofSource_iff`). -/

namespace TerminalConfig

/-- A token stands at a place, and its gap goes up to the next place. -/
def TokenAt (s : Bytes) (token : Token) (t : Bytes) : Prop :=
  ∃ b r, s = b :: r ∧ (Reader.token b).run s = .ok (token, t)

/-- Tokens stand one after another, from a place up to another. -/
inductive Tokens : Bytes → List Token → Bytes → Prop
  | nil {s : Bytes} : Tokens s [] s
  | cons {s t u : Bytes} {token : Token} {tokens : List Token} :
      TokenAt s token t → Tokens t tokens u → Tokens s (token :: tokens) u

/-! ## The kinds of tokens -/

namespace Reader

variable {α β : Type}

theorem run_map_eq_ok {f : α → β} {r : Reader α} {s t : Bytes} {b : β} :
    (f <$> r).run s = .ok (b, t) ↔ ∃ a, r.run s = .ok (a, t) ∧ f a = b := by
  rw [run_map]
  cases r.run s with
  | ok v =>
      obtain ⟨a, u⟩ := v
      simp only [Except.ok.injEq, Prod.mk.injEq]
      constructor
      · rintro ⟨h, rfl⟩
        exact ⟨a, ⟨rfl, rfl⟩, h⟩
      · rintro ⟨a', ⟨rfl, rfl⟩, h⟩
        exact ⟨h, rfl⟩
  | error e => simp

/-- A character literal starts with its quote. -/
theorem head?_of_charLiteral {s t : Bytes} {c : CodePoint} (h : charLiteral.run s = .ok (c, t)) :
    s.head? = some apostrophe := by
  rw [charLiteral, run_bind_of_ok (run_ahead s)] at h
  split at h
  · next hs => exact hs
  · cases h

/-- A number starts with a digit. -/
theorem head?_of_natural {s t : Bytes} {n : Nat} (h : natural.run s = .ok (n, t)) :
    s.head?.any isDigit := by
  rw [natural, run_bind_of_ok (run_ahead s)] at h
  split at h
  · next hs => exact hs
  · cases h

/-- The bytes of an identifier are as many as go on with it. -/
theorem run_identifierBytes_eq_ok {s t v : Bytes} :
    identifierBytes.run s = .ok (v, t) ↔
      s.head?.any startsIdentifier ∧
        v = s.takeWhile continuesIdentifier ∧ t = s.dropWhile continuesIdentifier := by
  rw [identifierBytes, run_bind_of_ok (run_ahead s)]
  split
  · next hs => simp [hs, eq_comm]
  · next hs => simp [hs]

/-- An identifier and the gap behind it. -/
theorem run_identifier_eq_ok {s t : Bytes} {name : String} :
    identifier.run s = .ok (name, t) ↔
      s.head?.any startsIdentifier ∧
        name = latinString (s.takeWhile continuesIdentifier) ∧
        skipGap (s.dropWhile continuesIdentifier) = .ok t := by
  rw [identifier, run_map_eq_ok]
  constructor
  · rintro ⟨v, hlex, hname⟩
    obtain ⟨g, hv, hg⟩ := run_lexeme_eq_ok.mp hlex
    obtain ⟨hs, rfl, rfl⟩ := run_identifierBytes_eq_ok.mp hv
    exact ⟨hs, hname.symm, hg⟩
  · rintro ⟨hs, rfl, hg⟩
    exact ⟨_, run_lexeme_eq_ok.mpr ⟨_, run_identifierBytes_eq_ok.mpr ⟨hs, rfl, rfl⟩, hg⟩, rfl⟩

/-- A symbol is a token by itself. -/
theorem token_of_isSymbol {b : UInt8} (hb : isSymbol b) :
    token b = (fun _ => Token.symbol b) <$> symbol (latinString [b]) := by
  simp only [isSymbol, Bool.or_eq_true, beq_iff_eq] at hb
  rcases hb with (rfl | rfl) | rfl <;> rfl

/-- A digit starts a number. -/
theorem token_of_isDigit {b : UInt8} (hb : isDigit b) : token b = Token.number <$> natural := by
  have hquote := not_beq_of_class (c := doubleQuote) hb (by decide)
  have hapostrophe := not_beq_of_class (c := apostrophe) hb (by decide)
  rw [token, if_neg hquote, if_neg hapostrophe, if_pos hb]

/-- The start of an identifier starts one. -/
theorem token_of_startsIdentifier {b : UInt8} (hb : startsIdentifier b) :
    token b = Token.identifier <$> identifier := by
  have hquote := not_beq_of_class (c := doubleQuote) hb (by decide)
  have hapostrophe := not_beq_of_class (c := apostrophe) hb (by decide)
  rw [token, if_neg hquote, if_neg hapostrophe, if_neg (not_isDigit_of_startsIdentifier hb),
    if_pos hb]

end Reader

open Reader in
/-- Each kind of token is read by its own reader. -/
theorem TokenAt.cases {s t : Bytes} {token : Token} (h : TokenAt s token t) :
    (∃ text, token = .string text ∧ stringLiteral.run s = .ok (text, t)) ∨
    (∃ c, token = .char c ∧ charLiteral.run s = .ok (c, t)) ∨
    (∃ n, token = .number n ∧ natural.run s = .ok (n, t)) ∨
    (∃ name, token = .identifier name ∧ identifier.run s = .ok (name, t)) ∨
    (∃ b g, token = .symbol b ∧ isSymbol b ∧ s = b :: g ∧ skipGap g = .ok t) := by
  obtain ⟨b, r, rfl, h⟩ := h
  unfold Reader.token at h
  split at h
  · obtain ⟨text, hrun, rfl⟩ := run_map_eq_ok.mp h
    exact Or.inl ⟨text, rfl, hrun⟩
  refine Or.inr ?_
  split at h
  · obtain ⟨c, hrun, rfl⟩ := run_map_eq_ok.mp h
    exact Or.inl ⟨c, rfl, hrun⟩
  refine Or.inr ?_
  split at h
  · obtain ⟨n, hrun, rfl⟩ := run_map_eq_ok.mp h
    exact Or.inl ⟨n, rfl, hrun⟩
  refine Or.inr ?_
  split at h
  · obtain ⟨name, hrun, rfl⟩ := run_map_eq_ok.mp h
    exact Or.inl ⟨name, rfl, hrun⟩
  refine Or.inr ?_
  split at h
  · next hb =>
    obtain ⟨v, hrun, rfl⟩ := run_map_eq_ok.mp h
    obtain ⟨-, g, hg, hgap⟩ := run_symbol_eq_ok.mp hrun
    exact ⟨b, g, rfl, hb, hg, hgap⟩
  · cases h

/-- A string stands where one can be read. -/
theorem tokenAt_string {s t : Bytes} {text : Text} :
    TokenAt s (.string text) t ↔ Reader.stringLiteral.run s = .ok (text, t) := by
  constructor
  · intro h
    obtain ⟨_, he, h⟩ | ⟨_, he, _⟩ | ⟨_, he, _⟩ | ⟨_, he, _⟩ | ⟨_, _, he, _⟩ := h.cases
    all_goals cases he
    exact h
  · intro h
    obtain ⟨hs, -⟩ := Reader.run_stringLiteral_eq_ok.mp h
    obtain ⟨r, rfl⟩ := List.head?_eq_some_iff.mp hs
    exact ⟨doubleQuote, r, rfl, Reader.run_map_eq_ok.mpr ⟨text, h, rfl⟩⟩

/-- A character stands where one can be read. -/
theorem tokenAt_char {s t : Bytes} {c : CodePoint} :
    TokenAt s (.char c) t ↔ Reader.charLiteral.run s = .ok (c, t) := by
  constructor
  · intro h
    obtain ⟨_, he, _⟩ | ⟨_, he, h⟩ | ⟨_, he, _⟩ | ⟨_, he, _⟩ | ⟨_, _, he, _⟩ := h.cases
    all_goals cases he
    exact h
  · intro h
    obtain ⟨r, rfl⟩ := List.head?_eq_some_iff.mp (Reader.head?_of_charLiteral h)
    exact ⟨apostrophe, r, rfl, Reader.run_map_eq_ok.mpr ⟨c, h, rfl⟩⟩

/-- A number stands where one can be read. -/
theorem tokenAt_number {s t : Bytes} {n : Nat} :
    TokenAt s (.number n) t ↔ Reader.natural.run s = .ok (n, t) := by
  constructor
  · intro h
    obtain ⟨_, he, _⟩ | ⟨_, he, _⟩ | ⟨_, he, h⟩ | ⟨_, he, _⟩ | ⟨_, _, he, _⟩ := h.cases
    all_goals cases he
    exact h
  · intro h
    obtain ⟨b, r, rfl, hb⟩ := exists_cons_of_head? (Reader.head?_of_natural h)
    refine ⟨b, r, rfl, ?_⟩
    rw [Reader.token_of_isDigit hb]
    exact Reader.run_map_eq_ok.mpr ⟨n, h, rfl⟩

/-- An identifier stands where one can be read. -/
theorem tokenAt_identifier {s t : Bytes} {name : String} :
    TokenAt s (.identifier name) t ↔ Reader.identifier.run s = .ok (name, t) := by
  constructor
  · intro h
    obtain ⟨_, he, _⟩ | ⟨_, he, _⟩ | ⟨_, he, _⟩ | ⟨_, he, h⟩ | ⟨_, _, he, _⟩ := h.cases
    all_goals cases he
    exact h
  · intro h
    obtain ⟨b, r, rfl, hb⟩ := exists_cons_of_head? (Reader.run_identifier_eq_ok.mp h).1
    refine ⟨b, r, rfl, ?_⟩
    rw [Reader.token_of_startsIdentifier hb]
    exact Reader.run_map_eq_ok.mpr ⟨name, h, rfl⟩

/-- A symbol stands where its byte does, if the gap behind it closes. -/
theorem tokenAt_symbol {s t : Bytes} {b : UInt8} :
    TokenAt s (.symbol b) t ↔ isSymbol b ∧ ∃ g, s = b :: g ∧ skipGap g = .ok t := by
  constructor
  · intro h
    obtain ⟨_, he, _⟩ | ⟨_, he, _⟩ | ⟨_, he, _⟩ | ⟨_, he, _⟩ | ⟨_, g, he, hb, h⟩ := h.cases
    all_goals cases he
    exact ⟨hb, g, h⟩
  · rintro ⟨hb, g, rfl, hg⟩
    refine ⟨b, g, rfl, ?_⟩
    rw [Reader.token_of_isSymbol hb]
    exact Reader.run_map_eq_ok.mpr ⟨_, Reader.run_symbol_eq_ok.mpr ⟨rfl, g, rfl, hg⟩, rfl⟩

/-! ## Sequences of tokens -/

/-- At a place stands one token at most, and it ends at one place. -/
theorem TokenAt.unique {s t t' : Bytes} {token token' : Token} (h : TokenAt s token t)
    (h' : TokenAt s token' t') : token = token' ∧ t = t' := by
  obtain ⟨b, r, rfl, hrun⟩ := h
  obtain ⟨b', r', hs, hrun'⟩ := h'
  obtain ⟨rfl, rfl⟩ := List.cons.inj hs
  rw [hrun] at hrun'
  cases hrun'
  exact ⟨rfl, rfl⟩

/-- A token takes at least a byte. -/
theorem TokenAt.length_lt {s t : Bytes} {token : Token} (h : TokenAt s token t) :
    t.length < s.length := by
  obtain ⟨b, r, -, hrun⟩ := h
  exact Reader.progresses_token b hrun

/-- One token is a sequence. -/
theorem tokens_singleton {s t : Bytes} {token : Token} :
    Tokens s [token] t ↔ TokenAt s token t := by
  constructor
  · intro h
    cases h with
    | cons htoken hrest =>
        cases hrest
        exact htoken
  · intro h
    exact .cons h .nil

/-- A sequence can be cut anywhere. -/
theorem tokens_append {s u : Bytes} {before behind : List Token} :
    Tokens s (before ++ behind) u ↔ ∃ t, Tokens s before t ∧ Tokens t behind u := by
  induction before generalizing s with
  | nil =>
      constructor
      · intro h
        exact ⟨s, .nil, h⟩
      · rintro ⟨t, hnil, h⟩
        cases hnil
        exact h
  | cons token before ih =>
      constructor
      · intro h
        cases h with
        | cons htoken hrest =>
            obtain ⟨t, hbefore, hbehind⟩ := ih.mp hrest
            exact ⟨t, .cons htoken hbefore, hbehind⟩
      · rintro ⟨t, h, hbehind⟩
        cases h with
        | cons htoken hbefore => exact .cons htoken (ih.mpr ⟨t, hbefore, hbehind⟩)

theorem tokens_cons {s u : Bytes} {token : Token} {tokens : List Token} :
    Tokens s (token :: tokens) u ↔ ∃ t, TokenAt s token t ∧ Tokens t tokens u := by
  constructor
  · intro h
    cases h with
    | cons htoken hrest => exact ⟨_, htoken, hrest⟩
  · rintro ⟨t, htoken, hrest⟩
    exact .cons htoken hrest

namespace Tokens

/-- A sequence leaves no more than it is given. -/
theorem length_le {s t : Bytes} {tokens : List Token} (h : Tokens s tokens t) :
    t.length ≤ s.length := by
  induction h with
  | nil => exact Nat.le_refl _
  | cons htoken _ ih => exact Nat.le_trans ih (Nat.le_of_lt htoken.length_lt)

/-- Where nothing is passed, no tokens stand. -/
theorem eq_nil {s : Bytes} {tokens : List Token} (h : Tokens s tokens s) : tokens = [] := by
  cases h with
  | nil => rfl
  | cons htoken hrest =>
      exact absurd htoken.length_lt (Nat.not_lt_of_le hrest.length_le)

/-- Between two places there is one sequence at most. -/
theorem unique {s t : Bytes} {first second : List Token} (h : Tokens s first t)
    (h' : Tokens s second t) : first = second := by
  induction h generalizing second with
  | nil => exact h'.eq_nil.symm
  | cons htoken hrest ih =>
      cases h' with
      | nil =>
          -- tokens take bytes, so none of them lead back to where they start
          exact absurd htoken.length_lt (Nat.not_lt_of_le hrest.length_le)
      | cons htoken' hrest' =>
          obtain ⟨rfl, rfl⟩ := htoken.unique htoken'
          rw [ih hrest']

end Tokens

/-! ## Reading all tokens -/

namespace Scan

/-- The tokens that were read, without their places. -/
def values (scan : Scan) : List Token :=
  scan.tokens.map (·.2)

/-- The tokens that were read of a buffer, with the offsets where they begin. -/
def placed (buffer : Bytes) (scan : Scan) : List (Nat × Token) :=
  scan.tokens.map fun found => (buffer.length - found.1.length, found.2)

theorem ofTokenStart_of_token {s t : Bytes} {token : Token} (h : TokenAt s token t) :
    ofTokenStart s = ⟨(s, token) :: (ofTokenStart t).tokens, (ofTokenStart t).failure⟩ := by
  obtain ⟨b, r, rfl, hrun⟩ := h
  rw [ofTokenStart]
  split
  · next hrun' =>
    rw [hrun] at hrun'
    cases hrun'
    rfl
  · next hrun' =>
    rw [hrun] at hrun'
    cases hrun'

/-- From a token on, all can be read exactly when a sequence of tokens leads to
    the end. -/
theorem tokens_iff {s : Bytes} {tokens : List Token} :
    Tokens s tokens [] ↔ (ofTokenStart s).failure = none ∧ (ofTokenStart s).values = tokens := by
  constructor
  · intro h
    -- the induction is over places, and only the last one is the end
    generalize ht : ([] : Bytes) = t at h
    induction h with
    | nil =>
        subst ht
        rw [ofTokenStart]
        exact ⟨rfl, rfl⟩
    | cons htoken _ ih =>
        obtain ⟨hfailure, hvalues⟩ := ih ht
        rw [ofTokenStart_of_token htoken]
        exact ⟨hfailure, congrArg (_ :: ·) hvalues⟩
  · rintro ⟨hfailure, rfl⟩
    fun_induction ofTokenStart s with
    | case1 => exact .nil
    | case2 b r token t hrun _ later ih => exact .cons ⟨b, r, rfl, hrun⟩ (ih hfailure)
    | case3 => cases hfailure

/-- A source can be read to its end exactly when its first gap closes and a
    sequence of tokens leads to the end. -/
theorem ofSource_iff {s : Bytes} {tokens : List Token} :
    (ofSource s).failure = none ∧ (ofSource s).values = tokens ↔
      ∃ t, skipGap s = .ok t ∧ Tokens t tokens [] := by
  rw [ofSource]
  cases hs : skipGap s with
  | ok t =>
      constructor
      · intro h
        exact ⟨t, rfl, tokens_iff.mpr h⟩
      · rintro ⟨u, hu, h⟩
        cases hu
        exact tokens_iff.mp h
  | error e =>
      constructor
      · rintro ⟨h, -⟩
        cases h
      · rintro ⟨u, hu, -⟩
        cases hu

end Scan

end TerminalConfig
