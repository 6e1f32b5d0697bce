import TerminalConfig.Lexical.Literal

/-! # Tokens — identifiers, literals, numbers and punctuation

    Every token is read together with the gap behind it, so a reader always
    begins at a token.  The first byte alone decides what kind of token
    stands at a place, and `scan` reads tokens until the end or until one
    is malformed. -/

namespace TerminalConfig

/-- One significant piece of a source. -/
inductive Token
  | identifier (name : String)
  | string (text : Text)
  | char (c : CodePoint)
  | number (n : Nat)
  | symbol (byte : UInt8)
deriving DecidableEq

/-- A punctuation byte. -/
def isSymbol (b : UInt8) : Bool :=
  b == openBracket || b == closeBracket || b == comma

namespace Reader

/-- The bytes of an identifier. -/
def identifierBytes : Reader Bytes := do
  if (← ahead).any startsIdentifier then takeWhile continuesIdentifier
  else fail .expectedIdentifier

/-- An identifier and the gap behind it. -/
def identifier : Reader String :=
  latinString <$> lexeme identifierBytes

/-- A fixed text, one byte for each of its characters. -/
def exactly (text : String) : Reader String := do
  match dropText? text.toList (← remaining) with
  | some _ =>
      skip (List.drop text.toList.length) (List.drop_suffix text.toList.length)
      return text
  | none => fail (.expectedSymbol text)

/-- A fixed text and the gap behind it. -/
def symbol (text : String) : Reader String :=
  lexeme (exactly text)

/-- Goes past the next newline, or to the end if there is none. -/
def skipLine : Reader Unit :=
  skip afterLine suffix_afterLine

/-- The token that starts with the byte `b`. -/
def token (b : UInt8) : Reader Token :=
  if b == doubleQuote then .string <$> stringLiteral
  else if b == apostrophe then .char <$> charLiteral
  else if isDigit b then .number <$> natural
  else if startsIdentifier b then .identifier <$> identifier
  else if isSymbol b then (fun _ => .symbol b) <$> symbol (latinString [b])
  else fail (.unexpectedByte b)

/-- What an identifier starts with, it also goes on with. -/
theorem continuesIdentifier_of_starts {b : UInt8} (h : startsIdentifier b) :
    continuesIdentifier b := by
  simp only [startsIdentifier, Bool.or_eq_true] at h
  simp only [continuesIdentifier, Bool.or_eq_true]
  rcases h with h | h
  · exact Or.inl (Or.inl (Or.inl (Or.inl h)))
  · exact Or.inl (Or.inr h)

/-- An identifier takes at least its first letter. -/
theorem progresses_identifier : identifier.Progresses := by
  refine Progresses.map _ (Progresses.lexeme ?_)
  intro s t a h
  cases s with
  | nil => cases h
  | cons b r =>
      obtain ⟨next, u, hu, h⟩ := run_bind_eq_ok.mp h
      cases hu
      split at h
      · next hb =>
        cases h
        rw [List.dropWhile_cons_of_pos (continuesIdentifier_of_starts hb)]
        exact Nat.lt_succ_of_le (List.dropWhile_suffix _).length_le
      · cases h

/-- A fixed text that is not empty takes at least a byte. -/
theorem progresses_symbol {text : String} (h : text.toList ≠ []) :
    (symbol text).Progresses := by
  refine Progresses.lexeme ?_
  intro s t a hrun
  obtain ⟨s', u, hu, hrun⟩ := run_bind_eq_ok.mp hrun
  cases hu
  split at hrun
  · next v hv =>
    cases hrun
    have := length_dropText? hv
    have := List.length_pos_iff.mpr h
    show (List.drop _ s).length < s.length
    rw [List.length_drop]
    omega
  · cases hrun

/-- A token takes at least a byte. -/
theorem progresses_token (b : UInt8) : (token b).Progresses := by
  unfold token
  split
  · exact progresses_stringLiteral.map _
  · split
    · exact progresses_charLiteral.map _
    · split
      · exact progresses_natural.map _
      · split
        · exact progresses_identifier.map _
        · split
          · exact Progresses.map _ (progresses_symbol (by simp [latinString]))
          · exact Progresses.fail _

end Reader

/-- What reading all tokens gives: each token with what remained where it
    began, and the failure that ended the reading, if one did. -/
structure Scan where
  tokens : List (Bytes × Token)
  failure : Option Failure
deriving DecidableEq

namespace Scan

/-- Where reading the tokens stopped. -/
def stop (scan : Scan) : Bytes :=
  match scan.failure with
  | some e => e.stop
  | none => []

/-- The tokens from a place where one begins or where the source ends. -/
def ofTokenStart (s : Bytes) : Scan :=
  match s with
  | [] => ⟨[], none⟩
  | b :: r =>
      match h : (Reader.token b).run (b :: r) with
      | .ok (token, t) =>
          have := Reader.progresses_token b h
          let later := ofTokenStart t
          ⟨(b :: r, token) :: later.tokens, later.failure⟩
      | .error e => ⟨[], some e⟩
termination_by s.length
decreasing_by exact this

/-- The tokens of a source. -/
def ofSource (s : Bytes) : Scan :=
  match skipGap s with
  | .ok t => ofTokenStart t
  | .error e => ⟨[], some e⟩

/-- The failure of a scan lies in what was scanned. -/
theorem failure_ofTokenStart {s : Bytes} {e : Failure} (h : (ofTokenStart s).failure = some e) :
    e.stop <:+ e.site ∧ e.site <:+ s := by
  fun_induction ofTokenStart s with
  | case1 => cases h
  | case2 b r _ t ht _ _ ih =>
      exact ⟨(ih h).1, (ih h).2.trans ((Reader.token b).rest_suffix ht)⟩
  | case3 b r e' he =>
      cases h
      exact (Reader.token b).failure_suffix he

end Scan

namespace Reader

/-- Reads all tokens from a place where one begins or where the source ends. -/
def tokensHere : Reader (List Token) where
  run s :=
    match (Scan.ofTokenStart s).failure with
    | none => .ok ((Scan.ofTokenStart s).tokens.map (·.2), [])
    | some e => .error e
  rest_suffix {s t a} h := by
    split at h
    · cases h
      exact List.nil_suffix
    · cases h
  failure_suffix {s e} h := by
    split at h
    · cases h
    · next hf =>
      cases h
      exact Scan.failure_ofTokenStart hf

/-- Reads all tokens up to the end. -/
def tokens : Reader (List Token) := do
  gap
  tokensHere

end Reader

end TerminalConfig
