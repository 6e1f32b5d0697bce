import TerminalConfig.Lexical.Escape

/-! # Literals — characters and strings between quotes

    A character literal holds one character or escape between single quotes.
    A string literal is a run of items between double quotes: characters,
    escapes, and two items that stand for nothing: the empty escape `\&`,
    and a gap of blanks between two backslashes.  Control characters up to
    code 26 have to be escaped in both. -/

namespace TerminalConfig

/-- The highest byte that a literal does not hold as it is. -/
def maxLiteralControl : UInt8 := 26

namespace Reader

/-- What stands behind the opening quote of a character literal. -/
def charBody : Reader (Except Fault CodePoint) := do
  match ← ahead with
  | none => return .error .invalidChar
  | some b =>
      if b == backslash then
        return .ok (← escape)
      else if b != apostrophe && maxLiteralControl < b then
        skipByte
        return .ok (.ofByte b)
      else
        return .error .invalidChar

/-- A character literal, from its opening quote on. -/
def quotedChar : Reader CodePoint :=
  fromStart do
    skipByte
    match ← charBody with
    | .error fault => return .error fault
    | .ok c =>
        if (← ahead) = some apostrophe then
          skipByte
          return .ok c
        else
          return .error .openChar

/-- A character literal and the gap behind it. -/
def charLiteral : Reader CodePoint := do
  if (← ahead) = some apostrophe then lexeme quotedChar else fail .expectedChar

/-- One item of a string literal, and the code point that it adds. -/
def stringItem : Reader (Option CodePoint) := do
  match ← remaining with
  | [] => return none
  | a :: s =>
      if a != backslash then
        if a ≤ maxLiteralControl then
          fail .controlInString
        else
          skipByte
          return some (.ofByte a)
      else if s.head? = some ampersand then
        skipByte
        skipByte
        return none
      else if s.head?.any isBlank then
        skipByte
        let _ ← takeWhile isBlank
        if (← ahead) = some backslash then
          skipByte
          return none
        else
          fail .openGap
      else
        return some (← escape)

/-- An item takes at least one byte. -/
theorem length_stringItem {a : UInt8} {s t : Bytes} {c : Option CodePoint}
    (h : stringItem.run (a :: s) = .ok (c, t)) : t.length ≤ s.length := by
  obtain ⟨u, s', hs, h⟩ := run_bind_eq_ok.mp h
  cases hs
  simp only at h
  split at h
  · split at h
    · cases h
    · exact length_skipByte_bind h
  · split at h
    · exact length_skipByte_bind h
    · split at h
      · exact length_skipByte_bind h
      · obtain ⟨c', u, he, h⟩ := run_bind_eq_ok.mp h
        cases h
        exact length_escape he

end Reader

/-- The items up to the closing quote, and what follows the quote. -/
def readItems (s : Bytes) : Except Failure (Except Fault Text × Bytes) :=
  match s with
  | [] => .ok (.error .openString, [])
  | a :: r =>
      if a == doubleQuote then .ok (.ok [], r)
      else
        match h : Reader.stringItem.run (a :: r) with
        | .error e => .error e
        | .ok (item, t) =>
            have := Reader.length_stringItem h
            match readItems t with
            | .ok (.ok text, u) => .ok (.ok (item.toList ++ text), u)
            | other => other
termination_by s.length
decreasing_by exact Nat.lt_succ_of_le this

/-- What the items of a string leave is a suffix. -/
theorem suffix_readItems {s t : Bytes} {v : Except Fault Text} (h : readItems s = .ok (v, t)) :
    t <:+ s := by
  fun_induction readItems s generalizing v t with
  | case1 =>
      cases h
      exact List.suffix_refl _
  | case2 a r _ =>
      cases h
      exact List.suffix_cons a _
  | case3 => cases h
  | case4 a r _ item u hu _ text w hw ih =>
      cases h
      exact (ih hw).trans (Reader.stringItem.rest_suffix hu)
  | case5 a r _ item u hu _ _ ih => exact (ih h).trans (Reader.stringItem.rest_suffix hu)

/-- A fault among the items of a string lies at or after their start. -/
theorem failure_readItems {s : Bytes} {e : Failure} (h : readItems s = .error e) :
    e.stop <:+ e.site ∧ e.site <:+ s := by
  fun_induction readItems s with
  | case1 => cases h
  | case2 => cases h
  | case3 a r _ e' he =>
      cases h
      exact Reader.stringItem.failure_suffix he
  | case4 => cases h
  | case5 a r _ item u hu _ _ ih =>
      exact ⟨(ih h).1, (ih h).2.trans (Reader.stringItem.rest_suffix hu)⟩

namespace Reader

/-- The items of a string literal and its closing quote. -/
def stringItems : Reader (Except Fault Text) where
  run := readItems
  rest_suffix := suffix_readItems
  failure_suffix := failure_readItems

/-- A string literal, from its opening quote on. -/
def quotedString : Reader Text :=
  fromStart do
    skipByte
    stringItems

/-- A string literal and the gap behind it. -/
def stringLiteral : Reader Text := do
  if (← ahead) = some doubleQuote then lexeme quotedString else fail .expectedString

/-- A character literal takes at least its quotes. -/
theorem progresses_charLiteral : charLiteral.Progresses := by
  intro s t c h
  obtain ⟨next, s', hs, h⟩ := run_bind_eq_ok.mp h
  cases hs
  cases s with
  | nil => cases h
  | cons a r =>
      split at h
      · obtain ⟨d, u, hu, h⟩ := run_bind_eq_ok.mp h
        have hr : u.length ≤ r.length := length_skipByte_bind (run_fromStart_eq_ok.mp hu)
        exact Nat.lt_succ_of_le (Nat.le_trans (length_rest _ h) hr)
      · cases h

/-- A string literal takes at least its quotes. -/
theorem progresses_stringLiteral : stringLiteral.Progresses := by
  intro s t c h
  obtain ⟨next, s', hs, h⟩ := run_bind_eq_ok.mp h
  cases hs
  cases s with
  | nil => cases h
  | cons a r =>
      split at h
      · obtain ⟨d, u, hu, h⟩ := run_bind_eq_ok.mp h
        have hr : u.length ≤ r.length := length_skipByte_bind (run_fromStart_eq_ok.mp hu)
        exact Nat.lt_succ_of_le (Nat.le_trans (length_rest _ h) hr)
      · cases h

end Reader

end TerminalConfig
