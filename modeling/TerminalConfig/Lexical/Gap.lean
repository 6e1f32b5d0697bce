import TerminalConfig.Lexical.Reader

/-! # Gaps — what may stand between tokens

    A gap is any run of blanks, line comments and block comments.  A line
    comment goes from `--` up to the end of its line; a block comment goes
    from its opening marker to the closing marker that matches it, and block
    comments nest.  Markers are found from left to right and do not overlap.

    A gap ends at the first byte that is none of these.  It fails at a block
    comment that nothing closes, and reading stops at that comment: what
    stood before it has been passed. -/

namespace TerminalConfig

/-- A line comment starts here. -/
def startsLineComment : Bytes → Bool
  | a :: b :: _ => a == dash && b == dash
  | _ => false

/-- A block comment starts here. -/
def startsBlockComment : Bytes → Bool
  | a :: b :: _ => a == openBrace && b == dash
  | _ => false

/-- What follows the block comments that are open: `depth` of them around the
    innermost one. -/
def afterComment? : (depth : Nat) → Bytes → Option Bytes
  | _, [] => none
  | _, [_] => none
  | depth, a :: b :: r =>
      if a == openBrace && b == dash then afterComment? (depth + 1) r
      else if a == dash && b == closeBrace then
        match depth with
        | 0 => some r
        | outer + 1 => afterComment? outer r
      else afterComment? depth (b :: r)

/-- What follows a comment is a suffix of what stands in it. -/
theorem suffix_afterComment? {depth : Nat} {s t : Bytes} (h : afterComment? depth s = some t) :
    t <:+ s := by
  fun_induction afterComment? depth s with
  | case1 => cases h
  | case2 => cases h
  | case3 depth a b r _ ih =>
      exact (ih h).trans ((List.suffix_cons b r).trans (List.suffix_cons a _))
  | case4 a b r _ _ =>
      rw [← Option.some.inj h]
      exact (List.suffix_cons b r).trans (List.suffix_cons a _)
  | case5 a b r _ _ outer ih =>
      exact (ih h).trans ((List.suffix_cons b r).trans (List.suffix_cons a _))
  | case6 depth a b r _ _ ih => exact (ih h).trans (List.suffix_cons a _)

/-- What follows the longest gap. -/
def skipGap (s : Bytes) : Except Failure Bytes :=
  match s with
  | [] => .ok []
  | a :: r =>
      if isBlank a then skipGap r
      else if startsLineComment (a :: r) then skipGap (r.dropWhile (· != newline))
      else if startsBlockComment (a :: r) then
        match h : afterComment? 0 r.tail with
        | some t =>
            have := (suffix_afterComment? h).length_le
            skipGap t
        | none => .error ⟨.openComment, a :: r, a :: r⟩
      else .ok (a :: r)
termination_by s.length
decreasing_by
  · exact Nat.lt_succ_self _
  · exact Nat.lt_succ_of_le (List.dropWhile_suffix _).length_le
  · exact Nat.lt_succ_of_le (Nat.le_trans this (List.tail_suffix r).length_le)

/-- What follows a gap is a suffix. -/
theorem suffix_skipGap {s t : Bytes} (h : skipGap s = .ok t) : t <:+ s := by
  fun_induction skipGap s with
  | case1 =>
      cases h
      exact List.suffix_refl _
  | case2 a r _ ih => exact (ih h).trans (List.suffix_cons a r)
  | case3 a r _ _ ih =>
      exact ((ih h).trans (List.dropWhile_suffix _)).trans (List.suffix_cons a r)
  | case4 a r _ _ _ u hu _ ih =>
      exact (ih h).trans ((suffix_afterComment? hu).trans
        ((List.tail_suffix r).trans (List.suffix_cons a r)))
  | case5 => cases h
  | case6 =>
      cases h
      exact List.suffix_refl _

/-- A gap fails at a block comment, and stops there. -/
theorem skipGap_eq_error {s : Bytes} {e : Failure} (h : skipGap s = .error e) :
    e.fault = .openComment ∧ e.stop = e.site ∧ e.site <:+ s ∧ startsBlockComment e.site := by
  fun_induction skipGap s with
  | case1 => cases h
  | case2 a r _ ih =>
      have := ih h
      exact ⟨this.1, this.2.1, this.2.2.1.trans (List.suffix_cons a r), this.2.2.2⟩
  | case3 a r _ _ ih =>
      have := ih h
      exact ⟨this.1, this.2.1,
        (this.2.2.1.trans (List.dropWhile_suffix _)).trans (List.suffix_cons a r), this.2.2.2⟩
  | case4 a r _ _ _ u hu _ ih =>
      have := ih h
      exact ⟨this.1, this.2.1, this.2.2.1.trans ((suffix_afterComment? hu).trans
        ((List.tail_suffix r).trans (List.suffix_cons a r))), this.2.2.2⟩
  | case5 a r _ _ hb _ =>
      cases h
      exact ⟨rfl, rfl, List.suffix_refl _, hb⟩
  | case6 => cases h

namespace Reader

/-- Goes past a gap. -/
def gap : Reader Unit where
  run s := (skipGap s).map fun t => ((), t)
  rest_suffix {s t a} h := by
    cases hs : skipGap s with
    | ok u =>
        rw [hs] at h
        cases h
        exact suffix_skipGap hs
    | error e =>
        rw [hs] at h
        cases h
  failure_suffix {s e} h := by
    cases hs : skipGap s with
    | ok u =>
        rw [hs] at h
        cases h
    | error e' =>
        rw [hs] at h
        cases h
        have := skipGap_eq_error hs
        exact ⟨this.2.1 ▸ List.suffix_refl _, this.2.2.1⟩

@[simp] theorem run_gap (s : Bytes) :
    gap.run s = (skipGap s).map fun t => ((), t) := rfl

/-- Reads a token and the gap behind it. -/
def lexeme {α : Type} (r : Reader α) : Reader α := do
  let a ← r
  gap
  return a

/-- A token that takes at least a byte does so with its gap. -/
theorem Progresses.lexeme {α : Type} {r : Reader α} (h : r.Progresses) :
    (Reader.lexeme r).Progresses :=
  h.bind

end Reader

end TerminalConfig
