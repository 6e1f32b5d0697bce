import TerminalConfig.Lexical.Gap

/-! # Block comments — the counter and the grammar

    The reader of gaps counts how many block comments are open.  Here comments are
    written down without a counter: a block comment holds comments and single bytes
    between its markers (`CommentRest`).

    The two agree.  The counter stops where the comments that are open have been
    derived, one after the other from the inside out (`afterComment?_iff`), so what
    it passes from an opening marker on is a block comment (`blockComment_iff`). -/

namespace TerminalConfig

/-! ## The grammar -/

/-- The marker that closes a block comment starts here. -/
def startsCommentEnd : Bytes → Bool
  | a :: b :: _ => a == dash && b == closeBrace
  | _ => false

/-- What stands behind the opening marker of a block comment: whole comments, and
    bytes at which neither marker starts, up to the closing marker. -/
inductive CommentRest : Bytes → Prop
  | close : CommentRest [dash, closeBrace]
  | comment {inner r : Bytes} : CommentRest inner → CommentRest r →
      CommentRest (openBrace :: dash :: (inner ++ r))
  | byte {b : UInt8} {r : Bytes} : ¬ startsBlockComment (b :: r) → ¬ startsCommentEnd (b :: r) →
      CommentRest r → CommentRest (b :: r)

/-- A block comment, from its opening marker to the one that closes it. -/
def BlockComment (s : Bytes) : Prop :=
  ∃ r, s = openBrace :: dash :: r ∧ CommentRest r

/-- What closes `depth` comments and the one inside of them. -/
def CommentRests : (depth : Nat) → Bytes → Prop
  | 0, s => CommentRest s
  | outer + 1, s => ∃ inner r, CommentRest inner ∧ CommentRests outer r ∧ s = inner ++ r

/-! ## The counter -/

/-- An opening marker leads one comment deeper. -/
theorem afterComment?_open {a b : UInt8} (h : a == openBrace && b == dash) (depth : Nat)
    (r : Bytes) : afterComment? depth (a :: b :: r) = afterComment? (depth + 1) r := by
  cases depth <;> rw [afterComment?, if_pos h]

/-- A byte where no marker starts is passed. -/
theorem afterComment?_other {a b : UInt8} (ho : ¬ (a == openBrace && b == dash))
    (hc : ¬ (a == dash && b == closeBrace)) (depth : Nat) (r : Bytes) :
    afterComment? depth (a :: b :: r) = afterComment? depth (b :: r) := by
  cases depth <;> rw [afterComment?, if_neg ho, if_neg hc]

/-- Where a comment is closed, the next one out is the innermost that is open. -/
theorem afterComment?_rest {r : Bytes} (h : CommentRest r) (s : Bytes) :
    afterComment? 0 (r ++ s) = some s ∧
      ∀ outer, afterComment? (outer + 1) (r ++ s) = afterComment? outer s := by
  -- by what the comment is made of: a comment inside of it takes the counter up by
  -- one, and what closes that comment takes it down again
  induction h generalizing s with
  | close => exact ⟨rfl, fun outer => by cases outer <;> rfl⟩
  | @comment inner r _ _ ihInner ihRest =>
      have hopen : ∀ depth, afterComment? depth (openBrace :: dash :: (inner ++ r) ++ s)
          = afterComment? depth (r ++ s) := by
        intro depth
        rw [List.cons_append, List.cons_append, afterComment?_open (by decide), List.append_assoc]
        exact (ihInner _).2 depth
      refine ⟨(hopen 0).trans (ihRest s).1, fun outer => ?_⟩
      exact (hopen (outer + 1)).trans ((ihRest s).2 outer)
  | @byte b r hstart hend hrest ih =>
      -- the rest of a comment is never empty, so its first byte tells whether a marker starts
      cases r with
      | nil => cases hrest
      | cons b' r =>
          have hother : ∀ depth, afterComment? depth (b :: b' :: r ++ s)
              = afterComment? depth (b' :: r ++ s) :=
            fun depth => afterComment?_other hstart hend depth _
          refine ⟨(hother 0).trans (ih s).1, fun outer => ?_⟩
          exact (hother (outer + 1)).trans ((ih s).2 outer)

/-- A byte at which no marker starts belongs to the innermost comment. -/
theorem CommentRests.cons_byte {depth : Nat} {a b : UInt8} {r : Bytes}
    (hstart : ¬ startsBlockComment (a :: b :: r)) (hend : ¬ startsCommentEnd (a :: b :: r))
    (h : CommentRests depth (b :: r)) : CommentRests depth (a :: b :: r) := by
  cases depth with
  | zero => exact .byte hstart hend h
  | succ outer =>
      obtain ⟨inner, r', hinner, hr', hs⟩ := h
      cases inner with
      | nil => cases hinner
      | cons c inner =>
          obtain ⟨rfl, rfl⟩ := List.cons.inj hs
          refine ⟨a :: b :: inner, r', .byte ?_ ?_ hinner, hr', rfl⟩
          · exact hstart
          · exact hend

/-- An opening marker and what closes one comment more. -/
theorem CommentRests.cons_open {depth : Nat} {s : Bytes} (h : CommentRests (depth + 1) s) :
    CommentRests depth (openBrace :: dash :: s) := by
  obtain ⟨inner, r, hinner, hr, rfl⟩ := h
  cases depth with
  | zero => exact .comment hinner hr
  | succ outer =>
      obtain ⟨rest, r', hrest, hr', rfl⟩ := hr
      exact ⟨openBrace :: dash :: (inner ++ rest), r', .comment hinner hrest, hr', by simp⟩

/-- What closes a comment is not empty. -/
theorem CommentRests.ne_nil {depth : Nat} {s : Bytes} (h : CommentRests depth s) : s ≠ [] := by
  rintro rfl
  cases depth with
  | zero => cases h
  | succ outer =>
      obtain ⟨inner, r, hinner, -, hnil⟩ := h
      rw [(List.append_eq_nil_iff.mp hnil.symm).1] at hinner
      cases hinner

/-- Where the counter comes to its end, all comments that were open are closed. -/
theorem exists_commentRests {depth : Nat} {s t : Bytes} (h : afterComment? depth s = some t) :
    ∃ c, CommentRests depth c ∧ s = c ++ t := by
  -- by the counter's own cases; a marker changes the depth that is to be derived
  fun_induction afterComment? depth s with
  | case1 => cases h
  | case2 => cases h
  | case3 depth a b r hopen ih =>
      obtain ⟨c, hc, rfl⟩ := ih h
      simp only [Bool.and_eq_true, beq_iff_eq] at hopen
      obtain ⟨rfl, rfl⟩ := hopen
      exact ⟨_, hc.cons_open, rfl⟩
  | case4 a b r _ hclose =>
      simp only [Bool.and_eq_true, beq_iff_eq] at hclose
      obtain ⟨rfl, rfl⟩ := hclose
      exact ⟨_, .close, by rw [Option.some.inj h]; rfl⟩
  | case5 a b r _ hclose outer ih =>
      obtain ⟨c, hc, rfl⟩ := ih h
      simp only [Bool.and_eq_true, beq_iff_eq] at hclose
      obtain ⟨rfl, rfl⟩ := hclose
      exact ⟨dash :: closeBrace :: c, ⟨_, c, .close, hc, rfl⟩, rfl⟩
  | case6 depth a b r hopen hclose ih =>
      -- the byte behind this one is part of a comment: something has to close it
      obtain ⟨c, hc, hs⟩ := ih h
      obtain ⟨b', c, rfl⟩ := List.exists_cons_of_ne_nil hc.ne_nil
      obtain ⟨rfl, rfl⟩ := List.cons.inj hs
      exact ⟨a :: b :: c, hc.cons_byte hopen hclose, rfl⟩

/-- The counter comes to its end behind what closes all comments that are open. -/
theorem afterComment?_commentRests {depth : Nat} {c : Bytes} (h : CommentRests depth c)
    (t : Bytes) : afterComment? depth (c ++ t) = some t := by
  induction depth generalizing c with
  | zero => exact (afterComment?_rest h t).1
  | succ outer ih =>
      obtain ⟨inner, r, hinner, hr, rfl⟩ := h
      rw [List.append_assoc, (afterComment?_rest hinner _).2]
      exact ih hr

/-- The counter comes to its end exactly behind what closes the comments that are
    open. -/
theorem afterComment?_iff {depth : Nat} {s t : Bytes} :
    afterComment? depth s = some t ↔ ∃ c, CommentRests depth c ∧ s = c ++ t := by
  refine ⟨exists_commentRests, ?_⟩
  rintro ⟨c, hc, rfl⟩
  exact afterComment?_commentRests hc t

/-- The counter tells block comments: it comes to its end where they do. -/
theorem blockComment_iff {r : Bytes} :
    BlockComment (openBrace :: dash :: r) ↔ afterComment? 0 r = some [] := by
  constructor
  · rintro ⟨r', hr, hrest⟩
    obtain ⟨-, hr⟩ := List.cons.inj hr
    obtain ⟨-, rfl⟩ := List.cons.inj hr
    exact afterComment?_iff.mpr ⟨r, hrest, (List.append_nil r).symm⟩
  · intro h
    obtain ⟨c, hc, hr⟩ := afterComment?_iff.mp h
    exact ⟨r, rfl, (hr.trans (List.append_nil c)) ▸ hc⟩

end TerminalConfig
