import TerminalConfig.Proofs.Comments
import Mathlib.Data.List.TakeWhile

/-! # Closed gaps — layout that means the same whatever follows it

    `skipGap` goes past the longest gap, and where it stops no gap starts.  A gap
    by its parts is passed as a whole (`skipGap_of_isGap`), but a line comment at
    its end depends on what follows: it runs on to the next newline.

    What `skipGap` goes past is a closed gap as soon as something is left behind
    it, or the text ends with a newline: blanks, whole lines of comment and block
    comments.  A closed gap is never read differently because of what follows it,
    since no part of it is open at its end:

    * `skipGap_append`: going past `w ++ t` is going past `t`;
    * `exists_closedGap`: what has been passed is a closed gap. -/

namespace TerminalConfig

/-- A place where no gap starts. -/
def Settled (s : Bytes) : Prop :=
  skipGap s = .ok s

/-- The gap that the bytes start with comes to an end: no block comment in it
    is left open. -/
def GapCloses (s : Bytes) : Prop :=
  ∃ t, skipGap s = .ok t

/-! ## One step past a gap -/

@[simp] theorem skipGap_nil : skipGap [] = .ok [] := by
  rw [skipGap]

theorem skipGap_blank {a : UInt8} (h : isBlank a) (r : Bytes) : skipGap (a :: r) = skipGap r := by
  rw [skipGap, if_pos h]

theorem skipGap_newline (r : Bytes) : skipGap (newline :: r) = skipGap r :=
  skipGap_blank (by decide) r

theorem skipGap_line (r : Bytes) :
    skipGap (dash :: dash :: r) = skipGap (r.dropWhile (· != newline)) := by
  rw [skipGap, if_neg (by decide), if_pos (by rfl), List.dropWhile_cons_of_pos (by decide)]

theorem skipGap_block {r t : Bytes} (h : afterComment? 0 r = some t) :
    skipGap (openBrace :: dash :: r) = skipGap t := by
  rw [skipGap, if_neg (by decide), if_neg (by simp [startsLineComment, openBrace, dash]),
    if_pos (by rfl)]
  split
  · next u hu =>
    rw [List.tail_cons, h] at hu
    rw [Option.some.inj hu]
  · next hn =>
    rw [List.tail_cons, h] at hn
    cases hn

theorem skipGap_open {r : Bytes} (h : afterComment? 0 r = none) :
    skipGap (openBrace :: dash :: r)
      = .error ⟨.openComment, openBrace :: dash :: r, openBrace :: dash :: r⟩ := by
  rw [skipGap, if_neg (by decide), if_neg (by simp [startsLineComment, openBrace, dash]),
    if_pos (by rfl)]
  split
  · next u hu =>
    rw [List.tail_cons, h] at hu
    cases hu
  · rfl

/-- A line comment starts with two dashes. -/
theorem eq_of_startsLineComment {s : Bytes} (h : startsLineComment s) :
    ∃ r, s = dash :: dash :: r := by
  match s, h with
  | a :: b :: r, h =>
      simp only [startsLineComment, Bool.and_eq_true, beq_iff_eq] at h
      exact ⟨r, by rw [h.1, h.2]⟩

/-- A block comment starts with its opening marker. -/
theorem eq_of_startsBlockComment {s : Bytes} (h : startsBlockComment s) :
    ∃ r, s = openBrace :: dash :: r := by
  match s, h with
  | a :: b :: r, h =>
      simp only [startsBlockComment, Bool.and_eq_true, beq_iff_eq] at h
      exact ⟨r, by rw [h.1, h.2]⟩

/-- Behind the longest gap no gap starts. -/
theorem settled_of_skipGap {s t : Bytes} (h : skipGap s = .ok t) : Settled t := by
  fun_induction skipGap s with
  | case1 =>
      cases h
      exact skipGap_nil
  | case2 a r _ ih => exact ih h
  | case3 a r _ _ ih => exact ih h
  | case4 a r _ _ _ u _ _ ih => exact ih h
  | case5 => cases h
  | case6 a r hb hl hc =>
      cases h
      rw [Settled, skipGap, if_neg hb, if_neg hl, if_neg hc]

/-- No gap starts where neither a blank nor a comment does. -/
theorem settled_cons {a : UInt8} {r : Bytes} :
    Settled (a :: r) ↔
      ¬ isBlank a ∧ ¬ startsLineComment (a :: r) ∧ ¬ startsBlockComment (a :: r) := by
  constructor
  · intro h
    -- whatever starts a gap here would be passed, and leave less
    have hshort : ∀ u : Bytes, u.length ≤ r.length → skipGap u ≠ .ok (a :: r) := by
      intro u hu he
      have hlen := (suffix_skipGap he).length_le
      rw [List.length_cons] at hlen
      omega
    refine ⟨?_, ?_, ?_⟩
    · intro ha
      rw [Settled, skipGap_blank ha] at h
      exact hshort r (Nat.le_refl _) h
    · intro hl
      obtain ⟨r', hr⟩ := eq_of_startsLineComment hl
      obtain ⟨rfl, rfl⟩ := List.cons.inj hr
      rw [Settled, skipGap_line] at h
      refine hshort _ ?_ h
      exact Nat.le_succ_of_le (List.dropWhile_suffix _).length_le
    · intro hb
      obtain ⟨r', hr⟩ := eq_of_startsBlockComment hb
      obtain ⟨rfl, rfl⟩ := List.cons.inj hr
      cases hc : afterComment? 0 r' with
      | some u =>
          rw [Settled, skipGap_block hc] at h
          exact hshort u (Nat.le_succ_of_le (suffix_afterComment? hc).length_le) h
      | none =>
          rw [Settled, skipGap_open hc] at h
          cases h
  · rintro ⟨hb, hl, hc⟩
    rw [Settled, skipGap, if_neg hb, if_neg hl, if_neg hc]

/-- No gap starts at a byte that starts neither a blank nor a marker. -/
theorem settled_of_byte {a : UInt8} (hb : ¬ isBlank a) (hd : a ≠ dash) (ho : a ≠ openBrace)
    (r : Bytes) : Settled (a :: r) := by
  refine settled_cons.mpr ⟨hb, ?_, ?_⟩
  · intro hl
    obtain ⟨_, hr⟩ := eq_of_startsLineComment hl
    exact hd (List.cons.inj hr).1
  · intro hc
    obtain ⟨_, hr⟩ := eq_of_startsBlockComment hc
    exact ho (List.cons.inj hr).1

/-- Two bytes tell whether a gap starts at a place. -/
theorem Settled.congr {s t : Bytes} (h : Settled s) (ht : s.take 2 = t.take 2) : Settled t := by
  match s, t, ht with
  | [], [], _ => exact h
  | [a], [b], ht =>
      obtain ⟨rfl, -⟩ := List.cons.inj ht
      exact h
  | a :: b :: r, c :: d :: u, ht =>
      simp only [List.take_succ_cons, List.take_zero, List.cons.injEq, and_true] at ht
      obtain ⟨rfl, rfl⟩ := ht
      have hstart := settled_cons.mp h
      exact settled_cons.mpr hstart

namespace Reader

variable {α : Type}

/-- The gap reader succeeds as `skipGap` does. -/
theorem run_gap_eq_ok {s t : Bytes} {u : Unit} :
    gap.run s = .ok (u, t) ↔ skipGap s = .ok t := by
  rw [run_gap]
  cases skipGap s with
  | ok v => simp [Except.map]
  | error e => simp [Except.map]

/-- A token and its gap. -/
theorem run_lexeme (r : Reader α) {s g : Bytes} {a : α} (h : r.run s = .ok (a, g)) :
    (lexeme r).run s = (skipGap g).map fun t => (a, t) := by
  rw [lexeme, run_bind_of_ok h, run_bind, run_gap]
  cases skipGap g <;> rfl

theorem run_lexeme_eq_ok {r : Reader α} {s t : Bytes} {a : α} :
    (lexeme r).run s = .ok (a, t) ↔ ∃ g, r.run s = .ok (a, g) ∧ skipGap g = .ok t := by
  constructor
  · intro h
    obtain ⟨b, g, hr, h⟩ := run_bind_eq_ok.mp h
    obtain ⟨u, v, hg, h⟩ := run_bind_eq_ok.mp h
    cases h
    exact ⟨g, hr, run_gap_eq_ok.mp hg⟩
  · rintro ⟨g, hr, hg⟩
    rw [run_lexeme r hr, hg]
    rfl

end Reader

/-! ## Gaps by their parts -/

/-- The bytes are a gap in front of `t`: blanks, line comments that run to the next
    newline or to the end of the text, and block comments. -/
inductive IsGap : (w t : Bytes) → Prop
  | nil {t : Bytes} : IsGap [] t
  | blank {b : UInt8} {w t : Bytes} : isBlank b → IsGap w t → IsGap (b :: w) t
  | line {text w t : Bytes} : newline ∉ text → (∀ b ∈ (w ++ t).head?, b = newline) → IsGap w t →
      IsGap (dash :: dash :: (text ++ w)) t
  | block {c w t : Bytes} : BlockComment c → IsGap w t → IsGap (c ++ w) t

/-- A run of bytes of one class ends in front of the first byte outside of it. -/
theorem takeWhile_append_of_stop {p : UInt8 → Bool} {w r : Bytes} (hw : ∀ b ∈ w, p b)
    (hr : ∀ b ∈ r.head?, ¬ p b) :
    (w ++ r).takeWhile p = w ∧ (w ++ r).dropWhile p = r := by
  rw [List.takeWhile_append_of_pos hw, List.dropWhile_append_of_pos hw]
  cases r with
  | nil => simp
  | cons b r =>
      have hb := hr b rfl
      rw [List.takeWhile_cons_of_neg hb, List.dropWhile_cons_of_neg hb, List.append_nil]
      exact ⟨rfl, rfl⟩

/-- A text without a newline is part of one line. -/
theorem ne_newline_of_not_mem {text : Bytes} (h : newline ∉ text) :
    ∀ b ∈ text, (b != newline) = true := by
  intro b hb
  have : b ≠ newline := fun he => h (he ▸ hb)
  simpa using this

/-- The end of the line is found behind a text that holds none. -/
theorem dropWhile_line {text : Bytes} (h : newline ∉ text) (r : Bytes) :
    (text ++ newline :: r).dropWhile (· != newline) = newline :: r := by
  rw [List.dropWhile_append_of_pos (ne_newline_of_not_mem h)]
  rfl

/-- A text that holds no newline is left with the line that it is part of. -/
theorem afterLine_line {text : Bytes} (h : newline ∉ text) (r : Bytes) :
    afterLine (text ++ newline :: r) = r := by
  rw [afterLine, dropWhile_line h]
  rfl

/-- A block comment is passed. -/
theorem skipGap_blockComment {c : Bytes} (h : BlockComment c) (s : Bytes) :
    skipGap (c ++ s) = skipGap s := by
  obtain ⟨r, rfl, hr⟩ := h
  exact skipGap_block (afterComment?_iff.mpr ⟨r, hr, rfl⟩)

/-- A gap is passed, whatever follows it. -/
theorem skipGap_of_isGap {w t : Bytes} (h : IsGap w t) : skipGap (w ++ t) = skipGap t := by
  induction h with
  | nil => rfl
  | blank hb _ ih => exact (skipGap_blank hb _).trans ih
  | @line text w t htext hend _ ih =>
      have hstop : ∀ b ∈ (w ++ t).head?, ¬ (b != newline) = true := by
        intro b hb
        rw [hend b hb]
        decide
      have hdrop := (takeWhile_append_of_stop (ne_newline_of_not_mem htext) hstop).2
      rw [List.cons_append, List.cons_append, skipGap_line, List.append_assoc, hdrop]
      exact ih
  | block hc _ ih =>
      rw [List.append_assoc, skipGap_blockComment hc]
      exact ih

/-! ## Closed gaps -/

/-- Blanks, whole lines of comment and closed block comments, one after
    another. -/
inductive ClosedGap : Bytes → Prop
  | nil : ClosedGap []
  | blank {b : UInt8} {w : Bytes} : isBlank b → ClosedGap w → ClosedGap (b :: w)
  | line {text w : Bytes} : newline ∉ text → ClosedGap w →
      ClosedGap (dash :: dash :: text ++ newline :: w)
  | block {c w : Bytes} : BlockComment c → ClosedGap w → ClosedGap (c ++ w)

/-- A line of comment that the text ends with has its newline, if the text ends
    with one. -/
theorem newline_mem_of_line {r : Bytes}
    (h : ∀ b ∈ (dash :: dash :: r).getLast?, b = newline) : newline ∈ r := by
  have hlast := List.getLast?_eq_some_getLast (l := dash :: dash :: r) (by simp)
  have hmem := List.mem_of_getLast? hlast
  rw [h _ hlast, List.mem_cons, List.mem_cons] at hmem
  rcases hmem with he | he | hm
  · exact absurd he (by decide)
  · exact absurd he (by decide)
  · exact hm

/-- A closed gap is a gap in front of anything. -/
theorem ClosedGap.isGap {w : Bytes} (h : ClosedGap w) (t : Bytes) : IsGap w t := by
  induction h with
  | nil => exact .nil
  | blank hb _ ih => exact .blank hb ih
  | @line text w htext _ ih =>
      have hend : ∀ b ∈ (newline :: w ++ t).head?, b = newline :=
        fun _ hb => (Option.some.inj hb).symm
      exact .line htext hend (.blank (by decide) ih)
  | block hc _ ih => exact .block hc ih

/-- A closed gap is passed as it is, whatever follows it. -/
theorem skipGap_append {w : Bytes} (h : ClosedGap w) (t : Bytes) :
    skipGap (w ++ t) = skipGap t :=
  skipGap_of_isGap (h.isGap t)

/-- What follows the first blank of a closed gap is a closed gap. -/
theorem ClosedGap.of_blank {b : UInt8} {w : Bytes} (h : ClosedGap (b :: w)) (hb : isBlank b) :
    ClosedGap w := by
  generalize hs : b :: w = s at h
  cases h with
  | nil => cases hs
  | blank _ hw =>
      obtain ⟨-, rfl⟩ := List.cons.inj hs
      exact hw
  | line =>
      obtain ⟨rfl, -⟩ := List.cons.inj hs
      exact absurd hb (by decide)
  | block hc =>
      obtain ⟨r, rfl, -⟩ := hc
      obtain ⟨rfl, -⟩ := List.cons.inj hs
      exact absurd hb (by decide)

/-- A suffix ends as the whole does. -/
theorem getLast?_of_suffix {s t : Bytes} (h : t <:+ s) {b : UInt8} (hb : b ∈ t.getLast?) :
    b ∈ s.getLast? := by
  obtain ⟨x, rfl⟩ := h
  rw [List.getLast?_append, Option.mem_def.mp hb]
  rfl

/-- A line comment that the text ends in: it has no newline. -/
def IsOpenLine (line : Bytes) : Prop :=
  ∃ text, line = dash :: dash :: text ∧ newline ∉ text

/-- What is passed is a closed gap.  Behind it, a line comment may run on to
    the end of the text. -/
theorem exists_gap {s t : Bytes} (h : skipGap s = .ok t) :
    ∃ w line, s = w ++ (line ++ t) ∧ ClosedGap w ∧ (line = [] ∨ t = [] ∧ IsOpenLine line) := by
  fun_induction skipGap s with
  | case1 =>
      cases h
      exact ⟨[], [], rfl, .nil, Or.inl rfl⟩
  | case2 a r ha ih =>
      obtain ⟨w, line, hs, hw, hline⟩ := ih h
      exact ⟨a :: w, line, by rw [hs]; rfl, .blank ha hw, hline⟩
  | case3 a r _ hl ih =>
      obtain ⟨r', hr⟩ := eq_of_startsLineComment hl
      obtain ⟨rfl, rfl⟩ := List.cons.inj hr
      rw [List.dropWhile_cons_of_pos (by decide)] at ih h
      by_cases hn : newline ∈ r'
      · -- what is passed behind the comment starts with its newline, so it is no token
        obtain ⟨text, rest, rfl, ht⟩ := List.eq_append_cons_of_mem hn
        rw [dropWhile_line ht] at ih h
        obtain ⟨w, line, hs, hw, hline⟩ := ih h
        cases w with
        | nil =>
            rcases hline with rfl | ⟨-, text', rfl, -⟩
            · have hsettled := settled_of_skipGap h
              rw [List.nil_append, List.nil_append] at hs
              exact absurd (by decide) (settled_cons.mp (hs ▸ hsettled)).1
            · exact absurd (List.cons.inj hs).1 (by decide)
        | cons b w =>
            obtain ⟨rfl, hs⟩ := List.cons.inj hs
            refine ⟨dash :: dash :: text ++ newline :: w, line, by rw [hs]; simp, ?_, hline⟩
            exact .line ht (hw.of_blank (by decide))
      · -- the comment runs to the end of the text
        rw [List.dropWhile_eq_nil_iff.mpr (ne_newline_of_not_mem hn), skipGap_nil] at h
        cases h
        exact ⟨[], _, (List.append_nil _).symm, .nil, Or.inr ⟨rfl, r', rfl, hn⟩⟩
  | case4 a r _ _ hb u hu _ ih =>
      obtain ⟨r', hr⟩ := eq_of_startsBlockComment hb
      obtain ⟨rfl, rfl⟩ := List.cons.inj hr
      obtain ⟨c, hc, hr'⟩ := afterComment?_iff.mp hu
      obtain ⟨w, line, hs, hw, hline⟩ := ih h
      refine ⟨openBrace :: dash :: c ++ w, line, ?_, .block ⟨c, rfl, hc⟩ hw, hline⟩
      rw [List.tail_cons] at hr'
      rw [hr', hs]
      simp
  | case5 => cases h
  | case6 =>
      cases h
      exact ⟨[], [], rfl, .nil, Or.inl rfl⟩

/-- What is passed on the way to a token, or to the end of a text that ends
    with a newline, is a closed gap: a line comment in it has its newline. -/
theorem exists_closedGap {s t : Bytes} (h : skipGap s = .ok t)
    (hend : t = [] → ∀ b ∈ s.getLast?, b = newline) : ∃ w, s = w ++ t ∧ ClosedGap w := by
  obtain ⟨w, line, hs, hw, rfl | ⟨rfl, text, rfl, htext⟩⟩ := exists_gap h
  · exact ⟨w, hs, hw⟩
  · rw [List.append_nil] at hs
    refine absurd (newline_mem_of_line fun b hb => hend rfl b ?_) htext
    exact getLast?_of_suffix ⟨w, hs.symm⟩ hb

end TerminalConfig
