import TerminalConfig.Proofs.Acceptance
import TerminalConfig.Proofs.Written

/-! # Layout — a gap between two tokens says nothing

    Where a token begins, any closed gap may be put in front of it: the same
    tokens are read, those in front of the gap where they were and those behind
    it later by its length, and a document in which no line is skipped says the
    same (`Document.gap_between`).

    * A token ends where it ends if what follows begins with the same byte as
      before, or with one that goes on with no word (`Reader.Ends`).  Strings,
      characters and symbols end by themselves; identifiers and numbers end
      before such a byte.
    * A closed gap begins with such a byte.  So another gap may stand behind a
      token (`TokenAt.hasCore`), and what is put into its gap, or in front of a
      later token, leaves the token as it is (`TokenAt.insert`).
    * By induction over the tokens in front, all of them stay, and behind the gap
      nothing is read differently (`Scan.extends_ofTokenStart`).  What is left to
      say is where: places are what remains, and offsets count from the start. -/

namespace TerminalConfig

/-! ## Where tokens end -/

/-- What follows a token ends it as well as `g` does: it begins with the same
    byte, or with none that goes on with a word. -/
def EndsAsWell (g g' : Bytes) : Prop :=
  g'.head? = g.head? ∨ EndsWord g'

/-- A byte that does not go on with a token of some class does not stand behind it
    then either. -/
theorem EndsAsWell.stops {g g' : Bytes} (h : EndsAsWell g g') {p : UInt8 → Bool}
    (hp : ∀ b, p b → continuesIdentifier b) (hg : ∀ b ∈ g.head?, ¬ p b) :
    ∀ b ∈ g'.head?, ¬ p b := by
  intro b hb hpb
  rcases h with hsame | hword
  · exact hg b (hsame ▸ hb) hpb
  · exact hword b hb (hp b hpb)

/-- A closed gap ends a word. -/
theorem ClosedGap.endsWord {w : Bytes} (h : ClosedGap w) (hne : w ≠ []) (r : Bytes) :
    EndsWord (w ++ r) := by
  cases h with
  | nil => exact absurd rfl hne
  | blank hb _ => exact endsWord_cons (not_continuesIdentifier_of_isBlank hb) _
  | line _ _ => exact endsWord_cons (by decide) _
  | block hc _ =>
      obtain ⟨c, rfl, -⟩ := hc
      exact endsWord_cons (by decide) _

namespace Reader

variable {α : Type}

/-- Where `r` reads `a`, it does so wherever what follows ends a token as well. -/
def Ends (r : Reader α) (a : α) : Prop :=
  ∀ ⦃x g g' : Bytes⦄, r.run (x ++ g) = .ok (a, g) → EndsAsWell g g' → r.run (x ++ g') = .ok (a, g')

/-! ### Literals -/

/-- What `r` reads ends with its closing quote, whatever follows that. -/
def ClosesWith (r : Reader α) (quote : UInt8) : Prop :=
  ∀ ⦃s t : Bytes⦄ ⦃a : α⦄, r.run s = .ok (a, t) →
    ∃ x, s = x ++ quote :: t ∧ ∀ t', r.run (x ++ quote :: t') = .ok (a, t')

/-- What closes with a quote ends by itself. -/
theorem ClosesWith.ends {r : Reader α} {quote : UInt8} (h : r.ClosesWith quote) (a : α) :
    r.Ends a := by
  intro x g g' hrun _
  obtain ⟨y, hy, hread⟩ := h hrun
  rw [show quote :: g = [quote] ++ g from rfl, ← List.append_assoc] at hy
  obtain rfl := List.append_cancel_right hy
  rw [List.append_assoc]
  exact hread g'

/-- What closes with a quote takes at least the quote. -/
theorem ClosesWith.progresses {r : Reader α} {quote : UInt8} (h : r.ClosesWith quote) :
    r.Progresses := by
  intro s t a hrun
  obtain ⟨x, rfl, -⟩ := h hrun
  rw [List.length_append, List.length_cons]
  omega

theorem closesWith_quotedString : quotedString.ClosesWith doubleQuote :=
  fun _ _ _ hrun => run_quotedString_eq_ok hrun

theorem closesWith_quotedChar : quotedChar.ClosesWith apostrophe := by
  intro s t c h
  obtain ⟨_, r, hskip, h⟩ := run_bind_eq_ok.mp (run_fromStart_eq_ok.mp h)
  obtain ⟨v, u, hbody, h⟩ := run_bind_eq_ok.mp h
  cases v with
  | error fault => cases h
  | ok d =>
      obtain ⟨next, u', hahead, h⟩ := run_bind_eq_ok.mp h
      cases hahead
      split at h
      · next hquote =>
        obtain ⟨u, rfl⟩ := List.head?_eq_some_iff.mp hquote
        cases h
        obtain ⟨y, rfl⟩ := exists_read hbody
        cases s with
        | nil => cases y <;> cases hskip
        | cons b r =>
            cases hskip
            refine ⟨b :: y, rfl, fun t' => run_fromStart_eq_ok.mpr ?_⟩
            -- the body looks at one byte behind it, and that is the quote
            have hhead : (apostrophe :: u).take 1 = (apostrophe :: t').take 1 := rfl
            refine run_bind_eq_ok.mpr ⟨(), y ++ apostrophe :: t', rfl, ?_⟩
            exact run_bind_eq_ok.mpr ⟨_, _, peeks_charBody _ hbody hhead, rfl⟩
      · cases h

/-! ### Words -/

/-- What a run of one class is read of: the run itself, and a byte that stops
    it. -/
theorem run_of_takeWhile {p : UInt8 → Bool} {x v g : Bytes} (hv : v = (x ++ g).takeWhile p)
    (hg : g = (x ++ g).dropWhile p) :
    v = x ∧ (∀ b ∈ x, p b) ∧ ∀ b ∈ g.head?, ¬ p b := by
  have hx : v ++ g = x ++ g := by
    rw [hv]
    nth_rewrite 2 [hg]
    exact List.takeWhile_append_dropWhile
  obtain rfl := List.append_cancel_right hx
  refine ⟨rfl, fun b hb => List.mem_takeWhile_imp (hv ▸ hb), ?_⟩
  intro b hb
  rw [hg] at hb
  have := List.head?_dropWhile_not p (v ++ g)
  rw [Option.mem_def.mp hb] at this
  simpa using this

theorem ends_identifierBytes (v : Bytes) : identifierBytes.Ends v := by
  intro x g g' hrun hg
  obtain ⟨hstart, hv, hrest⟩ := run_identifierBytes_eq_ok.mp hrun
  obtain ⟨rfl, hall, hstop⟩ := run_of_takeWhile hv hrest
  obtain ⟨htake, hdrop⟩ := takeWhile_append_of_stop hall (hg.stops (fun _ h => h) hstop)
  refine run_identifierBytes_eq_ok.mpr ⟨?_, htake.symm, hdrop.symm⟩
  cases v with
  | nil =>
      obtain ⟨b, r, rfl, hb⟩ := exists_cons_of_head? hstart
      exact absurd (continuesIdentifier_of_starts hb) (hstop b rfl)
  | cons b v => exact hstart

/-! ### Numbers -/

/-- Past the mark of a base stands what is behind its two bytes. -/
theorem run_radixMark (s : Bytes) :
    radixMark.run s = .ok (.ofMark s, if Radix.ofMark s = .decimal then s else s.drop 2) := by
  have hpast : ∀ radix : Radix, (do skipByte; skipByte; return radix : Reader Radix).run s
      = .ok (radix, s.drop 2) := by
    intro radix
    rw [← List.tail_drop, List.drop_one]
    rfl
  rw [radixMark, run_bind_of_ok (run_remaining s)]
  cases Radix.ofMark s with
  | decimal => rfl
  | octal => exact hpast .octal
  | hexadecimal => exact hpast .hexadecimal

/-- A digit is the mark of no base by itself, where its word ends. -/
theorem ofMark_of_endsWord {r : Bytes} (h : EndsWord r) (a : UInt8) :
    Radix.ofMark (a :: r) = .decimal := by
  cases r with
  | nil => rfl
  | cons b r =>
      refine Radix.ofMark_eq_decimal (fun _ hmem => h b rfl ?_) r
      exact Radix.continuesIdentifier_of_markLetter hmem

/-- A mark is two bytes long and has two bytes at least. -/
theorem exists_mark {s : Bytes} (h : Radix.ofMark s ≠ .decimal) : ∃ a b r, s = a :: b :: r := by
  match s, h with
  | [], h => exact absurd rfl h
  | [_], h => exact absurd rfl h
  | a :: b :: r, _ => exact ⟨a, b, r, rfl⟩

/-- Where digits are read in base ten, they are so wherever what follows ends them
    as well: a letter behind a lone `0` would be taken for a mark. -/
theorem ofMark_of_endsAsWell {digits g g' : Bytes} (hne : digits ≠ [])
    (h : Radix.ofMark (digits ++ g) = .decimal) (hg : EndsAsWell g g') :
    Radix.ofMark (digits ++ g') = .decimal := by
  match digits, hne with
  | [a], _ =>
      rcases hg with hsame | hword
      · rw [← h]
        refine ofMark_congr ?_
        cases g <;> cases g' <;> simp_all
      · exact ofMark_of_endsWord hword a
  | a :: b :: digits, _ =>
      rw [← h]
      exact ofMark_congr rfl

theorem ends_numeral (radix : Radix) (n : Nat) : (numeral radix).Ends n := by
  intro x g g' hrun hg
  obtain ⟨hnumber, hrest⟩ := run_numeral_eq_ok.mp hrun
  obtain ⟨hx, hall, hstop⟩ := run_of_takeWhile rfl hrest
  obtain ⟨htake, hdrop⟩ := takeWhile_append_of_stop hall
    (hg.stops (fun _ h => continuesIdentifier_of_radixDigit h) hstop)
  rw [hx] at hnumber
  exact run_numeral_eq_ok.mpr ⟨htake.symm ▸ hnumber, hdrop.symm⟩

theorem ends_number (n : Nat) : (radixMark >>= numeral).Ends n := by
  intro x g g' hrun hg
  obtain ⟨radix, u, hmark, hnumeral⟩ := run_bind_eq_ok.mp hrun
  rw [run_radixMark] at hmark
  cases hmark
  obtain ⟨digits, hu⟩ := exists_read hnumeral
  rw [hu] at hnumeral
  have hdigits := ends_numeral _ n hnumeral hg
  by_cases hdecimal : Radix.ofMark (x ++ g) = .decimal
  · rw [if_pos hdecimal] at hu
    obtain rfl := List.append_cancel_right hu
    have hne : x ≠ [] := by
      rintro rfl
      exact absurd (progresses_numeral _ hnumeral) (Nat.lt_irrefl _)
    have hmark' := ofMark_of_endsAsWell hne hdecimal hg
    refine run_bind_eq_ok.mpr ⟨_, _, run_radixMark _, ?_⟩
    rw [hmark', if_pos rfl, ← hdecimal]
    exact hdigits
  · obtain ⟨a, b, r, hs⟩ := exists_mark hdecimal
    rw [if_neg hdecimal, hs] at hu
    have hxg : x ++ g = a :: b :: digits ++ g := by
      rw [hs, List.cons_append, List.cons_append, ← hu]
      rfl
    have hx : x = a :: b :: digits := List.append_cancel_right hxg
    have hmark' : Radix.ofMark (x ++ g') = Radix.ofMark (x ++ g) := by
      rw [hx]
      exact ofMark_congr rfl
    have hdrop : (x ++ g').drop 2 = digits ++ g' := by
      rw [hx]
      rfl
    refine run_bind_eq_ok.mpr ⟨_, _, run_radixMark _, ?_⟩
    rw [hmark', if_neg hdecimal, hdrop]
    exact hdigits

/-! ## Tokens and the gaps behind them -/

theorem progresses_identifierBytes : identifierBytes.Progresses := by
  intro s t v h
  obtain ⟨hstart, -, rfl⟩ := run_identifierBytes_eq_ok.mp h
  obtain ⟨b, r, rfl, hb⟩ := exists_cons_of_head? hstart
  rw [List.dropWhile_cons_of_pos (continuesIdentifier_of_starts hb)]
  exact Nat.lt_succ_of_le (List.dropWhile_suffix _).length_le

theorem progresses_number : (radixMark >>= numeral).Progresses := by
  intro s t n h
  obtain ⟨radix, u, hmark, hnumeral⟩ := run_bind_eq_ok.mp h
  exact Nat.lt_of_lt_of_le (progresses_numeral radix hnumeral) (radixMark.length_rest hmark)

/-- A character literal is a quoted character and the gap behind it. -/
theorem run_charLiteral_eq_ok {s t : Bytes} {c : CodePoint} :
    charLiteral.run s = .ok (c, t) ↔
      s.head? = some apostrophe ∧ (lexeme quotedChar).run s = .ok (c, t) := by
  rw [charLiteral, run_bind_of_ok (run_ahead s)]
  split
  · next h => simp [h]
  · next h => simp [h]

/-- A number is its mark, its digits and the gap behind them. -/
theorem run_natural_eq_ok {s t : Bytes} {n : Nat} :
    natural.run s = .ok (n, t) ↔
      s.head?.any isDigit ∧ (lexeme (radixMark >>= numeral)).run s = .ok (n, t) := by
  rw [natural, run_bind_of_ok (run_ahead s)]
  split
  · next h => simp [h]
  · next h => simp [h]

end Reader

/-- The bytes of a token stand in front of a gap: with any other gap that ends them
    as well, the token stands there too. -/
def HasCore (s : Bytes) (token : Token) (t : Bytes) : Prop :=
  ∃ x g, s = x ++ g ∧ skipGap g = .ok t ∧
    ∀ ⦃g' t' : Bytes⦄, EndsAsWell g g' → skipGap g' = .ok t' → TokenAt (x ++ g') token t'

/-- A token has a core if its reader is one that ends, chosen by the first byte. -/
theorem hasCore_of_lexeme {α : Type} {r : Reader α} {a : α} {s t : Bytes} {token : Token}
    (p : Option UInt8 → Prop) (hprogress : r.Progresses) (hends : r.Ends a)
    (htoken : ∀ {s t}, p s.head? → (Reader.lexeme r).run s = .ok (a, t) → TokenAt s token t)
    (hp : p s.head?) (h : (Reader.lexeme r).run s = .ok (a, t)) : HasCore s token t := by
  obtain ⟨g, hrun, hgap⟩ := Reader.run_lexeme_eq_ok.mp h
  obtain ⟨x, rfl⟩ := Reader.exists_read hrun
  have hx : x ≠ [] := by
    rintro rfl
    exact absurd (hprogress hrun) (Nat.lt_irrefl _)
  rw [List.head?_append_of_ne_nil _ hx] at hp
  refine ⟨x, g, rfl, hgap, fun g' t' hg hgap' => htoken ?_ ?_⟩
  · rwa [List.head?_append_of_ne_nil _ hx]
  · exact Reader.run_lexeme_eq_ok.mpr ⟨g', hends hrun hg, hgap'⟩

open Reader in
/-- Every token has a core. -/
theorem TokenAt.hasCore {s t : Bytes} {token : Token} (h : TokenAt s token t) :
    HasCore s token t := by
  obtain ⟨text, rfl, hrun⟩ | ⟨c, rfl, hrun⟩ | ⟨n, rfl, hrun⟩ | ⟨name, rfl, hrun⟩ |
    ⟨b, g, rfl, hb, rfl, hg⟩ := h.cases
  · obtain ⟨hquote, hlex⟩ := run_stringLiteral_eq_ok.mp hrun
    exact hasCore_of_lexeme (· = some doubleQuote) closesWith_quotedString.progresses
      (closesWith_quotedString.ends text)
      (fun hp hlex => tokenAt_string.mpr (run_stringLiteral_eq_ok.mpr ⟨hp, hlex⟩)) hquote hlex
  · obtain ⟨hquote, hlex⟩ := run_charLiteral_eq_ok.mp hrun
    exact hasCore_of_lexeme (· = some apostrophe) closesWith_quotedChar.progresses
      (closesWith_quotedChar.ends c)
      (fun hp hlex => tokenAt_char.mpr (run_charLiteral_eq_ok.mpr ⟨hp, hlex⟩)) hquote hlex
  · obtain ⟨hdigit, hlex⟩ := run_natural_eq_ok.mp hrun
    exact hasCore_of_lexeme (fun b => b.any isDigit) progresses_number (ends_number n)
      (fun hp hlex => tokenAt_number.mpr (run_natural_eq_ok.mpr ⟨hp, hlex⟩)) hdigit hlex
  · obtain ⟨v, hlex, rfl⟩ := run_map_eq_ok.mp hrun
    exact hasCore_of_lexeme (fun _ => True) progresses_identifierBytes (ends_identifierBytes v)
      (fun _ hlex => tokenAt_identifier.mpr (run_map_eq_ok.mpr ⟨v, hlex, rfl⟩)) trivial hlex
  · exact ⟨[b], g, rfl, hg, fun g' t' _ hgap' => tokenAt_symbol.mpr ⟨hb, g', rfl, hgap'⟩⟩

/-- A token begins with a byte that begins no gap, whatever follows it. -/
theorem TokenAt.settled_append {x s t : Bytes} {token : Token} (h : TokenAt (x ++ s) token t)
    (hx : x ≠ []) (r : Bytes) : Settled (x ++ r) := by
  obtain ⟨b, x, rfl⟩ := List.exists_cons_of_ne_nil hx
  have hblank := (settled_cons.mp h.settled).1
  obtain ⟨_, _, hs, hrun⟩ := h
  obtain ⟨rfl, -⟩ := List.cons.inj hs
  refine settled_of_byte hblank ?_ ?_ (x ++ r)
  · rintro rfl
    rw [show Reader.token dash = Reader.fail (.unexpectedByte dash) from rfl] at hrun
    cases hrun
  · rintro rfl
    rw [show Reader.token openBrace = Reader.fail (.unexpectedByte openBrace) from rfl] at hrun
    cases hrun

/-! ## A gap that is put in -/

/-- Where a token begins that began `x` before `s`, once the gap `w` stands in front
    of `s`: at `s` itself the gap has been passed. -/
def placeAfter (x w s : Bytes) : Bytes :=
  if x = [] then s else x ++ (w ++ s)

/-- A gap is passed on the way to the token behind it, and seen from no place in
    front of it. -/
theorem skipGap_insert {x w s t : Bytes} {token : Token} (hw : ClosedGap w)
    (h : TokenAt (x ++ s) token t) : skipGap (x ++ (w ++ s)) = .ok (placeAfter x w s) := by
  rw [placeAfter]
  split
  · next hx =>
    subst hx
    rw [List.nil_append, skipGap_append hw]
    exact h.settled
  · next hx => exact h.settled_append hx _

/-- What a token ends in front of ends it as well when a gap is put in. -/
theorem endsAsWell_insert {g w : Bytes} (hw : ClosedGap w) (s : Bytes) :
    EndsAsWell (g ++ s) (g ++ (w ++ s)) := by
  by_cases hg : g = []
  · by_cases hne : w = []
    · rw [hne]
      exact Or.inl rfl
    · rw [hg]
      exact Or.inr (hw.endsWord hne s)
  · exact Or.inl (by rw [List.head?_append_of_ne_nil _ hg, List.head?_append_of_ne_nil _ hg])

/-- A gap that leads to a token leads to where the token begins then. -/
theorem exists_gap_insert {g y w s t : Bytes} {token : Token} (hw : ClosedGap w)
    (hgap : skipGap g = .ok (y ++ s)) (h : TokenAt (y ++ s) token t) :
    ∃ v, g = v ++ y ++ s ∧ skipGap (v ++ y ++ (w ++ s)) = .ok (placeAfter y w s) := by
  -- a token follows, so no line comment in front of it runs to the end of the text
  have hne : y ++ s ≠ [] := fun hnil => absurd h.length_lt (by simp [hnil])
  obtain ⟨v, rfl, hv⟩ := exists_closedGap hgap fun hnil => absurd hnil hne
  refine ⟨v, (List.append_assoc v y s).symm, ?_⟩
  rw [List.append_assoc, skipGap_append hv]
  exact skipGap_insert hw h

/-- A token in front of another one stays as it is when a gap is put in behind
    it. -/
theorem TokenAt.insert {x y w s t : Bytes} {token next : Token} (hw : ClosedGap w)
    (h : TokenAt (x ++ s) token (y ++ s)) (hnext : TokenAt (y ++ s) next t) :
    TokenAt (x ++ (w ++ s)) token (placeAfter y w s) := by
  obtain ⟨core, g, hx, hgap, hother⟩ := h.hasCore
  obtain ⟨v, rfl, hskip⟩ := exists_gap_insert hw hgap hnext
  rw [← List.append_assoc] at hx
  obtain rfl := List.append_cancel_right hx
  rw [List.append_assoc]
  exact hother (endsAsWell_insert hw s) hskip

/-- What remains behind tokens is a suffix. -/
theorem Tokens.suffix {s t : Bytes} {tokens : List Token} (h : Tokens s tokens t) : t <:+ s := by
  induction h with
  | nil => exact List.suffix_refl _
  | cons htoken _ ih =>
      obtain ⟨b, r, rfl, hrun⟩ := htoken
      exact ih.trans ((Reader.token b).rest_suffix hrun)

/-- Where tokens lead to a token, one stands. -/
theorem Tokens.exists_first {s u t : Bytes} {tokens : List Token} {token : Token}
    (h : Tokens s tokens u) (hu : TokenAt u token t) : ∃ first v, TokenAt s first v := by
  cases h with
  | nil => exact ⟨token, t, hu⟩
  | cons hfirst _ => exact ⟨_, _, hfirst⟩

namespace Scan

/-- Where a token was read, one stands, and the tokens in front lead to it. -/
theorem exists_tokens_of_mem {s u : Bytes} {token : Token}
    (h : (u, token) ∈ (ofTokenStart s).tokens) :
    (∃ front, Tokens s front u) ∧ ∃ t, TokenAt u token t := by
  fun_induction ofTokenStart s with
  | case1 => exact absurd h List.not_mem_nil
  | case2 b r first t hrun _ later ih =>
      rcases List.mem_cons.mp h with heq | hlater
      · obtain ⟨rfl, rfl⟩ := Prod.mk.inj heq
        exact ⟨⟨[], .nil⟩, t, b, r, rfl, hrun⟩
      · obtain ⟨⟨front, hfront⟩, hat⟩ := ih hlater
        exact ⟨⟨first :: front, .cons ⟨b, r, rfl, hrun⟩ hfront⟩, hat⟩
  | case3 => exact absurd h List.not_mem_nil

/-- How much remains where the tokens begin. -/
def remains (scan : Scan) : List (Nat × Token) :=
  scan.tokens.map fun found => (found.1.length, found.2)

/-- More remains in front of the last `n` bytes; from there on it is as much. -/
def lengthen (n more : Nat) (found : Nat × Token) : Nat × Token :=
  (if n < found.1 then found.1 + more else found.1, found.2)

theorem lengthen_remains (s : Bytes) (more : Nat) :
    (ofTokenStart s).remains.map (lengthen s.length more) = (ofTokenStart s).remains := by
  refine (List.map_congr_left fun found hfound => ?_).trans (List.map_id _)
  obtain ⟨⟨u, token⟩, hmem, rfl⟩ := List.mem_map.mp hfound
  obtain ⟨⟨front, hfront⟩, -⟩ := exists_tokens_of_mem hmem
  exact congrArg (·, token) (if_neg (Nat.not_lt_of_le hfront.length_le))

/-- The tokens of `new` are those of `old`, where `more` bytes were put in in front
    of the last `n`, and the same failure ends them. -/
structure Extends (old new : Scan) (n more : Nat) : Prop where
  failure : new.failure = old.failure
  remains : new.remains = old.remains.map (lengthen n more)

/-- From a token on, the same tokens are read when a gap is put in front of a later
    one. -/
theorem extends_ofTokenStart {x w s t : Bytes} {front : List Token} {token : Token}
    (hw : ClosedGap w) (hs : TokenAt s token t) (h : Tokens (x ++ s) front s) :
    Extends (ofTokenStart (x ++ s)) (ofTokenStart (placeAfter x w s)) s.length w.length := by
  generalize hu : x ++ s = u at h
  induction h generalizing x with
  | nil =>
      obtain rfl := List.append_left_eq_self.mp hu
      exact ⟨rfl, (lengthen_remains _ _).symm⟩
  | @cons u v s first later hfirst hlater ih =>
      obtain ⟨y, rfl⟩ := hlater.suffix
      obtain ⟨next, r, hnext⟩ := hlater.exists_first hs
      obtain ⟨hfailure, hremains⟩ := ih hs rfl
      subst hu
      have hlonger : s.length < (x ++ s).length :=
        Nat.lt_of_le_of_lt hlater.length_le hfirst.length_lt
      have hx : x ≠ [] := by
        rintro rfl
        exact absurd hlonger (Nat.lt_irrefl _)
      have hlength : (x ++ (w ++ s)).length = (x ++ s).length + w.length := by
        simp only [List.length_append]
        omega
      rw [placeAfter, if_neg hx, ofTokenStart_of_token (hfirst.insert hw hnext),
        ofTokenStart_of_token hfirst]
      refine ⟨hfailure, ?_⟩
      show ((x ++ (w ++ s)).length, first) :: (ofTokenStart (placeAfter y w s)).remains
        = lengthen s.length w.length ((x ++ s).length, first)
          :: (ofTokenStart (y ++ s)).remains.map (lengthen s.length w.length)
      rw [hremains, lengthen, if_pos hlonger, hlength]

/-- What was read of a source was read behind its first gap. -/
theorem exists_skipGap_of_mem {s u : Bytes} {token : Token}
    (h : (u, token) ∈ (ofSource s).tokens) :
    ∃ t, skipGap s = .ok t ∧ (u, token) ∈ (ofTokenStart t).tokens := by
  rw [ofSource] at h
  cases hgap : skipGap s with
  | error e =>
      rw [hgap] at h
      exact absurd h List.not_mem_nil
  | ok t =>
      rw [hgap] at h
      exact ⟨t, rfl, h⟩

/-- The same holds from the start of the source. -/
theorem extends_ofSource {x w s : Bytes} {token : Token} (hw : ClosedGap w)
    (hmem : (s, token) ∈ (ofSource (x ++ s)).tokens) :
    Extends (ofSource (x ++ s)) (ofSource (x ++ (w ++ s))) s.length w.length := by
  obtain ⟨u, hgap, hmem⟩ := exists_skipGap_of_mem hmem
  obtain ⟨⟨front, hfront⟩, t, hs⟩ := exists_tokens_of_mem hmem
  obtain ⟨y, rfl⟩ := hfront.suffix
  obtain ⟨next, r, hnext⟩ := hfront.exists_first hs
  obtain ⟨v, hx, hskip⟩ := exists_gap_insert hw hgap hnext
  obtain rfl := List.append_cancel_right hx
  rw [ofSource, ofSource, hgap, hskip]
  exact extends_ofTokenStart hw hs hfront

/-- Places in front of an offset stay, and the others come later. -/
def shift (offset length : Nat) (found : Nat × Token) : Nat × Token :=
  (if found.1 < offset then found.1 else found.1 + length, found.2)

/-- What was read of a source is part of it. -/
theorem suffix_of_mem_ofSource {s u : Bytes} {token : Token}
    (h : (u, token) ∈ (ofSource s).tokens) : u <:+ s := by
  obtain ⟨t, hgap, hmem⟩ := exists_skipGap_of_mem h
  obtain ⟨⟨front, hfront⟩, -⟩ := exists_tokens_of_mem hmem
  exact hfront.suffix.trans (suffix_skipGap hgap)

/-- The token that begins at an offset is what remains behind it. -/
theorem exists_mem_of_placed {x s : Bytes}
    (h : x.length ∈ ((ofSource (x ++ s)).placed (x ++ s)).map Prod.fst) :
    ∃ token, (s, token) ∈ (ofSource (x ++ s)).tokens := by
  obtain ⟨_, hplaced, hoffset⟩ := List.mem_map.mp h
  obtain ⟨⟨u, token⟩, hmem, rfl⟩ := List.mem_map.mp hplaced
  have hsuffix := suffix_of_mem_ofSource hmem
  have hle := hsuffix.length_le
  have hlength : u.length = s.length := by
    simp only [List.length_append] at hoffset hle
    omega
  have hu : u = s := (List.suffix_of_suffix_length_le hsuffix (List.suffix_append x s)
    (Nat.le_of_eq hlength)).eq_of_length hlength
  exact ⟨token, hu ▸ hmem⟩

/-- An offset is what does not remain of the buffer. -/
theorem placed_eq (scan : Scan) (buffer : Bytes) :
    scan.placed buffer = scan.remains.map fun found => (buffer.length - found.1, found.2) := by
  rw [placed, remains, List.map_map]
  rfl

/-- In offsets, what more remains in front is what comes later behind. -/
theorem Extends.placed {x w s : Bytes}
    (h : Extends (ofSource (x ++ s)) (ofSource (x ++ (w ++ s))) s.length w.length) :
    (ofSource (x ++ (w ++ s))).placed (x ++ (w ++ s))
      = ((ofSource (x ++ s)).placed (x ++ s)).map (shift x.length w.length) := by
  rw [placed_eq, h.remains, Scan.placed, Scan.remains, List.map_map, List.map_map, List.map_map]
  refine List.map_congr_left fun found hmem => ?_
  obtain ⟨u, token⟩ := found
  have hle := (suffix_of_mem_ofSource hmem).length_le
  simp only [List.length_append] at hle
  show ((x ++ (w ++ s)).length - (if s.length < u.length then u.length + w.length else u.length),
      token)
    = (if (x ++ s).length - u.length < x.length then (x ++ s).length - u.length
        else (x ++ s).length - u.length + w.length, token)
  simp only [List.length_append, Prod.mk.injEq, and_true]
  split <;> split <;> omega

/-- The tokens keep their values. -/
theorem Extends.values {old new : Scan} {n more : Nat} (h : Extends old new n more) :
    new.values = old.values := by
  have hvalues : ∀ scan : Scan, scan.values = scan.remains.map Prod.snd := by
    intro scan
    rw [Scan.values, Scan.remains, List.map_map]
    rfl
  rw [hvalues, hvalues, h.remains, List.map_map]
  rfl

end Scan

/-! ## What gaps say -/

namespace Document

/-- A document in which no line is skipped says what its tokens say. -/
theorem fragments_of_values {s s' : Bytes} (h : Accepts s)
    (hfailure : (Scan.ofSource s').failure = (Scan.ofSource s).failure)
    (hvalues : (Scan.ofSource s').values = (Scan.ofSource s).values) :
    fragments s' = fragments s := by
  obtain ⟨t, tokens, parts, ht, htokens, hsplits⟩ := exists_splits h
  obtain ⟨hnone, hread⟩ := Scan.ofSource_iff.mpr ⟨t, ht, htokens⟩
  obtain ⟨t', ht', htokens'⟩ :=
    Scan.ofSource_iff.mp ⟨hfailure.trans hnone, hvalues.trans hread⟩
  rw [fragments_of_splits ht htokens hsplits, fragments_of_splits ht' htokens' hsplits]

/-- A closed gap that is put in where a token begins changes no token: those in
    front stay where they are, and those behind come later by its length.  If the
    tokens could be read to the end they still can, and the fragments of a document
    in which no line is skipped are the same. -/
theorem gap_between {x w s : Bytes} (hw : ClosedGap w)
    (hstart : x.length ∈ ((Scan.ofSource (x ++ s)).placed (x ++ s)).map Prod.fst) :
    (Scan.ofSource (x ++ (w ++ s))).failure = (Scan.ofSource (x ++ s)).failure ∧
      (Scan.ofSource (x ++ (w ++ s))).placed (x ++ (w ++ s))
        = ((Scan.ofSource (x ++ s)).placed (x ++ s)).map (Scan.shift x.length w.length) ∧
      (Accepts (x ++ s) → fragments (x ++ (w ++ s)) = fragments (x ++ s)) := by
  obtain ⟨token, hmem⟩ := Scan.exists_mem_of_placed hstart
  have hextends := Scan.extends_ofSource hw hmem
  exact ⟨hextends.failure, hextends.placed,
    fun h => fragments_of_values h hextends.failure hextends.values⟩

/-- A gap that holds quotes, digits and a directive, in comments one of which is
    inside another. -/
def busyGap : Bytes :=
  asciiBytes "\x7b- \" 7 \x7b- map _ \"\" KUp [] -\x7d ' -\x7d-- -\x7d\n"

theorem closedGap_busyGap : ClosedGap busyGap := by
  have hcomment : BlockComment (asciiBytes "\x7b- \" 7 \x7b- map _ \"\" KUp [] -\x7d ' -\x7d") :=
    blockComment_iff.mpr (by decide)
  have hline : newline ∉ asciiBytes " -\x7d" := by decide
  exact .block hcomment (.line hline .nil)

/-- Between a number and the bracket right behind it, such a gap moves the list and
    changes nothing else. -/
theorem busyGap_behind_number :
    (Scan.ofSource (asciiBytes "map _ \"a\" KFun 5" ++ (busyGap ++ asciiBytes "[]"))).placed
        (asciiBytes "map _ \"a\" KFun 5" ++ (busyGap ++ asciiBytes "[]"))
      = [(0, .identifier "map"), (4, .identifier "_"), (6, .string "a"), (10, .identifier "KFun"),
          (15, .number 5), (55, .symbol openBracket), (56, .symbol closeBracket)] ∧
    fragments (asciiBytes "map _ \"a\" KFun 5" ++ (busyGap ++ asciiBytes "[]"))
      = [{ inputMap := [⟨none, [0x61], ⟨⟨"KFun", some (.int 5)⟩, []⟩⟩] }] := by
  have hplaced : (Scan.ofSource (asciiBytes "map _ \"a\" KFun 5[]")).placed
      (asciiBytes "map _ \"a\" KFun 5[]")
        = [(0, .identifier "map"), (4, .identifier "_"), (6, .string "a"),
            (10, .identifier "KFun"), (15, .number 5), (16, .symbol openBracket),
            (17, .symbol closeBracket)] := by decide +kernel
  have hfragments : fragments (asciiBytes "map _ \"a\" KFun 5[]")
      = [{ inputMap := [⟨none, [0x61], ⟨⟨"KFun", some (.int 5)⟩, []⟩⟩] }] := by decide +kernel
  have hsource : asciiBytes "map _ \"a\" KFun 5[]"
      = asciiBytes "map _ \"a\" KFun 5" ++ asciiBytes "[]" := by decide
  have haccepts : Accepts (asciiBytes "map _ \"a\" KFun 5[]") := by
    rw [Accepts, hfragments]
    decide
  rw [hsource] at hplaced hfragments haccepts
  have hgap := gap_between (x := asciiBytes "map _ \"a\" KFun 5") (s := asciiBytes "[]")
    closedGap_busyGap (by rw [hplaced]; decide)
  refine ⟨hgap.2.1.trans ?_, (hgap.2.2 haccepts).trans hfragments⟩
  rw [hplaced]
  decide

end Document

end TerminalConfig
