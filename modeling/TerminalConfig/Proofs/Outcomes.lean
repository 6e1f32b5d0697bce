import TerminalConfig.Proofs.CatalogShapes
import TerminalConfig.Proofs.Escapes

/-! # Outcomes — what the readers give, and what they fail with

    A reader fails over the text it reads, or because nothing says what to read
    (`Fault.noShape`).  A document is read on behind faults of the first sort; the
    second sort is none of the text, and reading would end there.

    `r.Meets Q` says that every value that `r` reads has the property `Q`, and that
    every fault of `r` is of the first sort.  It goes through sequencing and lists,
    so it is shown once for each place where a value or a fault is made.  Some
    readers return a fault as their value, to be placed where they began; they meet
    `OrOfText Q`, which says of that fault what is to be said of failures.

    * No escape is a surrogate (`Reader.meets_escape`), so no literal holds one, and
      every string that is read spells bytes (`Reader.payload?_of_stringLiteral`).
    * Only blank shapes have no reader, so a proper shape is read with faults of the
      text alone (`Shape.meets_reader`), and the keys and modifiers of a directive
      are read by proper shapes (`Reader.meets_mapDirective`). -/

namespace TerminalConfig

/-- The text holds no surrogate. -/
def Text.IsChars (t : Text) : Prop :=
  ∀ c ∈ t, ¬ c.isSurrogate

/-- The fault is a token that is malformed, or one that does not fit its place. -/
def Fault.IsOfText (fault : Fault) : Prop :=
  fault.kind = .lexical ∨ fault.kind = .mismatch

/-- The value has the property, or it is a fault of the text. -/
def OrOfText {α : Type} (Q : α → Prop) : Except Fault α → Prop
  | .ok a => Q a
  | .error fault => fault.IsOfText

/-- A number is read, or the fault is one of the text. -/
theorem orOfText_number (radix : Radix) (digits : Bytes) :
    OrOfText (fun _ => True) (radix.number digits) := by
  rw [Radix.number]
  split
  · exact Or.inl rfl
  · split
    · exact Or.inl rfl
    · trivial

/-- The number of an escape is refused where it is a surrogate's. -/
theorem orOfText_numericEscape (n : Nat) :
    OrOfText (fun c => ¬ c.isSurrogate) (numericEscape n) := by
  rw [numericEscape]
  split
  · split
    · exact Or.inl rfl
    · next hc => exact hc
  · exact Or.inl rfl

/-- A byte is no surrogate. -/
theorem not_isSurrogate_ofByte (b : UInt8) : ¬ (CodePoint.ofByte b).isSurrogate :=
  CodePoint.not_isSurrogate_of_lt (Nat.lt_trans b.toNat_lt (by decide))

/-- A letter or quote behind a backslash stands for a byte. -/
theorem exists_of_simpleEscape? {b : UInt8} {c : CodePoint} (h : simpleEscape? b = some c) :
    ∃ d, c = .ofByte d := by
  simp only [simpleEscape?] at h
  repeat' split at h
  all_goals cases h
  all_goals exact ⟨_, rfl⟩

namespace Reader

variable {α β : Type}

/-- The value that is read has the property, or the fault is of the text. -/
def Achieves (Q : α → Prop) : Except Failure (α × Bytes) → Prop
  | .ok (a, _) => Q a
  | .error e => e.fault.IsOfText

/-- Every value that `r` reads has the property, and every fault is of the text. -/
def Meets (r : Reader α) (Q : α → Prop) : Prop :=
  ∀ s, Achieves Q (r.run s)

/-- Every fault of `r` is of the text. -/
abbrev FaultsInText (r : Reader α) : Prop :=
  r.Meets fun _ => True

namespace Meets

variable {r : Reader α} {P : α → Prop} {Q : β → Prop}

theorem fault (h : r.Meets P) {s : Bytes} {e : Failure} (hrun : r.run s = .error e) :
    e.fault.IsOfText := by
  have := h s
  rwa [hrun] at this

theorem value (h : r.Meets P) {s t : Bytes} {a : α} (hrun : r.run s = .ok (a, t)) : P a := by
  have := h s
  rwa [hrun] at this

/-- What never fails has no fault but of the text. -/
theorem of_total (h : ∀ s, ∃ v, r.run s = .ok v) : r.FaultsInText := by
  intro s
  obtain ⟨v, hv⟩ := h s
  rw [hv]
  trivial

theorem pure {a : α} (h : P a) : (Pure.pure a : Reader α).Meets P :=
  fun _ => h

theorem fail {x : Fault} (h : x.IsOfText) : (Reader.fail x : Reader α).Meets P :=
  fun _ => h

theorem ahead : Reader.ahead.FaultsInText :=
  of_total fun _ => ⟨_, rfl⟩

theorem remaining : Reader.remaining.FaultsInText :=
  of_total fun _ => ⟨_, rfl⟩

theorem skip {jump : Bytes → Bytes} {hjump : ∀ s, jump s <:+ s} :
    (Reader.skip jump hjump).FaultsInText :=
  of_total fun _ => ⟨_, rfl⟩

theorem takeWhile (p : UInt8 → Bool) : (Reader.takeWhile p).FaultsInText :=
  of_total fun _ => ⟨_, rfl⟩

/-- A sequence meets what its last reader does, given what the first one meets. -/
theorem bind {next : α → Reader β} (h : r.Meets P) (h' : ∀ a, P a → (next a).Meets Q) :
    (r >>= next).Meets Q := by
  intro s
  cases hr : r.run s with
  | error e =>
      rw [run_bind_of_error hr]
      exact h.fault hr
  | ok v =>
      rw [run_bind_of_ok (a := v.1) (t := v.2) hr]
      exact h' v.1 (h.value hr) v.2

/-- A sequence meets what its last reader does, whatever comes before. -/
theorem behind {next : α → Reader β} (h : r.Meets P) (h' : ∀ a, (next a).Meets Q) :
    (r >>= next).Meets Q :=
  h.bind fun a _ => h' a

theorem map (f : α → β) (h : r.Meets P) : (f <$> r).FaultsInText :=
  h.behind fun _ => .pure trivial

/-- What is made of a value has no part in the faults. -/
theorem of_map {f : α → β} (h : (f <$> r).FaultsInText) : r.FaultsInText := by
  intro s
  have hmap := h s
  rw [run_map] at hmap
  cases hr : r.run s with
  | ok v => trivial
  | error e =>
      rw [hr] at hmap
      exact hmap

/-- A fault that is returned becomes a failure. -/
theorem fromStart {r : Reader (Except Fault α)} (h : r.Meets (OrOfText P)) :
    (Reader.fromStart r).Meets P := by
  intro s
  cases hrun : (Reader.fromStart r).run s with
  | ok v => exact h.value (a := .ok v.1) (run_fromStart_eq_ok.mp hrun)
  | error e =>
      rcases run_fromStart_eq_error hrun with hr | ⟨x, t, hr, rfl⟩
      · exact h.fault hr
      · exact h.value hr

/-- A gap fails over an open comment only. -/
theorem gap : Reader.gap.FaultsInText := by
  intro s
  rw [run_gap]
  cases hs : skipGap s with
  | ok t => trivial
  | error e =>
      show e.fault.IsOfText
      rw [(skipGap_eq_error hs).1]
      exact Or.inl rfl

/-- The gap behind a token does not change it. -/
theorem lexeme (h : r.Meets P) : (Reader.lexeme r).Meets P :=
  h.bind fun _ ha => gap.behind fun _ => .pure ha

end Meets

/-! ## Tokens -/

theorem meets_numeral (radix : Radix) : (numeral radix).FaultsInText :=
  .fromStart ((Meets.takeWhile _).behind fun _ => .pure (orOfText_number radix _))

theorem meets_natural : natural.FaultsInText := by
  have hmark : radixMark.FaultsInText := by
    refine Meets.remaining.behind fun s => ?_
    dsimp only
    split
    · exact Meets.skip.behind fun _ => Meets.skip.behind fun _ => .pure trivial
    · exact .pure trivial
  refine Meets.ahead.behind fun next => ?_
  split
  · exact .lexeme (hmark.behind fun radix => meets_numeral radix)
  · exact .fail (Or.inr rfl)

/-- No escape is a surrogate. -/
theorem meets_escapeBody : escapeBody.Meets (OrOfText fun c => ¬ c.isSurrogate) := by
  refine Meets.remaining.behind fun s => ?_
  split
  · exact .pure (Or.inl rfl)
  split
  · next hsimple =>
    obtain ⟨d, rfl⟩ := exists_of_simpleEscape? hsimple
    exact Meets.skip.behind fun _ => .pure (not_isSurrogate_ofByte d)
  split
  · exact (meets_numeral _).behind fun _ => .pure (orOfText_numericEscape _)
  split
  · exact Meets.skip.behind fun _ => (meets_numeral _).behind fun _ =>
      .pure (orOfText_numericEscape _)
  split
  · exact Meets.skip.behind fun _ => (meets_numeral _).behind fun _ =>
      .pure (orOfText_numericEscape _)
  split
  · split
    · next hcontrol =>
      obtain ⟨b, -, hb⟩ := Option.bind_eq_some_iff.mp hcontrol
      obtain ⟨-, -, rfl⟩ := controlEscape?_eq_some.mp hb
      exact Meets.skip.behind fun _ => Meets.skip.behind fun _ => .pure (not_isSurrogate_ofByte _)
    · exact .pure (Or.inl rfl)
  split
  · exact Meets.skip.behind fun _ => .pure (not_isSurrogate_ofByte _)
  · exact .pure (Or.inl rfl)

theorem meets_escape : escape.Meets fun c => ¬ c.isSurrogate :=
  .fromStart (Meets.skip.behind fun _ => meets_escapeBody)

theorem meets_charBody : charBody.Meets (OrOfText fun c => ¬ c.isSurrogate) := by
  refine Meets.ahead.behind fun next => ?_
  split
  · exact .pure (Or.inl rfl)
  split
  · exact meets_escape.bind fun _ hc => .pure hc
  split
  · exact Meets.skip.behind fun _ => .pure (not_isSurrogate_ofByte _)
  · exact .pure (Or.inl rfl)

/-- A character that is read is no surrogate. -/
theorem meets_charLiteral : charLiteral.Meets fun c => ¬ c.isSurrogate := by
  have hquoted : quotedChar.Meets fun c => ¬ c.isSurrogate := by
    refine .fromStart (Meets.skip.behind fun _ => meets_charBody.bind fun c hc => ?_)
    split
    · exact .pure hc
    refine Meets.ahead.behind fun next => ?_
    split
    · exact Meets.skip.behind fun _ => .pure hc
    · exact .pure (Or.inl rfl)
  refine Meets.ahead.behind fun next => ?_
  split
  · exact hquoted.lexeme
  · exact .fail (Or.inr rfl)

/-- What an item of a string adds is no surrogate. -/
theorem meets_stringItem : stringItem.Meets fun item => ∀ c ∈ item, ¬ c.isSurrogate := by
  have hnothing : ∀ c : CodePoint, c ∈ none → ¬ c.isSurrogate :=
    fun c hc => absurd hc (Option.not_mem_none c)
  have hsome : ∀ d : CodePoint, ¬ d.isSurrogate → ∀ c ∈ some d, ¬ c.isSurrogate := by
    intro d hd c hc
    rwa [← Option.some.inj hc]
  refine Meets.remaining.behind fun s => ?_
  split
  · exact .pure hnothing
  split
  · split
    · exact .fail (Or.inl rfl)
    · exact Meets.skip.behind fun _ => .pure (hsome _ (not_isSurrogate_ofByte _))
  split
  · exact Meets.skip.behind fun _ => Meets.skip.behind fun _ => .pure hnothing
  split
  · refine Meets.skip.behind fun _ => (Meets.takeWhile _).behind fun _ =>
      Meets.ahead.behind fun next => ?_
    split
    · exact Meets.skip.behind fun _ => .pure hnothing
    · exact .fail (Or.inl rfl)
  · exact meets_escape.bind fun c hc => .pure (hsome c hc)

/-- The items of a string fail in one of them, or because nothing closes them. -/
theorem meets_stringItems : stringItems.Meets (OrOfText Text.IsChars) := by
  intro s
  show Achieves _ (readItems s)
  fun_induction readItems s with
  | case1 => exact Or.inl rfl
  | case2 => exact fun _ hc => absurd hc List.not_mem_nil
  | case3 a r _ e' he => exact meets_stringItem.fault he
  | case4 a r _ item u hu _ text w hw ih =>
      have hitem := meets_stringItem.value hu
      have hlater : text.IsChars := by
        rw [hw] at ih
        exact ih
      intro c hc
      rcases List.mem_append.mp hc with hc | hc
      · exact hitem c (Option.mem_toList.mp hc)
      · exact hlater c hc
  | case5 a r _ item u hu _ _ ih => exact ih

/-- A string that is read holds no surrogate. -/
theorem meets_stringLiteral : stringLiteral.Meets Text.IsChars := by
  have hquoted : quotedString.Meets Text.IsChars :=
    .fromStart (Meets.skip.behind fun _ => meets_stringItems)
  refine Meets.ahead.behind fun next => ?_
  split
  · exact hquoted.lexeme
  · exact .fail (Or.inr rfl)

/-- A string that is read spells bytes. -/
theorem payload?_of_stringLiteral {s t : Bytes} {text : Text}
    (h : stringLiteral.run s = .ok (text, t)) : text.payload? = some text.payload := by
  have hchars := meets_stringLiteral.value h
  have hany : ¬ text.any CodePoint.isSurrogate := by
    rw [List.any_eq_true]
    rintro ⟨c, hc, hsurrogate⟩
    exact hchars c hc hsurrogate
  rw [Text.payload?, if_neg hany]

theorem meets_identifier : identifier.FaultsInText := by
  have hbytes : identifierBytes.FaultsInText := by
    refine Meets.ahead.behind fun next => ?_
    split
    · exact .takeWhile _
    · exact .fail (Or.inr rfl)
  exact hbytes.lexeme.map _

theorem meets_symbol (text : String) : (symbol text).FaultsInText := by
  refine .lexeme (Meets.remaining.behind fun s => ?_)
  split
  · exact Meets.skip.behind fun _ => .pure trivial
  · exact .fail (Or.inr rfl)

/-! ## Variants and lists -/

section Composite

variable {r : Reader α}

/-- A name that is not known is a fault of the text. -/
theorem meets_variant (enumeration : String) {next : String → Option (Reader α)}
    (h : ∀ name r, next name = some r → r.FaultsInText) :
    (variant enumeration next).FaultsInText := by
  refine Meets.bind (P := fun payload => payload.FaultsInText) ?_ fun _ hpayload => hpayload
  refine .fromStart (meets_identifier.behind fun name => ?_)
  split
  · next r hr => exact .pure (h name r hr)
  · exact .pure (Or.inr rfl)

theorem meets_elements (h : r.FaultsInText) : (elements r).FaultsInText := by
  intro s
  show Achieves _ (readElements r s)
  -- a comma, an element or the elements behind it can fail
  fun_induction readElements r s with
  | case1 s _ e' he => exact (meets_symbol ",").fault he
  | case2 s _ _ u hu _ e' he => exact h.fault he
  | case3 s _ _ u hu _ a v hv _ e' he ih =>
      rw [he] at ih
      exact ih
  | case4 => trivial
  | case5 => trivial

theorem meets_list (h : r.FaultsInText) : (list r).FaultsInText := by
  have hitems : (listItems r).FaultsInText := by
    refine Meets.ahead.behind fun next => ?_
    split
    · exact .pure trivial
    · exact h.behind fun first => (meets_elements h).behind fun later => .pure trivial
  exact (meets_symbol "[").behind fun _ => hitems.behind fun items =>
    (meets_symbol "]").behind fun _ => .pure trivial

end Composite

end Reader

/-! ## Shapes and directives -/

open Reader

/-- A shape that is filled in everywhere is read, or the text does not fit it. -/
theorem Shape.meets_reader {shape : Shape} (h : shape.Proper) : shape.reader.FaultsInText := by
  induction h with
  | int => exact meets_natural.map _
  | char => exact meets_charLiteral.map _
  | string => exact meets_stringLiteral.map _
  | list _ ih => exact (meets_list ih).map _
  | @enum name variants hnodup _ ih =>
      refine meets_variant name fun found r hr => ?_
      rw [readerOf_eq_lookup] at hr
      obtain ⟨payload, hfound, rfl⟩ := Option.map_eq_some_iff.mp hr
      cases payload with
      | none => exact .pure trivial
      | some payload => exact (ih found payload ((lookup_eq_some_iff_mem hnodup).mp hfound)).map _

namespace Reader

theorem meets_key : Key.reader.FaultsInText :=
  .of_map (Key.reader_shape ▸ Shape.meets_reader Key.proper_shape)

theorem meets_modifiers : Modifier.listReader.FaultsInText :=
  .of_map (Modifier.reader_listShape ▸ Shape.meets_reader Modifier.proper_listShape)

theorem meets_keyword (expected : String) : (keyword expected).FaultsInText := by
  refine .fromStart (meets_identifier.behind fun found => ?_)
  split
  · exact .pure trivial
  · exact .pure (Or.inr rfl)

theorem meets_mapDirective : mapDirective.FaultsInText := by
  have hterm : terminalFilter.FaultsInText := by
    refine Meets.ahead.behind fun next => ?_
    split
    · exact Meets.skip.lexeme.behind fun _ => .pure trivial
    · exact meets_stringLiteral.behind fun _ => .pure trivial
  exact (meets_keyword _).behind fun _ => hterm.behind fun term =>
    meets_stringLiteral.behind fun data => meets_key.behind fun key =>
      meets_modifiers.behind fun modifiers => .pure trivial

theorem meets_debugLogDirective : debugLogDirective.FaultsInText :=
  (meets_keyword _).behind fun _ => meets_stringLiteral.behind fun _ => .pure trivial

end Reader

end TerminalConfig
