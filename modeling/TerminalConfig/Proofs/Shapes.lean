import TerminalConfig.Proofs.Attempts
import TerminalConfig.Proofs.Layout
import TerminalConfig.Proofs.Mismatches
import TerminalConfig.Shape.Declaration

/-! # Shapes — the language of a shape, and its reader

    The tokens that spell a value of a shape are written down as a grammar
    (`Shape.Spells`), one rule for each kind of shape.  The reader of a shape reads
    exactly that language (`Shape.recognizes_reader`), by induction on the shape: a
    list is recognized with its elements, an enumeration with its payloads.

    * `Shape.reader_language` says what this means for the tokens of a source: the
      reader succeeds exactly where some of the first tokens are in the language,
      these are the only ones that are, and it stops behind them.
    * If all tokens can be read, what is not in the language is a mismatch
      (`Shape.mismatches_reader`). -/

namespace TerminalConfig

namespace Shape

/-- The shape is filled in everywhere, and no enumeration in it names a variant
    twice. -/
inductive Proper : Shape → Prop
  | int : Proper .int
  | char : Proper .char
  | string : Proper .string
  | list {element : Shape} : Proper element → Proper (.list element)
  | enum {name : String} {variants : List (String × Option Shape)} :
      (variants.map Prod.fst).Nodup → (∀ found payload, (found, some payload) ∈ variants →
      Proper payload) → Proper (.enum name variants)

mutual

/-- The tokens that spell a value of the shape: a scalar is one token, a list is in
    brackets with commas between its elements, and an enumeration is the name of a
    variant with what follows it. -/
inductive Spells : Shape → List Token → Value → Prop
  | int (n : Nat) : Spells .int [.number n] (.int n)
  | char (c : CodePoint) : Spells .char [.char c] (.char c)
  | string (text : Text) : Spells .string [.string text] (.string text)
  | empty {element : Shape} :
      Spells (.list element) [.symbol openBracket, .symbol closeBracket] (.list [])
  | items {element : Shape} {tokens later : List Token} {v : Value} {vs : List Value} :
      Spells element tokens v → SpellsLater element later vs →
      Spells (.list element) (.symbol openBracket :: (tokens ++ (later ++ [.symbol closeBracket])))
        (.list (v :: vs))
  | enum {name found : String} {variants : List (String × Option Shape)} {payload : Option Shape}
      {later : List Token} {v : Option Value} : (found, payload) ∈ variants →
      SpellsRest payload later v →
      Spells (.enum name variants) (.identifier found :: later) (.variant found v)

/-- The elements after the first one, each behind a comma. -/
inductive SpellsLater : Shape → List Token → List Value → Prop
  | nil {element : Shape} : SpellsLater element [] []
  | cons {element : Shape} {tokens later : List Token} {v : Value} {vs : List Value} :
      Spells element tokens v → SpellsLater element later vs →
      SpellsLater element (.symbol comma :: (tokens ++ later)) (v :: vs)

/-- What follows the name of a variant: its payload, if it has one. -/
inductive SpellsRest : Option Shape → List Token → Option Value → Prop
  | none : SpellsRest none [] none
  | some {payload : Shape} {tokens : List Token} {v : Value} :
      Spells payload tokens v → SpellsRest (some payload) tokens (some v)

end

/-! ## The grammar -/

/-- A value takes a token at least, and does not start with the closing bracket. -/
theorem Spells.starts {shape : Shape} {tokens : List Token} {v : Value}
    (h : shape.Spells tokens v) :
    ∃ token later, tokens = token :: later ∧ token ≠ .symbol closeBracket := by
  cases h with
  | int n => exact ⟨_, _, rfl, by simp⟩
  | char c => exact ⟨_, _, rfl, by simp⟩
  | string text => exact ⟨_, _, rfl, by simp⟩
  | empty => exact ⟨_, _, rfl, by decide⟩
  | items _ _ => exact ⟨_, _, rfl, by decide⟩
  | enum _ _ => exact ⟨_, _, rfl, by simp⟩

theorem spellsLater_iff {element : Shape} {tokens : List Token} {vs : List Value} :
    SpellsLater element tokens vs ↔ SpellsElements element.Spells tokens vs := by
  induction vs generalizing tokens with
  | nil =>
      constructor
      · rintro ⟨⟩
        exact .nil
      · rintro ⟨⟩
        exact .nil
  | cons v vs ih =>
      constructor
      · intro h
        cases h with
        | cons hfirst hlater => exact .cons hfirst (ih.mp hlater)
      · intro h
        cases h with
        | cons hfirst hlater => exact .cons hfirst (ih.mpr hlater)

/-- A list is spelled with its elements. -/
theorem spells_list_iff {element : Shape} {tokens : List Token} {v : Value} :
    (list element).Spells tokens v ↔
      ∃ vs, SpellsList element.Spells tokens vs ∧ Value.list vs = v := by
  constructor
  · intro h
    cases h with
    | empty => exact ⟨_, .empty, rfl⟩
    | items hfirst hlater => exact ⟨_, .items hfirst (spellsLater_iff.mp hlater), rfl⟩
  · rintro ⟨vs, h, rfl⟩
    cases h with
    | empty => exact .empty
    | items hfirst hlater => exact .items hfirst (spellsLater_iff.mpr hlater)

/-! ## The reader -/

/-- What reads the rest of a variant, once its payload shape is known. -/
def restReader (found : String) : Option Shape → Reader Value
  | none => return .variant found none
  | some payload => (fun v => .variant found (some v)) <$> payload.reader

/-- The variants are a table that is looked up by name. -/
theorem readerOf_eq_lookup (variants : List (String × Option Shape)) (found : String) :
    readerOf variants found = (variants.lookup found).map (restReader found) := by
  induction variants with
  | nil => rw [readerOf, List.lookup_nil, Option.map_none]
  | cons first variants ih =>
      obtain ⟨name, payload⟩ := first
      by_cases hname : name = found
      · subst hname
        rw [List.lookup_cons, beq_self_eq_true]
        cases payload <;> rw [readerOf, if_pos rfl] <;> rfl
      · rw [List.lookup_cons, beq_false_of_ne (Ne.symm hname)]
        cases payload <;> rw [readerOf, if_neg hname, ih]

open Reader

/-- What follows the name of a variant is recognized with its payload. -/
theorem recognizes_restReader (found : String) {payload : Option Shape}
    (h : ∀ p, payload = some p → p.reader.Recognizes p.Spells) :
    (restReader found payload).Recognizes fun later v =>
      ∃ w, SpellsRest payload later w ∧ Value.variant found w = v := by
  cases payload with
  | none =>
      intro s t v
      constructor
      · intro hrun
        cases hrun
        exact ⟨[], ⟨none, .none, rfl⟩, .nil⟩
      · rintro ⟨tokens, ⟨w, hrest, rfl⟩, htokens⟩
        cases hrest
        cases htokens
        rfl
  | some p =>
      refine ((h p rfl).map fun v => Value.variant found (some v)).congr ?_
      intro tokens v
      constructor
      · rintro ⟨w, hspells, rfl⟩
        exact ⟨some w, .some hspells, rfl⟩
      · rintro ⟨w, hrest, rfl⟩
        cases hrest with
        | some hspells => exact ⟨_, hspells, rfl⟩

/-- The reader of an enumeration reads its language, if those of its payloads do. -/
theorem recognizes_enum {name : String} {variants : List (String × Option Shape)}
    (hnodup : (variants.map Prod.fst).Nodup)
    (h : ∀ found payload, (found, some payload) ∈ variants →
      payload.reader.Recognizes payload.Spells) :
    (enum name variants).reader.Recognizes (enum name variants).Spells := by
  -- in a table without repeated names, what is found is what is listed
  have hrest : ∀ found r, readerOf variants found = some r →
      r.Recognizes fun later v => ∃ payload, (found, payload) ∈ variants ∧
        ∃ w, SpellsRest payload later w ∧ Value.variant found w = v := by
    intro found r hr
    rw [readerOf_eq_lookup] at hr
    obtain ⟨payload, hfound, rfl⟩ := Option.map_eq_some_iff.mp hr
    have hmem := (lookup_eq_some_iff_mem hnodup).mp hfound
    have hpayload : ∀ p, payload = some p → p.reader.Recognizes p.Spells := by
      rintro p rfl
      exact h found p hmem
    refine (recognizes_restReader found hpayload).congr ?_
    intro later v
    constructor
    · exact fun hlater => ⟨payload, hmem, hlater⟩
    · rintro ⟨payload', hmem', hlater⟩
      rw [← lookup_eq_some_iff_mem hnodup, hfound] at hmem'
      cases hmem'
      exact hlater
  refine (recognizes_variant hrest).congr ?_
  intro tokens v
  constructor
  · rintro ⟨found, _, later, rfl, -, payload, hmem, w, hlater, rfl⟩
    exact .enum hmem hlater
  · intro h
    cases h with
    | @enum _ found _ payload later w hmem hlater =>
        refine ⟨found, restReader found payload, later, rfl, ?_, payload, hmem, w, hlater, rfl⟩
        rw [readerOf_eq_lookup, (lookup_eq_some_iff_mem hnodup).mpr hmem, Option.map_some]

/-- The reader of a shape reads the language of the shape. -/
theorem recognizes_reader {shape : Shape} (h : shape.Proper) :
    shape.reader.Recognizes shape.Spells := by
  induction h with
  | int =>
      refine ((recognizes_token tokenAt_number).map Value.int).congr ?_
      intro tokens v
      constructor
      · rintro ⟨n, rfl, rfl⟩
        exact .int n
      · intro h
        cases h with
        | int n => exact ⟨n, rfl, rfl⟩
  | char =>
      refine ((recognizes_token tokenAt_char).map Value.char).congr ?_
      intro tokens v
      constructor
      · rintro ⟨c, rfl, rfl⟩
        exact .char c
      · intro h
        cases h with
        | char c => exact ⟨c, rfl, rfl⟩
  | string =>
      refine ((recognizes_token tokenAt_string).map Value.string).congr ?_
      intro tokens v
      constructor
      · rintro ⟨text, rfl, rfl⟩
        exact .string text
      · intro h
        cases h with
        | string text => exact ⟨text, rfl, rfl⟩
  | list _ ih =>
      refine ((recognizes_list ih fun _ _ hspells => hspells.starts).map Value.list).congr ?_
      exact fun _ _ => spells_list_iff.symm
  | enum hnodup _ ih => exact recognizes_enum hnodup ih

/-- Where all tokens can be read, what the reader of a shape does not read is a
    token that does not fit. -/
theorem mismatches_reader {shape : Shape} (h : shape.Proper) : shape.reader.Mismatches := by
  induction h with
  | int => exact mismatches_natural.map _
  | char => exact mismatches_charLiteral.map _
  | string => exact mismatches_stringLiteral.map _
  | list hproper ih => exact (mismatches_list (recognizes_reader hproper) ih).map _
  | @enum name variants hnodup _ ih =>
      refine mismatches_variant name ?_
      intro found r hr
      rw [readerOf_eq_lookup] at hr
      obtain ⟨payload, hfound, rfl⟩ := Option.map_eq_some_iff.mp hr
      cases payload with
      | none =>
          intro s e _ herror
          cases herror
      | some p => exact (ih found p ((lookup_eq_some_iff_mem hnodup).mp hfound)).map _

end Shape

/-! ## Declared shapes -/

namespace Declaration

/-- What the declaration takes from elsewhere are proper shapes. -/
inductive Grounded : Declaration → Prop
  | scalar (kind : String) : Grounded (.scalar kind)
  | list {element : Declaration} : Grounded element → Grounded (.list element)
  | enum {name : String} {variants : List (String × Option Declaration)} :
      (∀ found payload, (found, some payload) ∈ variants → Grounded payload) →
      Grounded (.enum name variants)
  | made {shape : Shape} : shape.Proper → Grounded (.made shape)

/-- The payloads of the shapes are the shapes of the payloads. -/
theorem exists_of_mem_shapes {variants : List (String × Option Declaration)}
    {made : List (String × Option Shape)} (h : shapes variants = .ok made) {found : String}
    {payload : Shape} (hmem : (found, some payload) ∈ made) :
    ∃ d, (found, some d) ∈ variants ∧ d.shape = .ok payload := by
  induction variants generalizing made with
  | nil =>
      cases h
      exact absurd hmem List.not_mem_nil
  | cons first variants ih =>
      obtain ⟨name, none | d⟩ := first
      · obtain ⟨later, hlater, h⟩ := bind_eq_ok.mp h
        cases h
        rcases List.mem_cons.mp hmem with he | hmem
        · cases he
        · obtain ⟨d, hd, hshape⟩ := ih hlater hmem
          exact ⟨d, List.mem_cons_of_mem _ hd, hshape⟩
      · obtain ⟨shape, hshape, h⟩ := bind_eq_ok.mp h
        obtain ⟨later, hlater, h⟩ := bind_eq_ok.mp h
        cases h
        rcases List.mem_cons.mp hmem with he | hmem
        · cases he
          exact ⟨d, List.mem_cons_self, hshape⟩
        · obtain ⟨d', hd', hshape'⟩ := ih hlater hmem
          exact ⟨d', List.mem_cons_of_mem _ hd', hshape'⟩

/-- Whatever is declared is proper. -/
theorem proper_shape {d : Declaration} (h : d.Grounded) {shape : Shape}
    (hshape : d.shape = .ok shape) : shape.Proper := by
  induction h generalizing shape with
  | scalar kind =>
      rw [Declaration.shape] at hshape
      split at hshape
      · cases hshape
        exact .int
      split at hshape
      · cases hshape
        exact .char
      split at hshape
      · cases hshape
        exact .string
      · cases hshape
  | list _ ih =>
      obtain ⟨element, helement, hshape⟩ := bind_eq_ok.mp hshape
      cases hshape
      exact .list (ih helement)
  | enum _ ih =>
      obtain ⟨made, hmade, hshape⟩ := bind_eq_ok.mp hshape
      split at hshape
      · cases hshape
      · next hnone =>
        cases hshape
        refine .enum (firstRepeated?_eq_none.mp hnone).1 ?_
        intro found payload hmem
        obtain ⟨d, hd, hd'⟩ := exists_of_mem_shapes hmade hmem
        exact ih found d hd hd'
  | made hproper =>
      cases hshape
      exact hproper

end Declaration

/-! ## The tokens of a source -/

/-- Behind a token its gap is passed. -/
theorem TokenAt.settled_rest {s t : Bytes} {token : Token} (h : TokenAt s token t) : Settled t := by
  obtain ⟨_, _, -, hgap, -⟩ := h.hasCore
  exact settled_of_skipGap hgap

theorem Tokens.settled_rest {s t : Bytes} {tokens : List Token} (h : Tokens s tokens t)
    (hs : Settled s) : Settled t := by
  induction h with
  | nil => exact hs
  | cons htoken _ ih => exact ih htoken.settled_rest

namespace Scan

theorem ofSource_of_settled {s : Bytes} (hs : Settled s) : ofSource s = ofTokenStart s := by
  rw [ofSource, hs]

/-- The tokens of a source are those up to a place and those from there on. -/
theorem values_ofTokenStart {s t : Bytes} {tokens : List Token} (h : Tokens s tokens t) :
    (ofTokenStart s).values = tokens ++ (ofTokenStart t).values := by
  induction h with
  | nil => rfl
  | @cons s _ _ token _ htoken _ ih =>
      rw [ofTokenStart_of_token htoken]
      exact congrArg (token :: ·) ih

/-- The first tokens of a source are those that stand one after another from its
    start on. -/
theorem isPrefix_values {s : Bytes} {tokens : List Token} :
    tokens <+: (ofTokenStart s).values ↔ ∃ t, Tokens s tokens t := by
  constructor
  · intro h
    induction tokens generalizing s with
    | nil => exact ⟨s, .nil⟩
    | cons token tokens ih =>
        cases s with
        | nil =>
            rw [ofTokenStart] at h
            cases List.prefix_nil.mp h
        | cons b r =>
            rw [ofTokenStart] at h
            split at h
            · next found t hrun =>
              obtain ⟨rfl, hlater⟩ := List.cons_prefix_cons.mp h
              obtain ⟨u, hu⟩ := ih hlater
              exact ⟨u, .cons ⟨b, r, rfl, hrun⟩ hu⟩
            · cases List.prefix_nil.mp h
  · rintro ⟨t, h⟩
    exact ⟨_, (values_ofTokenStart h).symm⟩

end Scan

namespace Shape

/-- Where a value of the shape is read, no gap starts. -/
theorem settled_of_reader {shape : Shape} (h : shape.Proper) {s t : Bytes} {v : Value}
    (hrun : shape.reader.run s = .ok (v, t)) : Settled s := by
  obtain ⟨tokens, hspells, htokens⟩ := (recognizes_reader h).mp hrun
  obtain ⟨_, _, rfl, -⟩ := hspells.starts
  exact htokens.settled (List.cons_ne_nil _ _)

/-- The first tokens of a source in the language of the shape are all read by its
    reader, so there is one value and one sequence of tokens at most. -/
theorem unique_of_reader {shape : Shape} (h : shape.Proper) {s t : Bytes} {v : Value}
    (hrun : shape.reader.run s = .ok (v, t)) {tokens : List Token} {w : Value}
    (hspells : shape.Spells tokens w) (hfirst : tokens <+: (Scan.ofSource s).values) :
    Tokens s tokens t ∧ w = v := by
  rw [Scan.ofSource_of_settled (settled_of_reader h hrun)] at hfirst
  obtain ⟨u, hu⟩ := Scan.isPrefix_values.mp hfirst
  have hrun' := (recognizes_reader h).mpr ⟨tokens, hspells, hu⟩
  rw [hrun] at hrun'
  cases hrun'
  exact ⟨hu, rfl⟩

/-- From a place where going past the gap leads nowhere else, the reader of a shape
    reads exactly the language of the shape:

    * it succeeds where some first tokens of the source spell a value;
    * then these are the only ones, the value is the one they spell, and what is
      left are the later tokens, behind the gap of the last one;
    * where it does not succeed and all tokens can be read, the fault is a mismatch. -/
theorem reader_language {shape : Shape} (h : shape.Proper) {s : Bytes}
    (hs : ∀ t, skipGap s = .ok t → t = s) :
    ((∃ v t, shape.reader.run s = .ok (v, t)) ↔
      ∃ tokens v, shape.Spells tokens v ∧ tokens <+: (Scan.ofSource s).values) ∧
    (∀ v t, shape.reader.run s = .ok (v, t) →
      ∃ tokens, shape.Spells tokens v ∧ Tokens s tokens t ∧ Settled t ∧
        (Scan.ofSource s).values = tokens ++ (Scan.ofSource t).values ∧
        ∀ tokens' v', shape.Spells tokens' v' → tokens' <+: (Scan.ofSource s).values →
          tokens' = tokens ∧ v' = v) ∧
    ((Scan.ofSource s).failure = none →
      ∀ e, shape.reader.run s = .error e → e.fault.kind = .mismatch) := by
  refine ⟨⟨?_, ?_⟩, ?_, ?_⟩
  · rintro ⟨v, t, hrun⟩
    obtain ⟨tokens, hspells, htokens⟩ := (recognizes_reader h).mp hrun
    refine ⟨tokens, v, hspells, ?_⟩
    rw [Scan.ofSource_of_settled (settled_of_reader h hrun)]
    exact Scan.isPrefix_values.mpr ⟨t, htokens⟩
  · rintro ⟨tokens, v, hspells, hfirst⟩
    cases hgap : skipGap s with
    | error e =>
        -- a comment is open from the start on, and there are no tokens
        rw [Scan.ofSource, hgap] at hfirst
        obtain ⟨_, _, rfl, -⟩ := hspells.starts
        cases List.prefix_nil.mp hfirst
    | ok t =>
        have hsettled : Settled s := by
          rw [Settled, hgap, hs t hgap]
        rw [Scan.ofSource_of_settled hsettled] at hfirst
        obtain ⟨u, hu⟩ := Scan.isPrefix_values.mp hfirst
        exact ⟨v, u, (recognizes_reader h).mpr ⟨tokens, hspells, hu⟩⟩
  · intro v t hrun
    have hsettled := settled_of_reader h hrun
    obtain ⟨tokens, hspells, htokens⟩ := (recognizes_reader h).mp hrun
    have hrest := htokens.settled_rest hsettled
    refine ⟨tokens, hspells, htokens, hrest, ?_, ?_⟩
    · rw [Scan.ofSource_of_settled hsettled, Scan.ofSource_of_settled hrest]
      exact Scan.values_ofTokenStart htokens
    · intro tokens' v' hspells' hfirst
      obtain ⟨htokens', hv⟩ := unique_of_reader h hrun hspells' hfirst
      exact ⟨htokens'.unique htokens, hv⟩
  · intro hfailure e herror
    obtain ⟨t, hgap, htokens⟩ := Scan.ofSource_iff.mp ⟨hfailure, rfl⟩
    rw [hs t hgap] at htokens
    exact mismatches_reader h ⟨_, htokens⟩ herror

/-- A list of switches, each of them off, or on with numbers. -/
def switches : Shape :=
  .list (.enum "Switch" [("Off", none), ("On", some (.list .int))])

/-- Two switches are read in front of a bracket too many, and switches without a
    comma between them are a mismatch. -/
theorem switches_language :
    (∃ v t, switches.reader.run (asciiBytes "[On [1, 0x10]-- !\n, Off] ]") = .ok (v, t)) ∧
      ∀ e, switches.reader.run (asciiBytes "[Off Off]") = .error e → e.fault.kind = .mismatch := by
  have hproper : switches.Proper := by
    refine .list (.enum (by decide) ?_)
    intro found payload hmem
    simp only [List.mem_cons, Prod.mk.injEq, List.not_mem_nil, or_false, reduceCtorEq, and_false,
      Option.some.injEq, false_or] at hmem
    rw [hmem.2]
    exact .list .int
  have hsettled : ∀ r t : Bytes, skipGap (openBracket :: r) = .ok t → t = openBracket :: r := by
    intro r t h
    rw [settled_of_byte (by decide) (by decide) (by decide) r] at h
    exact (Except.ok.inj h).symm
  have hon : SpellsRest (some (.list .int)) [.symbol openBracket, .number 1, .symbol comma,
      .number 16, .symbol closeBracket] (some (.list [.int 1, .int 16])) :=
    .some (.items (.int 1) (.cons (.int 16) .nil))
  have hspells : switches.Spells [.symbol openBracket, .identifier "On", .symbol openBracket,
      .number 1, .symbol comma, .number 16, .symbol closeBracket, .symbol comma, .identifier "Off",
      .symbol closeBracket] _ :=
    .items (.enum (by simp) hon) (.cons (.enum (by simp) .none) .nil)
  constructor
  · refine (reader_language hproper (hsettled _)).1.mpr ⟨_, _, hspells, ?_⟩
    decide +kernel
  · exact (reader_language hproper (hsettled _)).2.2 (by decide +kernel)

end Shape

end TerminalConfig
