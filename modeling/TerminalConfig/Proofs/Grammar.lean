import TerminalConfig.Proofs.Directives
import TerminalConfig.Proofs.TokenStream

/-! # The grammar — which tokens spell which value

    A reader recognizes a relation between tokens and values when it reads a
    value exactly where tokens stand that spell it, and stops behind them.
    The relations are written down without any reader:

    * a list is bracketed, its elements are separated by commas
      (`SpellsList`); it is recognized with any element that is recognized and
      does not start with the closing bracket (`recognizes_list`);
    * a variant is its name and what its payload needs (`SpellsKey`,
      `SpellsModifier`);
    * a directive is its keyword and its parts (`Directive.Spells`).

    The filter in front of the bytes of an entry is the one place where the
    readers do not go by tokens: `_` is taken as a single byte.  Together with
    the string that has to follow, it is recognized all the same
    (`run_terminalFilter_string`). -/

namespace TerminalConfig

/-! ## Relations between tokens and values -/

/-- Elements, each behind a comma. -/
inductive SpellsElements {α : Type} (G : List Token → α → Prop) : List Token → List α → Prop
  | nil : SpellsElements G [] []
  | cons {tokens later : List Token} {a : α} {as : List α} : G tokens a →
      SpellsElements G later as →
      SpellsElements G (.symbol comma :: (tokens ++ later)) (a :: as)

/-- A bracketed list. -/
inductive SpellsList {α : Type} (G : List Token → α → Prop) : List Token → List α → Prop
  | empty : SpellsList G [.symbol openBracket, .symbol closeBracket] []
  | items {tokens later : List Token} {a : α} {as : List α} : G tokens a →
      SpellsElements G later as →
      SpellsList G (.symbol openBracket :: (tokens ++ (later ++ [.symbol closeBracket]))) (a :: as)

/-- What follows the name of a key. -/
inductive SpellsPayload : Option PayloadKind → List Token → Option KeyPayload → Prop
  | none : SpellsPayload none [] none
  | char (c : CodePoint) : SpellsPayload (some .char) [.char c] (some (.char c))
  | int (n : Nat) : SpellsPayload (some .int) [.number n] (some (.int n))

/-- A key of the catalog, with the payload that its name needs. -/
inductive SpellsKey : List Token → Key → Prop
  | intro {name : String} {kind : Option PayloadKind} {tokens : List Token}
      {payload : Option KeyPayload} : (name, kind) ∈ Key.catalog →
      SpellsPayload kind tokens payload → SpellsKey (.identifier name :: tokens) ⟨name, payload⟩

/-- A modifier of the catalog. -/
inductive SpellsModifier : List Token → Modifier → Prop
  | intro {name : String} : name ∈ Modifier.catalog → SpellsModifier [.identifier name] ⟨name⟩

/-- The terminals that an entry is for. -/
inductive SpellsTerminal : List Token → Option Text → Prop
  | every : SpellsTerminal [.identifier "_"] none
  | named (text : Text) : SpellsTerminal [.string text] (some text.payloadText)

/-- A directive. -/
inductive Directive.Spells : List Token → Directive → Prop
  | map {terminal keys list : List Token} {term : Option Text} (data : Text) {key : Key}
      {modifiers : List Modifier} : SpellsTerminal terminal term → SpellsKey keys key →
      SpellsList SpellsModifier list modifiers →
      Spells (.identifier "map" :: (terminal ++ .string data :: (keys ++ list)))
        (.map ⟨term, data.payload, ⟨key, modifiers⟩⟩)
  | debugLog (path : Text) :
      Spells [.identifier "debugLog", .string path] (.debugLog path.payloadText)

/-- The reader reads a value exactly where tokens stand that spell it. -/
def Reader.Recognizes {α : Type} (r : Reader α) (G : List Token → α → Prop) : Prop :=
  ∀ ⦃s t : Bytes⦄ ⦃a : α⦄, r.run s = .ok (a, t) ↔ ∃ tokens, G tokens a ∧ Tokens s tokens t

namespace Reader

variable {α β : Type}

/-- A reader recognizes what is the same language. -/
theorem Recognizes.congr {r : Reader α} {G G' : List Token → α → Prop} (h : r.Recognizes G)
    (hG : ∀ tokens a, G tokens a ↔ G' tokens a) : r.Recognizes G' := by
  intro s t a
  rw [h]
  exact exists_congr fun tokens => and_congr_left' (hG tokens a)

/-- What is made of a value is recognized with it. -/
theorem Recognizes.map {r : Reader α} {G : List Token → α → Prop} (f : α → β)
    (h : r.Recognizes G) :
    (f <$> r).Recognizes fun tokens b => ∃ a, G tokens a ∧ f a = b := by
  intro s t b
  rw [run_map_eq_ok]
  constructor
  · rintro ⟨a, ha, rfl⟩
    obtain ⟨tokens, hG, htokens⟩ := h.mp ha
    exact ⟨tokens, ⟨a, hG, rfl⟩, htokens⟩
  · rintro ⟨tokens, ⟨a, hG, rfl⟩, htokens⟩
    exact ⟨a, h.mpr ⟨tokens, hG, htokens⟩, rfl⟩

/-- The reader of one kind of token recognizes it. -/
theorem recognizes_token {r : Reader α} {f : α → Token}
    (h : ∀ {s t a}, TokenAt s (f a) t ↔ r.run s = .ok (a, t)) :
    r.Recognizes fun tokens a => tokens = [f a] := by
  intro s t a
  rw [← h, ← tokens_singleton]
  constructor
  · exact fun htokens => ⟨_, rfl, htokens⟩
  · rintro ⟨tokens, rfl, htokens⟩
    exact htokens

end Reader

/-! ## Lists -/

/-- A symbol is read where its token stands. -/
theorem Reader.run_symbol_iff {text : String} {b : UInt8} (htext : text = latinString [b])
    (hb : isSymbol b) {s t : Bytes} :
    (∃ v, (symbol text).run s = .ok (v, t)) ↔ TokenAt s (.symbol b) t := by
  rw [tokenAt_symbol, htext]
  constructor
  · rintro ⟨v, h⟩
    exact ⟨hb, (run_symbol_eq_ok.mp h).2⟩
  · rintro ⟨-, h⟩
    exact ⟨_, run_symbol_eq_ok.mpr ⟨rfl, h⟩⟩

/-- No other token stands where a symbol does. -/
theorem TokenAt.eq_symbol {s t : Bytes} {b : UInt8} {token : Token} (h : TokenAt s token t)
    (hs : s.head? = some b) (hb : isSymbol b) : token = .symbol b := by
  obtain ⟨c, r, rfl, hrun⟩ := h
  obtain rfl := Option.some.inj hs
  rw [Reader.token_of_isSymbol hb] at hrun
  obtain ⟨_, -, he⟩ := Reader.run_map_eq_ok.mp hrun
  exact he.symm

/-- A symbol stands where its byte does. -/
theorem TokenAt.head?_symbol {s t : Bytes} {b : UInt8} (h : TokenAt s (.symbol b) t) :
    s.head? = some b := by
  obtain ⟨-, g, rfl, -⟩ := tokenAt_symbol.mp h
  rfl

section Lists

variable {α : Type} {element : Reader α} {G : List Token → α → Prop}

/-- Elements are read as long as commas follow. -/
theorem readElements_iff (h : element.Recognizes G) {s t : Bytes} {as : List α} :
    readElements element s = .ok (as, t) ↔
      t.head? ≠ some comma ∧ ∃ tokens, SpellsElements G tokens as ∧ Tokens s tokens t := by
  induction as generalizing s with
  | nil =>
      rw [readElements_eq_nil]
      constructor
      · rintro ⟨hs, rfl⟩
        exact ⟨hs, [], .nil, .nil⟩
      · rintro ⟨ht, tokens, hspells, htokens⟩
        cases hspells
        cases htokens
        exact ⟨ht, rfl⟩
  | cons a as ih =>
      rw [readElements_eq_cons]
      constructor
      · rintro ⟨-, v, u, w, hcomma, ha, has⟩
        have htoken := (Reader.run_symbol_iff (b := comma) (by decide) (by decide)).mp ⟨v, hcomma⟩
        obtain ⟨first, hfirst, hu⟩ := h.mp ha
        obtain ⟨ht, later, hlater, hw⟩ := ih.mp has
        exact ⟨ht, _, .cons hfirst hlater, .cons htoken (tokens_append.mpr ⟨w, hu, hw⟩)⟩
      · rintro ⟨ht, tokens, hspells, htokens⟩
        cases hspells with
        | cons hfirst hlater =>
            obtain ⟨u, htoken, hrest⟩ := tokens_cons.mp htokens
            obtain ⟨w, hu, hw⟩ := tokens_append.mp hrest
            obtain ⟨v, hcomma⟩ : ∃ v, (Reader.symbol ",").run s = .ok (v, u) :=
              (Reader.run_symbol_iff (by decide) (by decide)).mpr htoken
            exact ⟨htoken.head?_symbol, v, u, w, hcomma, h.mpr ⟨_, hfirst, hu⟩,
              ih.mpr ⟨ht, _, hlater, hw⟩⟩

namespace Reader

/-- Nothing is read between brackets exactly where the list is closed. -/
theorem run_listItems_of_close {s : Bytes} (h : s.head? = some closeBracket) :
    (listItems element).run s = .ok ([], s) := by
  rw [listItems, run_bind_of_ok (run_ahead s), if_pos h]
  rfl

/-- Else there is an element, and the ones after it. -/
theorem run_listItems_eq_ok {s t : Bytes} {as : List α} (h : s.head? ≠ some closeBracket) :
    (listItems element).run s = .ok (as, t) ↔
      ∃ a later u, as = a :: later ∧ element.run s = .ok (a, u) ∧
        readElements element u = .ok (later, t) := by
  rw [listItems, run_bind_of_ok (run_ahead s), if_neg h, run_bind_eq_ok]
  constructor
  · rintro ⟨a, u, ha, hlater⟩
    obtain ⟨later, v, hread, hv⟩ := run_bind_eq_ok.mp hlater
    cases hv
    exact ⟨a, later, u, rfl, ha, hread⟩
  · rintro ⟨a, later, u, rfl, ha, hread⟩
    exact ⟨a, u, ha, run_bind_eq_ok.mpr ⟨later, t, hread, rfl⟩⟩

/-- A list is its items between two brackets. -/
theorem run_list_eq_ok {s t : Bytes} {as : List α} :
    (list element).run s = .ok (as, t) ↔
      ∃ u w, TokenAt s (.symbol openBracket) u ∧ (listItems element).run u = .ok (as, w) ∧
        TokenAt w (.symbol closeBracket) t := by
  have hopen {s t : Bytes} : (∃ v, (symbol "[").run s = .ok (v, t)) ↔ _ :=
    run_symbol_iff (b := openBracket) (by decide) (by decide)
  have hclose {s t : Bytes} : (∃ v, (symbol "]").run s = .ok (v, t)) ↔ _ :=
    run_symbol_iff (b := closeBracket) (by decide) (by decide)
  rw [list, run_bind_eq_ok]
  constructor
  · rintro ⟨v, u, hv, h⟩
    obtain ⟨items, w, hitems, h⟩ := run_bind_eq_ok.mp h
    obtain ⟨v', t', hv', h⟩ := run_bind_eq_ok.mp h
    cases h
    exact ⟨u, w, hopen.mp ⟨v, hv⟩, hitems, hclose.mp ⟨v', hv'⟩⟩
  · rintro ⟨u, w, htoken, hitems, htoken'⟩
    obtain ⟨v, hv⟩ := hopen.mpr htoken
    obtain ⟨v', hv'⟩ := hclose.mpr htoken'
    exact ⟨v, u, hv, run_bind_eq_ok.mpr ⟨as, w, hitems, run_bind_eq_ok.mpr ⟨v', t, hv', rfl⟩⟩⟩

/-- A list is recognized with its elements, if none of them can be taken for
    the closing bracket. -/
theorem recognizes_list (h : element.Recognizes G)
    (hstart : ∀ tokens a, G tokens a →
      ∃ token later, tokens = token :: later ∧ token ≠ .symbol closeBracket) :
    (list element).Recognizes (SpellsList G) := by
  intro s t as
  rw [run_list_eq_ok]
  constructor
  · rintro ⟨u, w, hopen, hitems, hclose⟩
    by_cases hu : u.head? = some closeBracket
    · rw [run_listItems_of_close hu] at hitems
      cases hitems
      exact ⟨_, .empty, .cons hopen (.cons hclose .nil)⟩
    · obtain ⟨a, later, v, rfl, ha, hread⟩ := (run_listItems_eq_ok hu).mp hitems
      obtain ⟨first, hfirst, hv⟩ := h.mp ha
      obtain ⟨-, rest, hrest, hw⟩ := (readElements_iff h).mp hread
      refine ⟨_, .items hfirst hrest, .cons hopen (tokens_append.mpr ⟨v, hv, ?_⟩)⟩
      exact tokens_append.mpr ⟨w, hw, .cons hclose .nil⟩
  · rintro ⟨tokens, hspells, htokens⟩
    cases hspells with
    | empty =>
        obtain ⟨u, hopen, hrest⟩ := tokens_cons.mp htokens
        have hclose := tokens_singleton.mp hrest
        exact ⟨u, u, hopen, run_listItems_of_close hclose.head?_symbol, hclose⟩
    | items hfirst hlater =>
        obtain ⟨u, hopen, hrest⟩ := tokens_cons.mp htokens
        obtain ⟨v, hu, hrest⟩ := tokens_append.mp hrest
        obtain ⟨w, hv, hrest⟩ := tokens_append.mp hrest
        have hclose := tokens_singleton.mp hrest
        refine ⟨u, w, hopen, (run_listItems_eq_ok ?_).mpr ⟨_, _, v, rfl, ?_, ?_⟩, hclose⟩
        · -- the reader looks for the closing bracket before it looks for an element
          intro hhead
          obtain ⟨token, later, rfl, hne⟩ := hstart _ _ hfirst
          obtain ⟨_, htoken, -⟩ := tokens_cons.mp hu
          exact hne (htoken.eq_symbol hhead (by decide))
        · exact h.mpr ⟨_, hfirst, hu⟩
        · refine (readElements_iff h).mpr ⟨?_, _, hlater, hv⟩
          rw [hclose.head?_symbol]
          decide

end Reader

end Lists

/-! ## Variants -/

namespace Reader

variable {α : Type}

theorem run_variant_eq_ok {enumeration : String} {next : String → Option (Reader α)} {s t : Bytes}
    {a : α} :
    (variant enumeration next).run s = .ok (a, t) ↔
      ∃ name r u, identifier.run s = .ok (name, u) ∧ next name = some r ∧ r.run u = .ok (a, t) := by
  rw [variant, run_bind_eq_ok]
  constructor
  · rintro ⟨r, u, hr, ha⟩
    obtain ⟨name, v, hname, hr⟩ := run_bind_eq_ok.mp (run_fromStart_eq_ok.mp hr)
    split at hr
    · next hnext =>
      cases hr
      exact ⟨name, r, u, hname, hnext, ha⟩
    · cases hr
  · rintro ⟨name, r, u, hname, hnext, ha⟩
    refine ⟨r, u, run_fromStart_eq_ok.mpr (run_bind_eq_ok.mpr ⟨name, u, hname, ?_⟩), ha⟩
    simp only [hnext, run_pure]

/-- A variant is recognized with what follows its name. -/
theorem recognizes_variant {enumeration : String} {next : String → Option (Reader α)}
    {G : String → List Token → α → Prop}
    (h : ∀ name r, next name = some r → r.Recognizes (G name)) :
    (variant enumeration next).Recognizes fun tokens a =>
      ∃ name r later, tokens = .identifier name :: later ∧ next name = some r ∧ G name later a := by
  intro s t a
  rw [run_variant_eq_ok]
  constructor
  · rintro ⟨name, r, u, hname, hnext, ha⟩
    obtain ⟨later, hlater, hu⟩ := (h name r hnext).mp ha
    exact ⟨_, ⟨name, r, later, rfl, hnext, hlater⟩, .cons (tokenAt_identifier.mpr hname) hu⟩
  · rintro ⟨tokens, ⟨name, r, later, rfl, hnext, hlater⟩, htokens⟩
    obtain ⟨u, hname, hu⟩ := tokens_cons.mp htokens
    exact ⟨name, r, u, tokenAt_identifier.mp hname, hnext, (h name r hnext).mpr ⟨_, hlater, hu⟩⟩

/-- A payload is recognized. -/
theorem recognizes_payload (kind : PayloadKind) :
    kind.reader.Recognizes fun tokens payload =>
      SpellsPayload (some kind) tokens (some payload) := by
  cases kind with
  | char =>
      refine ((recognizes_token tokenAt_char).map KeyPayload.char).congr ?_
      intro tokens payload
      constructor
      · rintro ⟨c, rfl, rfl⟩
        exact .char c
      · intro h
        cases h with
        | char c => exact ⟨c, rfl, rfl⟩
  | int =>
      refine ((recognizes_token tokenAt_number).map fun n => KeyPayload.int (Int.ofNat n)).congr ?_
      intro tokens payload
      constructor
      · rintro ⟨n, rfl, rfl⟩
        exact .int n
      · intro h
        cases h with
        | int n => exact ⟨n, rfl, rfl⟩

end Reader

/-- In a table without repeated names, what is found is what is listed. -/
theorem lookup_eq_some_iff_mem {β : Type} {table : List (String × β)}
    (h : (table.map Prod.fst).Nodup) {name : String} {b : β} :
    table.lookup name = some b ↔ (name, b) ∈ table := by
  induction table with
  | nil => simp
  | cons p table ih =>
      obtain ⟨first, b'⟩ := p
      rw [List.map_cons, List.nodup_cons] at h
      rw [List.lookup_cons, List.mem_cons]
      by_cases hname : name = first
      · subst hname
        rw [beq_self_eq_true]
        constructor
        · intro hb
          exact Or.inl (by rw [Option.some.inj hb])
        · rintro (hb | hmem)
          · rw [(Prod.mk.inj hb).2]
          · exact absurd (List.mem_map_of_mem hmem) h.1
      · rw [beq_false_of_ne hname, ih h.2]
        constructor
        · exact Or.inr
        · rintro (hb | hmem)
          · exact absurd (Prod.mk.inj hb).1 hname
          · exact hmem

theorem nodup_keys : (Key.catalog.map Prod.fst).Nodup := by
  decide

namespace Reader

/-- What follows the name of a key is recognized: the catalog says what it is. -/
theorem recognizes_readerOf {name : String} {r : Reader Key} (hr : Key.readerOf name = some r) :
    r.Recognizes fun tokens key => ∃ kind payload, Key.catalog.lookup name = some kind ∧
      SpellsPayload kind tokens payload ∧ key = ⟨name, payload⟩ := by
  intro s t key
  obtain ⟨kind, hkind, rfl⟩ := Option.map_eq_some_iff.mp hr
  cases kind with
  | none =>
      constructor
      · intro hrun
        cases hrun
        exact ⟨[], ⟨none, none, hkind, .none, rfl⟩, .nil⟩
      · rintro ⟨tokens, ⟨kind', payload, hkind', hspells, rfl⟩, htokens⟩
        rw [hkind] at hkind'
        cases hkind'
        cases hspells
        cases htokens
        rfl
  | some kind =>
      show (_ <$> kind.reader).run s = _ ↔ _
      rw [run_map_eq_ok]
      constructor
      · rintro ⟨payload, hpayload, rfl⟩
        obtain ⟨tokens, hspells, htokens⟩ := (recognizes_payload kind).mp hpayload
        exact ⟨tokens, ⟨some kind, some payload, hkind, hspells, rfl⟩, htokens⟩
      · rintro ⟨tokens, ⟨kind', payload, hkind', hspells, rfl⟩, htokens⟩
        rw [hkind] at hkind'
        cases hkind'
        cases payload with
        | none => cases hspells
        | some payload =>
            exact ⟨payload, (recognizes_payload kind).mpr ⟨tokens, hspells, htokens⟩, rfl⟩

/-- A key is recognized. -/
theorem recognizes_key : Key.reader.Recognizes SpellsKey := by
  intro s t key
  rw [Key.reader, recognizes_variant fun _ _ => recognizes_readerOf]
  constructor
  · rintro ⟨tokens, ⟨name, r, later, rfl, -, kind, payload, hkind, hspells, rfl⟩, htokens⟩
    exact ⟨_, .intro ((lookup_eq_some_iff_mem nodup_keys).mp hkind) hspells, htokens⟩
  · rintro ⟨tokens, hspells, htokens⟩
    cases hspells with
    | @intro name kind later payload hmem hpayload =>
        have hkind := (lookup_eq_some_iff_mem nodup_keys).mpr hmem
        obtain ⟨r, hr⟩ : ∃ r, Key.readerOf name = some r := by
          rw [Key.readerOf, hkind]
          exact ⟨_, rfl⟩
        exact ⟨_, ⟨name, r, later, rfl, hr, kind, payload, hkind, hpayload, rfl⟩, htokens⟩

/-- A modifier is recognized. -/
theorem recognizes_modifier : Modifier.reader.Recognizes SpellsModifier := by
  have hnext : ∀ (name : String) (r : Reader Modifier),
      (if name ∈ Modifier.catalog then some (Pure.pure ⟨name⟩) else none) = some r →
      r.Recognizes fun tokens modifier =>
        name ∈ Modifier.catalog ∧ tokens = [] ∧ modifier = ⟨name⟩ := by
    intro name r hr s t modifier
    split at hr
    · next hmem =>
      cases hr
      constructor
      · intro hrun
        cases hrun
        exact ⟨[], ⟨hmem, rfl, rfl⟩, .nil⟩
      · rintro ⟨tokens, ⟨-, rfl, rfl⟩, htokens⟩
        cases htokens
        rfl
    · cases hr
  intro s t modifier
  rw [Modifier.reader, recognizes_variant hnext]
  constructor
  · rintro ⟨tokens, ⟨name, r, later, rfl, -, hmem, rfl, rfl⟩, htokens⟩
    exact ⟨_, .intro hmem, htokens⟩
  · rintro ⟨tokens, hspells, htokens⟩
    cases hspells with
    | @intro name hmem =>
        exact ⟨_, ⟨name, _, [], rfl, if_pos hmem, hmem, rfl, rfl⟩, htokens⟩

/-- A list of modifiers is recognized. -/
theorem recognizes_modifiers : Modifier.listReader.Recognizes (SpellsList SpellsModifier) := by
  refine recognizes_list recognizes_modifier ?_
  intro tokens modifier hspells
  cases hspells with
  | intro => exact ⟨_, [], rfl, by simp⟩

end Reader

/-! ## Directives -/

/-- A gap in front of a string does not go on with an identifier. -/
theorem not_continuesIdentifier_of_skipGap {a : UInt8} {r t : Bytes}
    (h : skipGap (a :: r) = .ok t) (ht : t.head? = some doubleQuote) :
    ¬ continuesIdentifier a := by
  intro ha
  have hsettled := settled_of_continuesIdentifier ha r
  rw [Settled] at hsettled
  rw [hsettled] at h
  cases h
  rw [Option.some.inj ht] at ha
  exact absurd ha (by decide)

namespace Reader

theorem run_terminalFilter_underscore (r : Bytes) :
    terminalFilter.run (underscore :: r) = (skipGap r).map fun t => (none, t) := by
  have hhead : (underscore :: r).head? = some underscore := rfl
  rw [terminalFilter, run_bind_of_ok (run_ahead _), if_pos hhead, run_bind,
    run_lexeme skipByte (run_skipByte_cons underscore r)]
  cases skipGap r <;> rfl

theorem run_terminalFilter_eq_ok {s t : Bytes} {term : Option Text}
    (h : s.head? ≠ some underscore) :
    terminalFilter.run s = .ok (term, t) ↔
      ∃ text, stringLiteral.run s = .ok (text, t) ∧ term = some text.payloadText := by
  rw [terminalFilter, run_bind_of_ok (run_ahead _), if_neg h, run_bind_eq_ok]
  constructor
  · rintro ⟨text, u, htext, hu⟩
    cases hu
    exact ⟨text, htext, rfl⟩
  · rintro ⟨text, htext, rfl⟩
    exact ⟨text, t, htext, rfl⟩

/-- The identifier `_` is the byte by itself. -/
theorem run_identifier_underscore {s t : Bytes} :
    identifier.run s = .ok ("_", t) ↔
      ∃ r, s = underscore :: r ∧ (∀ b ∈ r.head?, ¬ continuesIdentifier b) ∧ skipGap r = .ok t := by
  rw [run_identifier_eq_ok]
  constructor
  · rintro ⟨-, hname, hgap⟩
    rw [show "_" = latinString [underscore] by decide] at hname
    have hs := List.takeWhile_append_dropWhile (p := continuesIdentifier) (l := s)
    rw [← latinString_injective hname] at hs
    refine ⟨s.dropWhile continuesIdentifier, hs.symm, ?_, hgap⟩
    intro b hb
    have hstop := List.head?_dropWhile_not continuesIdentifier s
    rw [Option.mem_def.mp hb] at hstop
    exact Bool.not_eq_true _ ▸ hstop
  · rintro ⟨r, rfl, hr, hgap⟩
    have hword : ∀ b ∈ [underscore], continuesIdentifier b := by
      intro b hb
      rw [List.mem_singleton.mp hb]
      decide
    have hstart : startsIdentifier underscore := by decide
    obtain ⟨htake, hdrop⟩ := takeWhile_append_of_stop hword hr
    rw [List.singleton_append] at htake hdrop
    rw [htake, hdrop]
    exact ⟨hstart, by decide, hgap⟩

/-- The terminals of an entry, with the string that has to follow them. -/
theorem run_terminalFilter_string {s t : Bytes} {term : Option Text} {data : Text} :
    (∃ u, terminalFilter.run s = .ok (term, u) ∧ stringLiteral.run u = .ok (data, t)) ↔
      ∃ terminal u, SpellsTerminal terminal term ∧ Tokens s terminal u ∧
        TokenAt u (.string data) t := by
  constructor
  · rintro ⟨u, hterm, hdata⟩
    by_cases hs : s.head? = some underscore
    · obtain ⟨r, rfl⟩ := List.head?_eq_some_iff.mp hs
      rw [run_terminalFilter_underscore] at hterm
      cases hr : skipGap r with
      | error e =>
          rw [hr] at hterm
          cases hterm
      | ok v =>
          rw [hr] at hterm
          cases hterm
          -- the string behind the byte shows that the identifier is no longer than it
          have hname : identifier.run (underscore :: r) = .ok ("_", u) := by
            refine run_identifier_underscore.mpr ⟨r, rfl, ?_, hr⟩
            intro b hb
            obtain ⟨r', rfl⟩ := List.head?_eq_some_iff.mp hb
            exact not_continuesIdentifier_of_skipGap hr (run_stringLiteral_eq_ok.mp hdata).1
          exact ⟨_, u, .every, tokens_singleton.mpr (tokenAt_identifier.mpr hname),
            tokenAt_string.mpr hdata⟩
    · obtain ⟨text, htext, rfl⟩ := (run_terminalFilter_eq_ok hs).mp hterm
      exact ⟨_, u, .named text, tokens_singleton.mpr (tokenAt_string.mpr htext),
        tokenAt_string.mpr hdata⟩
  · rintro ⟨terminal, u, hspells, hterminal, hdata⟩
    refine ⟨u, ?_, tokenAt_string.mp hdata⟩
    cases hspells with
    | every =>
        obtain ⟨r, rfl, -, hr⟩ := run_identifier_underscore.mp
          (tokenAt_identifier.mp (tokens_singleton.mp hterminal))
        rw [run_terminalFilter_underscore, hr]
        rfl
    | named text =>
        have htext := tokenAt_string.mp (tokens_singleton.mp hterminal)
        refine (run_terminalFilter_eq_ok ?_).mpr ⟨text, htext, rfl⟩
        rw [(run_stringLiteral_eq_ok.mp htext).1]
        decide

/-- What stands behind the keyword of a `map` directive. -/
theorem run_mapDirective_eq_ok {s t : Bytes} {d : Directive} :
    mapDirective.run s = .ok (d, t) ↔
      ∃ term data key modifiers s₁ s₂ s₃ s₄, identifier.run s = .ok ("map", s₁) ∧
        (terminalFilter.run s₁ = .ok (term, s₂) ∧ stringLiteral.run s₂ = .ok (data, s₃)) ∧
        Key.reader.run s₃ = .ok (key, s₄) ∧ Modifier.listReader.run s₄ = .ok (modifiers, t) ∧
        d = .map ⟨term, data.payload, ⟨key, modifiers⟩⟩ := by
  rw [mapDirective]
  simp only [run_bind_eq_ok, run_keyword_eq_ok]
  constructor
  · rintro ⟨_, s₁, hname, term, s₂, hterm, data, s₃, hdata, key, s₄, hkey, modifiers, s₅, hlist, h⟩
    cases h
    exact ⟨term, data, key, modifiers, s₁, s₂, s₃, s₄, hname, ⟨hterm, hdata⟩, hkey, hlist, rfl⟩
  · rintro ⟨term, data, key, modifiers, s₁, s₂, s₃, s₄, hname, ⟨hterm, hdata⟩, hkey, hlist, rfl⟩
    exact ⟨(), s₁, hname, term, s₂, hterm, data, s₃, hdata, key, s₄, hkey, modifiers, t, hlist, rfl⟩

theorem run_debugLogDirective_eq_ok {s t : Bytes} {d : Directive} :
    debugLogDirective.run s = .ok (d, t) ↔
      ∃ path u, identifier.run s = .ok ("debugLog", u) ∧ stringLiteral.run u = .ok (path, t) ∧
        d = .debugLog path.payloadText := by
  rw [debugLogDirective]
  simp only [run_bind_eq_ok, run_keyword_eq_ok]
  constructor
  · rintro ⟨_, u, hname, path, v, hpath, h⟩
    cases h
    exact ⟨path, u, hname, hpath, rfl⟩
  · rintro ⟨path, u, hname, hpath, rfl⟩
    exact ⟨(), u, hname, path, t, hpath, rfl⟩

/-- A directive is recognized. -/
theorem recognizes_directive : directive.Recognizes Directive.Spells := by
  intro s t d
  rw [run_directive_eq_ok, run_mapDirective_eq_ok, run_debugLogDirective_eq_ok]
  constructor
  · rintro (⟨term, data, key, modifiers, s₁, s₂, s₃, s₄, hname, hterm, hkey, hlist, rfl⟩ |
      ⟨path, u, hname, hpath, rfl⟩)
    · obtain ⟨terminal, u, hterminal, hu, hdata⟩ := run_terminalFilter_string.mp ⟨s₂, hterm⟩
      obtain ⟨keys, hkeys, hs₄⟩ := recognizes_key.mp hkey
      obtain ⟨list, hlists, ht⟩ := recognizes_modifiers.mp hlist
      refine ⟨_, .map data hterminal hkeys hlists, .cons (tokenAt_identifier.mpr hname) ?_⟩
      exact tokens_append.mpr ⟨u, hu, .cons hdata (tokens_append.mpr ⟨s₄, hs₄, ht⟩)⟩
    · exact ⟨_, .debugLog path, .cons (tokenAt_identifier.mpr hname)
        (tokens_singleton.mpr (tokenAt_string.mpr hpath))⟩
  · rintro ⟨tokens, hspells, htokens⟩
    cases hspells with
    | map data hterminal hkeys hlists =>
        obtain ⟨s₁, hname, hrest⟩ := tokens_cons.mp htokens
        obtain ⟨u, hu, hrest⟩ := tokens_append.mp hrest
        obtain ⟨s₃, hdata, hrest⟩ := tokens_cons.mp hrest
        obtain ⟨s₄, hs₄, ht⟩ := tokens_append.mp hrest
        obtain ⟨s₂, hterm⟩ := run_terminalFilter_string.mpr ⟨_, u, hterminal, hu, hdata⟩
        exact Or.inl ⟨_, _, _, _, s₁, s₂, s₃, s₄, tokenAt_identifier.mp hname, hterm,
          recognizes_key.mpr ⟨_, hkeys, hs₄⟩, recognizes_modifiers.mpr ⟨_, hlists, ht⟩, rfl⟩
    | debugLog path =>
        obtain ⟨u, hname, hrest⟩ := tokens_cons.mp htokens
        exact Or.inr ⟨path, u, tokenAt_identifier.mp hname,
          tokenAt_string.mp (tokens_singleton.mp hrest), rfl⟩

end Reader

end TerminalConfig
