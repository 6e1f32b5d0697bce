import TerminalConfig.Proofs.Catalogued
import TerminalConfig.Proofs.Outcomes

/-! # Read values — what the readers of directives can give

    Tokens hold no surrogates (`Tokens.isChars`), because the readers of literals give
    none.  So a directive that is spelled by tokens of a document names keys and
    modifiers of the catalogs, with the payloads that the names need, and its texts
    stand for bytes (`Directive.Spells.declared`).  Directives are read where such
    tokens stand (`Reader.declared_of_directive`). -/

namespace TerminalConfig

/-- What a directive says is within the catalogs, and its texts stand for
    bytes. -/
def Directive.Declared : Directive → Prop
  | map e => e.Declared
  | debugLog path => path.StandsForBytes

/-! ## Tokens -/

/-- The token holds no surrogate. -/
def Token.IsChars : Token → Prop
  | char c => ¬ c.isSurrogate
  | string text => text.IsChars
  | _ => True

theorem TokenAt.isChars {s t : Bytes} {token : Token} (h : TokenAt s token t) :
    token.IsChars := by
  cases token with
  | string text => exact Reader.meets_stringLiteral.value (tokenAt_string.mp h)
  | char c => exact Reader.meets_charLiteral.value (tokenAt_char.mp h)
  | number n => trivial
  | identifier name => trivial
  | symbol b => trivial

/-- No token of a document holds a surrogate. -/
theorem Tokens.isChars {s t : Bytes} {tokens : List Token} (h : Tokens s tokens t) :
    ∀ token ∈ tokens, token.IsChars := by
  induction h with
  | nil => exact fun _ hmem => absurd hmem List.not_mem_nil
  | cons htoken _ ih => exact List.forall_mem_cons.mpr ⟨htoken.isChars, ih⟩

/-! ## What tokens spell -/

section Lists

variable {α : Type} {G : List Token → α → Prop} {P : α → Prop} {tokens : List Token} {as : List α}

theorem SpellsElements.forall_mem (h : SpellsElements G tokens as)
    (hall : ∀ tokens a, G tokens a → P a) : ∀ a ∈ as, P a := by
  induction h with
  | nil => exact fun _ ha => absurd ha List.not_mem_nil
  | cons hfirst _ ih => exact List.forall_mem_cons.mpr ⟨hall _ _ hfirst, ih⟩

/-- What holds of all that an element can spell holds of every one in a list. -/
theorem SpellsList.forall_mem (h : SpellsList G tokens as)
    (hall : ∀ tokens a, G tokens a → P a) : ∀ a ∈ as, P a := by
  cases h with
  | empty => exact fun _ ha => absurd ha List.not_mem_nil
  | items hfirst hlater =>
      exact List.forall_mem_cons.mpr ⟨hall _ _ hfirst, hlater.forall_mem hall⟩

end Lists

theorem SpellsTerminal.standsForBytes {tokens : List Token} {term : Option Text}
    (h : SpellsTerminal tokens term) : ∀ t ∈ term, t.StandsForBytes := by
  cases h with
  | every => exact fun t ht => absurd ht (Option.not_mem_none t)
  | named text => exact fun t ht => ⟨_, (Option.some.inj ht).symm⟩

/-- A key that is spelled is one of the catalog, with its payload. -/
theorem SpellsKey.declared {tokens : List Token} {key : Key} (h : SpellsKey tokens key)
    (hchars : ∀ token ∈ tokens, token.IsChars) : key.Declared := by
  cases h with
  | intro hmem hpayload =>
      cases hpayload with
      | none => exact ⟨none, hmem, .none⟩
      | char c => exact ⟨some .char, hmem, .char (hchars (.char c) (by simp))⟩
      | int n => exact ⟨some .int, hmem, .int n⟩

/-- What a directive says is within the catalogs, and its texts stand for bytes. -/
theorem Directive.Spells.declared {tokens : List Token} {d : Directive} (h : d.Spells tokens)
    (hchars : ∀ token ∈ tokens, token.IsChars) : d.Declared := by
  cases h with
  | map data hterm hkey hmodifiers =>
      refine ⟨hterm.standsForBytes, hkey.declared fun token hmem => hchars token ?_, ?_⟩
      · simp [hmem]
      · refine hmodifiers.forall_mem fun _ modifier hspells => ?_
        cases hspells with
        | intro hmem => exact hmem
  | debugLog path => exact ⟨_, rfl⟩

/-- A directive that is read is spelled by the tokens that stand there. -/
theorem Reader.declared_of_directive {s t : Bytes} {d : Directive}
    (h : directive.run s = .ok (d, t)) : d.Declared := by
  obtain ⟨tokens, hspells, htokens⟩ := recognizes_directive.mp h
  exact hspells.declared htokens.isChars

end TerminalConfig
