import TerminalConfig.Proofs.Grammar
import TerminalConfig.Proofs.Statements

/-! # Acceptance — documents in which no line is skipped

    Statements are read with the directive readers and tokens with the token
    reader, and neither knows of the other.  They agree on whole documents: no
    line is skipped exactly when all of the document can be read as tokens and
    these are directives, one after another (`accepts_iff_splits`).

    Both directions go from directive to directive.  A directive is read where
    its tokens stand (`recognizes_directive`) and leaves a place where no gap
    starts, which is where the next tokens stand. -/

namespace TerminalConfig

/-- A directive always says something. -/
theorem Directive.fragment_ne_empty (d : Directive) : d.fragment ≠ .empty := by
  cases d <;> simp [fragment, Config.empty]

namespace Document

/-- No line of the document is skipped. -/
def Accepts (s : Bytes) : Prop :=
  ∀ c ∈ fragments s, c ≠ .empty

/-- Tokens cut into directives, each with the tokens that spell it. -/
structure Splits (tokens : List Token) (parts : List (List Token × Directive)) : Prop where
  flatten : (parts.map Prod.fst).flatten = tokens
  spells : ∀ part ∈ parts, part.2.Spells part.1

/-- The first part and the ones behind it. -/
theorem splits_cons {tokens first : List Token} {d : Directive}
    {parts : List (List Token × Directive)} :
    Splits tokens ((first, d) :: parts) ↔
      d.Spells first ∧ ∃ later, tokens = first ++ later ∧ Splits later parts := by
  constructor
  · intro h
    refine ⟨h.spells _ List.mem_cons_self, _, h.flatten.symm, rfl, ?_⟩
    intro part hpart
    exact h.spells part (List.mem_cons_of_mem _ hpart)
  · rintro ⟨hfirst, later, rfl, h⟩
    refine ⟨congrArg (first ++ ·) h.flatten, ?_⟩
    intro part hpart
    rcases List.mem_cons.mp hpart with rfl | hpart
    · exact hfirst
    · exact h.spells part hpart

/-- What the first part spells is read, and leaves the place where the second
    part stands. -/
theorem run_directive_of_splits {s : Bytes} {tokens first : List Token} {d : Directive}
    {parts : List (List Token × Directive)} (h : Splits tokens ((first, d) :: parts))
    (htokens : Tokens s tokens []) :
    ∃ t later, Reader.directive.run s = .ok (d, t) ∧ Tokens s first t ∧ Tokens t later [] ∧
      Splits later parts := by
  obtain ⟨hspells, later, rfl, hsplits⟩ := splits_cons.mp h
  obtain ⟨t, ht, hlater⟩ := tokens_append.mp htokens
  exact ⟨t, later, Reader.recognizes_directive.mpr ⟨first, hspells, ht⟩, ht, hlater, hsplits⟩

/-- A document in which no line is skipped is tokens that spell directives. -/
theorem exists_splits {s : Bytes} (h : Accepts s) :
    ∃ t tokens parts, skipGap s = .ok t ∧ Tokens t tokens [] ∧ Splits tokens parts := by
  unfold Accepts fragments at h
  fun_induction statements s with
  | case1 s hn =>
      exact ⟨[], [], [], Statement.next?_eq_none.mp hn, .nil, rfl,
        fun _ hpart => absurd hpart List.not_mem_nil⟩
  | case2 s statement u hn _ ih =>
      obtain ⟨e, -, rfl, -⟩ | ⟨t, d, ht, hd, rfl⟩ | ⟨t, e, -, -, -, rfl, -⟩ :=
        Statement.next?_cases hn
      · exact absurd rfl (h _ List.mem_cons_self)
      · obtain ⟨v, later, parts, hv, hlater, hsplits⟩ :=
          ih fun c hc => h c (List.mem_cons_of_mem _ hc)
        -- no gap starts behind the directive, so the later tokens stand right there
        have hu := Reader.settled_of_directive hd
        rw [Settled, hv] at hu
        cases hu
        obtain ⟨first, hspells, hfirst⟩ := Reader.recognizes_directive.mp hd
        exact ⟨t, first ++ later, (first, d) :: parts, ht, tokens_append.mpr ⟨u, hfirst, hlater⟩,
          splits_cons.mpr ⟨hspells, later, rfl, hsplits⟩⟩
      · exact absurd rfl (h _ List.mem_cons_self)

/-- Tokens that spell directives are read as these directives. -/
theorem fragments_of_splits {s t : Bytes} {tokens : List Token}
    {parts : List (List Token × Directive)} (ht : skipGap s = .ok t)
    (htokens : Tokens t tokens []) (h : Splits tokens parts) :
    fragments s = parts.map fun part => part.2.fragment := by
  induction parts generalizing s t tokens with
  | nil =>
      obtain rfl := h.flatten
      cases htokens
      exact fragments_eq_nil.mpr ht
  | cons part parts ih =>
      obtain ⟨u, later, hd, -, hlater, hsplits⟩ := run_directive_of_splits h htokens
      rw [fragments_of_next? (Statement.next?_of_directive ht hd),
        ih (Reader.settled_of_directive hd) hlater hsplits]
      rfl

/-- A part takes bytes, so none stands at the end of the source. -/
theorem splits_at_end {tokens : List Token} {parts : List (List Token × Directive)}
    (h : Splits tokens parts) (htokens : Tokens [] tokens []) : parts = [] := by
  cases parts with
  | nil => rfl
  | cons part parts =>
      obtain ⟨_, _, hd, -⟩ := run_directive_of_splits h htokens
      exact absurd rfl (Reader.ne_nil_of_progresses Reader.progresses_directive hd)

/-- Tokens can be cut into directives in one way only. -/
theorem splits_unique {s : Bytes} {tokens tokens' : List Token}
    {parts other : List (List Token × Directive)} (htokens : Tokens s tokens [])
    (h : Splits tokens parts) (htokens' : Tokens s tokens' []) (h' : Splits tokens' other) :
    other = parts := by
  induction parts generalizing s tokens tokens' other with
  | nil =>
      obtain rfl := h.flatten
      cases htokens
      exact splits_at_end h' htokens'
  | cons part parts ih =>
      cases other with
      | nil =>
          obtain rfl := h'.flatten
          cases htokens'
          exact (splits_at_end h htokens).symm
      | cons part' other =>
          obtain ⟨t, later, hd, hfirst, hlater, hsplits⟩ := run_directive_of_splits h htokens
          obtain ⟨t', later', hd', hfirst', hlater', hsplits'⟩ :=
            run_directive_of_splits h' htokens'
          -- both parts are what the reader reads there
          rw [hd] at hd'
          obtain ⟨hsame, rfl⟩ := Prod.mk.inj (Except.ok.inj hd')
          rw [ih hlater hsplits hlater' hsplits', Prod.ext (hfirst'.unique hfirst) hsame.symm]

/-- No line of a document is skipped exactly when all of it can be read as
    tokens that spell directives, one after another.  Then there is one way to
    cut the tokens, and the document says what the parts spell, in order. -/
theorem accepts_iff_splits (s : Bytes) :
    (Accepts s ↔
      (Scan.ofSource s).failure = none ∧ ∃ parts, Splits (Scan.ofSource s).values parts) ∧
    ∀ parts, (Scan.ofSource s).failure = none → Splits (Scan.ofSource s).values parts →
      fragments s = parts.map (fun part => part.2.fragment) ∧
        ∀ other, Splits (Scan.ofSource s).values other → other = parts := by
  have hstart : ∀ {tokens}, (Scan.ofSource s).failure = none →
      (Scan.ofSource s).values = tokens → ∃ t, skipGap s = .ok t ∧ Tokens t tokens [] :=
    fun hfailure hvalues => Scan.ofSource_iff.mp ⟨hfailure, hvalues⟩
  refine ⟨⟨?_, ?_⟩, ?_⟩
  · intro h
    obtain ⟨t, tokens, parts, ht, htokens, hsplits⟩ := exists_splits h
    obtain ⟨hfailure, hvalues⟩ := Scan.ofSource_iff.mpr ⟨t, ht, htokens⟩
    exact ⟨hfailure, parts, hvalues ▸ hsplits⟩
  · rintro ⟨hfailure, parts, hsplits⟩ c hc
    obtain ⟨t, ht, htokens⟩ := hstart hfailure rfl
    rw [fragments_of_splits ht htokens hsplits] at hc
    obtain ⟨part, -, rfl⟩ := List.mem_map.mp hc
    exact part.2.fragment_ne_empty
  · intro parts hfailure hsplits
    obtain ⟨t, ht, htokens⟩ := hstart hfailure rfl
    refine ⟨fragments_of_splits ht htokens hsplits, ?_⟩
    intro other hother
    exact splits_unique htokens hsplits htokens hother

/-- A document of two directives. -/
def twoDirectives : Bytes :=
  asciiBytes "map _ \"a\" KFun 5 [MAlt, MCtrl]\ndebugLog \"/x\""

/-- Its tokens, as they are cut, and what they spell. -/
theorem accepts_twoDirectives :
    Accepts twoDirectives ∧ fragments twoDirectives =
      [{ inputMap := [⟨none, [0x61], ⟨⟨"KFun", some (.int 5)⟩, [⟨"MAlt"⟩, ⟨"MCtrl"⟩]⟩⟩] },
        { debugLog := some "/x" }] := by
  have hfailure : (Scan.ofSource twoDirectives).failure = none := by decide +kernel
  have hvalues : (Scan.ofSource twoDirectives).values =
      [.identifier "map", .identifier "_", .string "a", .identifier "KFun", .number 5,
        .symbol openBracket, .identifier "MAlt", .symbol comma, .identifier "MCtrl",
        .symbol closeBracket] ++ [.identifier "debugLog", .string "/x"] := by
    decide +kernel
  have hkey : SpellsKey [.identifier "KFun", .number 5] ⟨"KFun", some (.int 5)⟩ :=
    .intro (by decide) (.int 5)
  have halt : SpellsModifier [.identifier "MAlt"] ⟨"MAlt"⟩ := .intro (by decide)
  have hctrl : SpellsModifier [.identifier "MCtrl"] ⟨"MCtrl"⟩ := .intro (by decide)
  have hmap := Directive.Spells.map "a" .every hkey (.items halt (.cons hctrl .nil))
  have hend : Splits [] [] := ⟨rfl, fun _ hpart => absurd hpart List.not_mem_nil⟩
  have hparts := splits_cons.mpr ⟨hmap, _, rfl,
    splits_cons.mpr ⟨Directive.Spells.debugLog "/x", [], rfl, hend⟩⟩
  have hsplits := (congrArg (fun tokens => Splits tokens _) hvalues).mpr hparts
  obtain ⟨haccepts, hfragments⟩ := accepts_iff_splits twoDirectives
  refine ⟨haccepts.mpr ⟨hfailure, _, hsplits⟩, ?_⟩
  rw [(hfragments _ hfailure hsplits).1]
  decide +kernel

end Document

end TerminalConfig
