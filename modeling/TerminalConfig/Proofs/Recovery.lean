import TerminalConfig.Proofs.Directives
import TerminalConfig.Proofs.Statements

/-! # Recovery — what an open comment costs the text in front of it

    Each directive goes past the gap behind it, and each statement goes past
    the gap in front of it.  When a block comment that nothing closes stands
    in such a gap, what has been read so far is given up, although the fault
    lies behind it:

    * a directive is lost with its first line (`directive_then`);
    * a gap is lost with its first line, so that the text of a comment of
      several lines is read as directives from its second line on
      (`gap_then`).

    Both statements tell exactly when this happens: the text that follows
    decides it by `GapCloses` alone. -/

namespace TerminalConfig

/-! ## A directive and the gap behind it -/

/-- What a text ends with is what its last part ends with. -/
theorem getLast?_of_append {s t : Bytes} {b : UInt8} (ht : t ≠ [])
    (h : (s ++ t).getLast? = some b) : t.getLast? = some b := by
  rw [List.getLast?_append_of_ne_nil _ ht] at h
  exact h

/-- A text of whole lines ends with a newline. -/
theorem eq_newline_of_getLast? {s : Bytes} (hs : s.getLast? = some newline) :
    ∀ b ∈ s.getLast?, b = newline := by
  intro b hb
  rw [hs] at hb
  exact (Option.some.inj hb).symm

/-- A gap of whole lines is a closed one. -/
theorem closedGap_of_lines {s : Bytes} (h : skipGap s = .ok [])
    (hs : s.getLast? = some newline) : ClosedGap s := by
  obtain ⟨w, hw, hgap⟩ := exists_closedGap h fun _ => eq_newline_of_getLast? hs
  rw [List.append_nil] at hw
  exact hw ▸ hgap

theorem not_gapCloses {s : Bytes} {e : Failure} (h : skipGap s = .error e) : ¬ GapCloses s := by
  rintro ⟨t, ht⟩
  rw [h] at ht
  cases ht

/-- A token stays the same token when more text follows its line, for no token
    is a newline. -/
theorem Settled.take_append {t : Bytes} (ht : Settled t) (hne : t ≠ [])
    (hs : t.getLast? = some newline) (u : Bytes) : t.take 2 = (t ++ u).take 2 := by
  match t with
  | [] => exact absurd rfl hne
  | [b] =>
      obtain rfl := Option.some.inj hs
      exact absurd (by decide) (settled_cons.mp ht).1
  | b :: c :: t => rfl

namespace Reader

variable {α β : Type}

/-- What ends in a gap reads on into a gap that follows. -/
theorem Delimited.run_append {r : Reader α} {a : α} (h : r.Delimited a) {s : Bytes}
    (hrun : r.run s = .ok (a, [])) (hs : s.getLast? = some newline) (u : Bytes) :
    r.run (s ++ u) = (skipGap u).map fun t => (a, t) := by
  obtain ⟨x, b, g, rfl, hb, hg, hother⟩ := h hrun
  cases g with
  | nil =>
      -- the text ends with a visible byte, and not with its line
      rw [List.getLast?_concat] at hs
      exact absurd (Option.some.inj hs) hb
  | cons c g =>
      have hlast : (c :: g).getLast? = some newline := by
        rw [List.getLast?_append] at hs
        simpa using hs
      have hgap := closedGap_of_lines hg hlast
      have hhead : (c :: g ++ u).head? = (c :: g).head? := rfl
      rw [List.append_assoc, List.cons_append, hother hhead, skipGap_append hgap]

/-- What stops in front of a token reads the same when more text follows the
    line that the token ends in. -/
theorem Peeks.run_append {r : Reader α} {a : α} (h : r.Peeks 2 a) {s t : Bytes}
    (hrun : r.run s = .ok (a, t)) (ht : Settled t) (hne : t ≠ [])
    (hs : s.getLast? = some newline) (u : Bytes) : r.run (s ++ u) = .ok (a, t ++ u) := by
  obtain ⟨x, rfl⟩ := exists_read hrun
  rw [List.append_assoc]
  exact h hrun (ht.take_append hne (getLast?_of_append hne hs) u)

/-- A directive that ends in the gap `u`, when the other one does not fit: it is
    lost exactly when that gap does not close. -/
theorem run_directive_of_gap {r r' : Reader Directive} {s u : Bytes} {d : Directive}
    (hor : ∀ v, directive.run s = .ok v ↔ r.run s = .ok v ∨ r'.run s = .ok v)
    (hr : r.run s = (skipGap u).map fun t => (d, t)) (hr' : ∃ e, r'.run s = .error e) :
    (∀ t, skipGap u = .ok t → directive.run s = .ok (d, t)) ∧
    (∀ e, skipGap u = .error e → ∃ e', directive.run s = .error e') := by
  obtain ⟨f, hf⟩ := hr'
  constructor
  · intro t ht
    rw [ht] at hr
    exact (hor _).mpr (Or.inl hr)
  · intro e he
    rw [he] at hr
    cases hrun : directive.run s with
    | error e' => exact ⟨e', rfl⟩
    | ok v =>
        rcases (hor v).mp hrun with h | h
        · rw [hr] at h
          cases h
        · rw [hf] at h
          cases h

/-- At the end of a text of whole lines, a directive reads on into the gap that
    follows, and is lost when that gap does not close. -/
theorem run_directive_append {s : Bytes} {d : Directive} (h : directive.run s = .ok (d, []))
    (hs : s.getLast? = some newline) (u : Bytes) :
    (∀ t, skipGap u = .ok t → directive.run (s ++ u) = .ok (d, t)) ∧
    (∀ e, skipGap u = .error e → ∃ e', directive.run (s ++ u) = .error e') := by
  have hname : ∀ {name : String} {r : Bytes}, identifier.run s = .ok (name, r) → r ≠ [] →
      identifier.run (s ++ u) = .ok (name, r ++ u) := by
    intro name r hrun hr
    exact (peeks_identifier _).run_append hrun (settled_of_identifier hrun) hr hs u
  rcases run_directive_eq_ok.mp h with h | h
  · obtain ⟨r, hmap, hr⟩ := identifier_of_mapDirective h
    refine run_directive_of_gap (fun v => run_directive_eq_ok)
      ((delimited_mapDirective d).run_append h hs u) ?_
    exact run_keyword_bind_error (by decide) (hname hmap hr) _
  · obtain ⟨r, hlog, hr⟩ := identifier_of_debugLogDirective h
    refine run_directive_of_gap (fun v => run_directive_eq_ok.trans or_comm)
      ((delimited_debugLogDirective d).run_append h hs u) ?_
    exact run_keyword_bind_error (by decide) (hname hlog hr) _

end Reader

/-- Text of whole lines is left by line, whatever follows it. -/
theorem afterLine_append {s : Bytes} (h : newline ∈ s) (u : Bytes) :
    afterLine (s ++ u) = afterLine s ++ u := by
  obtain ⟨text, rest, rfl, ht⟩ := List.eq_append_cons_of_mem h
  rw [List.append_assoc, List.cons_append, afterLine_line ht, afterLine_line ht]

/-- What a gap leaves at the end of whole lines, it leaves with more text
    behind it. -/
theorem skipGap_append_of_token {s t : Bytes} (h : skipGap s = .ok t) (hne : t ≠ [])
    (hs : s.getLast? = some newline) (u : Bytes) : skipGap (s ++ u) = .ok (t ++ u) := by
  obtain ⟨w, rfl, hw⟩ := exists_closedGap h (fun ht => absurd ht hne)
  rw [List.append_assoc, skipGap_append hw]
  have ht := settled_of_skipGap h
  exact ht.congr (ht.take_append hne (getLast?_of_append hne hs) u)

/-- A gap of whole lines is passed as it is, whatever follows it. -/
theorem skipGap_append_of_lines {s : Bytes} (h : skipGap s = .ok [])
    (hs : s.getLast? = some newline) (u : Bytes) : skipGap (s ++ u) = skipGap u :=
  skipGap_append (closedGap_of_lines h hs) u

namespace Document

open Config

/-- The only statement of a document that says something is a directive, with
    a gap in front of it and a gap behind it. -/
theorem directive_of_fragments {s : Bytes} {c : Config} (h : fragments s = [c])
    (hc : c ≠ .empty) :
    ∃ t d, skipGap s = .ok t ∧ Reader.directive.run t = .ok (d, []) ∧ d.fragment = c := by
  cases hn : Statement.next? s with
  | none =>
      rw [fragments_eq_nil.mpr (Statement.next?_eq_none.mp hn)] at h
      cases h
  | some v =>
      obtain ⟨statement, u⟩ := v
      rw [fragments_of_next? hn] at h
      obtain ⟨rfl, hu⟩ := List.cons.inj h
      obtain ⟨e, -, rfl, -⟩ | ⟨t, d, ht, hd, rfl⟩ | ⟨t, e, -, -, -, rfl, -⟩ :=
        Statement.next?_cases hn
      · exact absurd rfl hc
      · -- what remains is a gap, and behind a directive no gap starts
        have hnil := Reader.settled_of_directive hd
        rw [Settled, fragments_eq_nil.mp hu] at hnil
        cases hnil
        exact ⟨t, d, ht, hd, rfl⟩
      · exact absurd rfl hc

/-- A document of one directive, and a text behind it whose gap does not close:
    the directive is lost with its first line. -/
theorem fragments_append_of_open {s t r : Bytes} {d : Directive} (ht : skipGap s = .ok t)
    (hd : Reader.directive.run t = .ok (d, [])) (hs : s.getLast? = some newline)
    {e : Failure} (hr : skipGap r = .error e) :
    fragments (s ++ r) = .empty :: fragments (afterLine t ++ r) := by
  have hne : t ≠ [] := Reader.ne_nil_of_progresses Reader.progresses_directive hd
  obtain ⟨w, rfl⟩ := suffix_skipGap ht
  have htlast := getLast?_of_append hne hs
  obtain ⟨e', he'⟩ := (Reader.run_directive_append hd htlast r).2 e hr
  have hgap := skipGap_append_of_token ht hne hs r
  rw [fragments_of_next? (Statement.next?_of_unrecognized hgap (by simp [hne]) he'),
    afterLine_append (List.mem_of_getLast? htlast)]
  rfl

/-- A document of one directive, and a text behind it whose gap closes: both
    are read. -/
theorem fragments_append_of_closes {s t r u : Bytes} {d : Directive} (ht : skipGap s = .ok t)
    (hd : Reader.directive.run t = .ok (d, [])) (hs : s.getLast? = some newline)
    (hr : skipGap r = .ok u) : fragments (s ++ r) = d.fragment :: fragments r := by
  have hne : t ≠ [] := Reader.ne_nil_of_progresses Reader.progresses_directive hd
  obtain ⟨w, rfl⟩ := suffix_skipGap ht
  have hrun := (Reader.run_directive_append hd (getLast?_of_append hne hs) r).1 u hr
  have hgap := skipGap_append_of_token ht hne hs r
  rw [fragments_of_next? (Statement.next?_of_directive hgap hrun), fragments_of_skipGap hr]
  rfl

/-- A complete directive of whole lines is kept exactly when the gap that the
    text behind it starts with closes.  When that gap does not close, the
    directive's first line is dropped and reading goes on behind it, so that
    nothing is lost only if what is left says the same. -/
theorem directive_then {s r : Bytes} {c : Config} (hs : s.getLast? = some newline)
    (hc : fragments s = [c]) (hne : c ≠ .empty) :
    (fragments (s ++ r) = fragments s ++ fragments r ↔ GapCloses r) ∧
    (config (s ++ r) = (config s).merge (config r) ↔
      GapCloses r ∨
        ∃ t, skipGap s = .ok t ∧ config (afterLine t ++ r) = (config s).merge (config r)) := by
  obtain ⟨t, d, ht, hd, rfl⟩ := directive_of_fragments hc hne
  rw [hc]
  cases hr : skipGap r with
  | ok u =>
      have hfragments := fragments_append_of_closes ht hd hs hr
      have hconfig : config (s ++ r) = (config s).merge (config r) := by
        rw [config, config, hfragments, hc, mergeAll_cons, mergeAll_cons, mergeAll_nil, merge_empty]
        rfl
      have hcloses : GapCloses r := ⟨u, hr⟩
      exact ⟨⟨fun _ => hcloses, fun _ => hfragments⟩,
        ⟨fun _ => Or.inl hcloses, fun _ => hconfig⟩⟩
  | error e =>
      have hfragments := fragments_append_of_open ht hd hs hr
      have hconfig : config (s ++ r) = config (afterLine t ++ r) := by
        rw [config, hfragments, mergeAll_cons, empty_merge]
        rfl
      have hopen := not_gapCloses hr
      refine ⟨⟨?_, fun h => absurd h hopen⟩, ⟨?_, ?_⟩⟩
      · -- the first fragment is empty, and the directive's is not
        intro h
        rw [hfragments] at h
        exact absurd (List.cons.inj h).1.symm hne
      · intro h
        exact Or.inr ⟨t, ht, hconfig ▸ h⟩
      · rintro (h | ⟨t', ht', h⟩)
        · exact absurd h hopen
        · rw [ht] at ht'
          cases ht'
          rw [hconfig, h]

/-- A text for each side: behind a line of comment the directive is kept, and
    behind an open comment it is lost. -/
theorem directive_then_comments :
    config (asciiBytes "debugLog \"/x\"\n" ++ asciiBytes "--")
        = (config (asciiBytes "debugLog \"/x\"\n")).merge (config (asciiBytes "--")) ∧
    config (asciiBytes "debugLog \"/x\"\n" ++ asciiBytes "\x7b-")
        ≠ (config (asciiBytes "debugLog \"/x\"\n")).merge (config (asciiBytes "\x7b-")) := by
  have hs : (asciiBytes "debugLog \"/x\"\n").getLast? = some newline := by decide
  have hc : fragments (asciiBytes "debugLog \"/x\"\n") = [{ debugLog := some "/x" }] := by
    decide +kernel
  constructor
  · refine (directive_then hs hc (by decide)).2.mpr (Or.inl ⟨[], ?_⟩)
    decide +kernel
  · decide +kernel

/-- A directive is lost although it is complete and ends with its line: an open
    comment follows it. -/
theorem directive_lost_to_open_comment :
    ¬ ∀ (s r : Bytes) (c : Config), s.getLast? = some newline → fragments s = [c] → c ≠ .empty →
      config (s ++ r) = (config s).merge (config r) := by
  intro h
  have := h (asciiBytes "debugLog \"/x\"\n") (asciiBytes "\x7b-") { debugLog := some "/x" }
    (by decide) (by decide +kernel) (by decide)
  exact absurd this (by decide +kernel)

/-! ## A gap and the gap behind it -/

/-- What comes to light when lines are dropped from a gap, one by one: the
    first rest that is no gap itself. -/
def exposed (s : Bytes) : Bytes :=
  if h : s ≠ [] ∧ skipGap s = .ok [] then
    have := length_afterLine h.1
    exposed (afterLine s)
  else s
termination_by s.length

/-- Behind a gap of whole lines, an open comment costs these lines one by one,
    until one of them is read. -/
theorem config_append_of_open {s r : Bytes} {e : Failure} (hr : skipGap r = .error e)
    (hs : ∀ b ∈ s.getLast?, b = newline) : config (s ++ r) = config (exposed s ++ r) := by
  fun_induction exposed s with
  | case1 s h _ ih =>
      obtain ⟨hne, hgap⟩ := h
      have hlast : s.getLast? = some newline := by
        rw [List.getLast?_eq_some_getLast hne] at hs ⊢
        rw [hs _ rfl]
      -- the open comment is reported for the whole gap, so one line of it is dropped
      have hopen : skipGap (s ++ r) = .error e := by
        rw [skipGap_append_of_lines hgap hlast, hr]
      rw [config_of_next? (Statement.next?_of_open hopen),
        afterLine_append (List.mem_of_getLast? hlast)]
      refine (empty_merge _).trans (ih ?_)
      intro b hb
      exact hs b (getLast?_of_suffix (suffix_afterLine s) hb)
  | case2 => rfl

/-- A gap of whole lines adds nothing when the gap of the text behind it
    closes.  When that one does not close, the gap's lines are dropped only up
    to the first that is no gap by itself: the text of a comment is read from
    there on, and adds nothing only if it happens to say nothing new. -/
theorem gap_then {s r : Bytes} (hs : s.getLast? = some newline) (hg : fragments s = []) :
    (GapCloses r → fragments (s ++ r) = fragments r) ∧
    (¬ GapCloses r → config (s ++ r) = config (exposed s ++ r)) ∧
    (config (s ++ r) = config r ↔ GapCloses r ∨ config (exposed s ++ r) = config r) := by
  have hgap := skipGap_append_of_lines (fragments_eq_nil.mp hg) hs r
  cases hr : skipGap r with
  | ok t =>
      have hfragments : fragments (s ++ r) = fragments r := by
        rw [fragments_of_skipGap (hgap.trans hr), fragments_of_skipGap hr]
      have hcloses : GapCloses r := ⟨t, hr⟩
      refine ⟨fun _ => hfragments, fun h => absurd hcloses h, ⟨fun _ => Or.inl hcloses, ?_⟩⟩
      intro _
      rw [config, hfragments]
      rfl
  | error e =>
      have hconfig := config_append_of_open hr (eq_newline_of_getLast? hs)
      have hopen := not_gapCloses hr
      refine ⟨fun h => absurd h hopen, fun _ => hconfig, ?_⟩
      rw [hconfig]
      exact ⟨Or.inr, fun h => h.resolve_left hopen⟩

/-- A comment of several lines, in front of a line of comment and in front of
    an open comment. -/
theorem gap_then_comments :
    fragments (asciiBytes "\x7b-\nx\n-\x7d\n" ++ asciiBytes "--")
        = fragments (asciiBytes "--") ∧
    config (asciiBytes "\x7b-\nx\n-\x7d\n" ++ asciiBytes "\x7b-")
        = config (asciiBytes "x\n-\x7d\n" ++ asciiBytes "\x7b-") := by
  have hs : (asciiBytes "\x7b-\nx\n-\x7d\n").getLast? = some newline := by decide
  have hg : fragments (asciiBytes "\x7b-\nx\n-\x7d\n") = [] := by decide +kernel
  constructor
  · refine (gap_then hs hg).1 ⟨[], ?_⟩
    decide +kernel
  · have hopen : ¬ GapCloses (asciiBytes "\x7b-") := not_gapCloses (skipGap_open rfl)
    have hexposed : exposed (asciiBytes "\x7b-\nx\n-\x7d\n") = asciiBytes "x\n-\x7d\n" := by
      decide +kernel
    rw [(gap_then hs hg).2.1 hopen, hexposed]

/-- A directive inside of a closed comment is read: an open comment follows. -/
theorem comment_read_before_open_comment :
    ¬ ∀ s r : Bytes, s.getLast? = some newline → fragments s = [] →
      config (s ++ r) = config r := by
  intro h
  have := h (asciiBytes "\x7b-\ndebugLog \"/x\"\n-\x7d\n") (asciiBytes "\x7b-")
    (by decide) (by decide +kernel)
  exact absurd this (by decide +kernel)

end Document

end TerminalConfig
