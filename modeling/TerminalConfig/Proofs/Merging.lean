import TerminalConfig.Config

/-! # Merging — what a list of configurations comes to

    `merge` lets the later configuration speak where both do.  Seen through one
    question at a time it is always the same law, and a question that follows it
    is answered by the last configuration that answers at all (`LastWins`):

    * each of the eight scalars is such a question;
    * so is a look-up of some bytes on a terminal that is given, or on none,
      since the entries of the later configuration stand behind;
    * a look-up without a terminal is one on the terminal that the merged
      configuration names, and that name is itself the last one that is given:
      it counts for the entries of every configuration, earlier ones included.

    Grouping is nothing but the law for appended lists, and nothing is said by
    the whole exactly when nothing is said by any part.  `mergeAll_combined`
    holds all of it. -/

namespace TerminalConfig

/-! ## The last answer -/

section Answers

variable {σ α : Type}

/-- The answer of the last that has one. -/
def lastAnswer? (view : σ → Option α) (asked : List σ) : Option α :=
  (asked.filterMap view).getLast?

theorem lastAnswer?_cons (view : σ → Option α) (a : σ) (asked : List σ) :
    lastAnswer? view (a :: asked) = (lastAnswer? view asked <|> view a) := by
  rw [lastAnswer?, List.filterMap_cons]
  cases view a with
  | none =>
      show lastAnswer? view asked = _
      cases lastAnswer? view asked <;> rfl
  | some answer =>
      show (answer :: asked.filterMap view).getLast? = _
      rw [List.getLast?_cons, lastAnswer?]
      cases (asked.filterMap view).getLast? <;> rfl

end Answers

namespace Config

/-! ## Grouping -/

/-- Merging consecutive groups first changes nothing. -/
theorem mergeAll_groups (groups : List (List Config)) :
    mergeAll (groups.map mergeAll) = mergeAll groups.flatten := by
  induction groups with
  | nil => rfl
  | cons group groups ih =>
      rw [List.map_cons, mergeAll_cons, ih, List.flatten_cons, mergeAll_append]

/-! ## Saying nothing -/

/-- The later value of two is absent when both are. -/
theorem orElse_eq_none {α : Type} (a b : Option α) : (a <|> b) = none ↔ a = none ∧ b = none := by
  cases a with
  | none => exact ⟨fun h => ⟨rfl, h⟩, And.right⟩
  | some x => exact ⟨fun h => absurd h (Option.some_ne_none x), And.left⟩

/-- Two configurations say nothing together when neither says anything. -/
theorem merge_eq_empty (a b : Config) : merge a b = empty ↔ a = empty ∧ b = empty := by
  constructor
  · intro h
    cases a
    cases b
    simp only [merge, empty, Config.mk.injEq, orElse_eq_none, List.append_eq_nil_iff] at h
    obtain ⟨⟨rfl, rfl⟩, ⟨rfl, rfl⟩, ⟨rfl, rfl⟩, ⟨rfl, rfl⟩, ⟨rfl, rfl⟩, ⟨rfl, rfl⟩, ⟨rfl, rfl⟩,
      ⟨rfl, rfl⟩, rfl, rfl⟩ := h
    exact ⟨rfl, rfl⟩
  · rintro ⟨rfl, rfl⟩
    exact merge_empty empty

/-- A list of configurations says nothing when none of them says anything. -/
theorem mergeAll_eq_empty (cs : List Config) : mergeAll cs = empty ↔ ∀ c ∈ cs, c = empty := by
  induction cs with
  | nil => exact ⟨fun _ c hc => absurd hc List.not_mem_nil, fun _ => rfl⟩
  | cons c cs ih => rw [mergeAll_cons, merge_eq_empty, ih, List.forall_mem_cons]

theorem isEmpty_iff (c : Config) : c.isEmpty = true ↔ c = empty :=
  beq_iff_eq

/-! ## Views that follow the law -/

section Views

variable {α : Type}

/-- The later of two configurations answers if it can, and else the earlier one;
    the one that says nothing has no answer. -/
structure LastWins (view : Config → Option α) : Prop where
  empty : view Config.empty = none
  merge : ∀ a b : Config, view (a.merge b) = (view b <|> view a)

/-- A list of configurations gives the last answer. -/
theorem LastWins.mergeAll {view : Config → Option α} (h : LastWins view) (cs : List Config) :
    view (mergeAll cs) = lastAnswer? view cs := by
  induction cs with
  | nil => exact h.empty
  | cons c cs ih => rw [mergeAll_cons, h.merge, ih, lastAnswer?_cons]

end Views

/-! ## Looking bytes up -/

/-- The event of the last entry for the bytes that counts where the terminal has
    that name, or has none. -/
def eventOn? (termName : Option Text) (data : Bytes) (c : Config) : Option Event :=
  (c.inputMap.filter fun entry => entry.data == data && entry.appliesTo termName).getLast?.map
    (·.event)

/-- Where the terminal has no name, an entry counts that asks for none. -/
theorem appliesTo_none (entry : Entry) : entry.appliesTo none = entry.term.isNone := by
  rw [Entry.appliesTo]
  cases entry.term <;> rfl

/-- A look-up is on the terminal that is given, or else on the configuration's
    own. -/
theorem lookup?_eq (c : Config) (data : Bytes) (termName : Option Text) :
    c.lookup? data termName = c.eventOn? (termName <|> c.termName) data := by
  rw [eventOn?, ← List.head?_reverse, ← List.filter_reverse, List.head?_filter]
  rfl

/-- Entries that stand behind win. -/
theorem lastWins_eventOn? (termName : Option Text) (data : Bytes) :
    LastWins (eventOn? termName data) where
  empty := rfl
  merge a b := by
    simp only [eventOn?, Config.merge, List.filter_append, List.getLast?_append]
    generalize (b.inputMap.filter _).getLast? = later
    cases later <;> rfl

/-! ## What a list of configurations comes to -/

/-- What a configuration that combines a list has to say: each scalar as the last
    one of the list that has it, nothing when none of them says anything, and for
    bytes the answer of the last one that has an entry for them. -/
structure Combines (cs : List Config) (c : Config) : Prop where
  vmin : c.vmin = lastAnswer? Config.vmin cs
  vtime : c.vtime = lastAnswer? Config.vtime cs
  mouseMode : c.mouseMode = lastAnswer? Config.mouseMode cs
  bracketedPasteMode : c.bracketedPasteMode = lastAnswer? Config.bracketedPasteMode cs
  debugLog : c.debugLog = lastAnswer? Config.debugLog cs
  inputFd : c.inputFd = lastAnswer? Config.inputFd cs
  outputFd : c.outputFd = lastAnswer? Config.outputFd cs
  termName : c.termName = lastAnswer? Config.termName cs
  isEmpty : c.isEmpty = true ↔ ∀ d ∈ cs, d.isEmpty = true
  /-- On a given terminal every configuration is asked about that terminal. -/
  lookup_given : ∀ (data : Bytes) (term : Text),
    c.lookup? data (some term) = lastAnswer? (fun d => d.lookup? data (some term)) cs
  /-- Without a terminal the last name that is given is that of all of them. -/
  lookup_named : ∀ (data : Bytes) (term : Text), lastAnswer? Config.termName cs = some term →
    c.lookup? data none = c.lookup? data (some term)
  /-- Without a name only the entries count that ask for none. -/
  lookup_unnamed : ∀ data : Bytes, lastAnswer? Config.termName cs = none →
    c.lookup? data none =
      ((cs.flatMap (·.inputMap)).filter fun entry =>
        entry.data == data && entry.term.isNone).getLast?.map (·.event)

/-- All entries stand behind one another. -/
theorem inputMap_mergeAll (cs : List Config) :
    (mergeAll cs).inputMap = cs.flatMap (·.inputMap) := by
  induction cs with
  | nil => rfl
  | cons c cs ih =>
      rw [mergeAll_cons, List.flatMap_cons, ← ih]
      rfl

/-- A given terminal goes before the configuration's own. -/
theorem lookup?_given (data : Bytes) (term : Text) :
    (fun c : Config => c.lookup? data (some term)) = eventOn? (some term) data :=
  funext fun c => c.lookup?_eq data (some term)

/-- Configurations may be merged in consecutive groups, and what they come to
    combines them. -/
theorem mergeAll_combined (groups : List (List Config)) :
    mergeAll (groups.map mergeAll) = mergeAll groups.flatten ∧
      Combines groups.flatten (mergeAll groups.flatten) := by
  refine ⟨mergeAll_groups groups, ?_⟩
  generalize groups.flatten = cs
  have htermName : (mergeAll cs).termName = lastAnswer? Config.termName cs :=
    LastWins.mergeAll ⟨rfl, fun _ _ => rfl⟩ cs
  exact {
    vmin := LastWins.mergeAll ⟨rfl, fun _ _ => rfl⟩ cs
    vtime := LastWins.mergeAll ⟨rfl, fun _ _ => rfl⟩ cs
    mouseMode := LastWins.mergeAll ⟨rfl, fun _ _ => rfl⟩ cs
    bracketedPasteMode := LastWins.mergeAll ⟨rfl, fun _ _ => rfl⟩ cs
    debugLog := LastWins.mergeAll ⟨rfl, fun _ _ => rfl⟩ cs
    inputFd := LastWins.mergeAll ⟨rfl, fun _ _ => rfl⟩ cs
    outputFd := LastWins.mergeAll ⟨rfl, fun _ _ => rfl⟩ cs
    termName := htermName
    isEmpty := by simp only [isEmpty_iff, mergeAll_eq_empty]
    lookup_given := fun data term => by
      rw [lookup?_given, ← (lastWins_eventOn? (some term) data).mergeAll, lookup?_eq]
      rfl
    lookup_named := fun data term h => by
      rw [lookup?_eq, lookup?_eq, htermName, h]
      rfl
    lookup_unnamed := fun data h => by
      rw [lookup?_eq, htermName, h, ← inputMap_mergeAll]
      show eventOn? none data _ = _
      simp only [eventOn?, appliesTo_none] }

/-- Zero, `false` and the empty text are said, and a later name counts for an
    earlier entry. -/
example :
    let c := mergeAll [
      { vmin := some 1, inputMap := [⟨some "vt", [0x0E], ⟨⟨"KUp", none⟩, []⟩⟩] },
      { vmin := some 0, mouseMode := some false, debugLog := some [] },
      { termName := some "vt" } ]
    c.vmin = some 0 ∧ c.mouseMode = some false ∧ c.debugLog = some [] ∧
      c.lookup? [0x0E] none = some ⟨⟨"KUp", none⟩, []⟩ := by decide

end Config

end TerminalConfig
