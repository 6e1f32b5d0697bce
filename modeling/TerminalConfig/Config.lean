import TerminalConfig.Event

/-! # Configurations — what is known about a terminal, and how it combines

    A configuration is a fragment: each scalar is present or absent, and the
    input map is a list of entries.  `merge` lets the later fragment win for
    each scalar it has and puts its entries behind the earlier ones; the
    empty configuration changes nothing on either side, and merging may be
    grouped at will.  A look-up takes the last entry that fits. -/

namespace TerminalConfig

/-- Bytes that mean an event, on one terminal or, without a name, on all. -/
structure Entry where
  term : Option Text
  data : Bytes
  event : Event
deriving DecidableEq

/-- Whether the entry counts on a terminal of that name. -/
def Entry.appliesTo (entry : Entry) (termName : Option Text) : Bool :=
  entry.term.isNone || entry.term == termName

/-- A terminal configuration; `none` means that nothing is said. -/
structure Config where
  vmin : Option Int := none
  vtime : Option Int := none
  mouseMode : Option Bool := none
  bracketedPasteMode : Option Bool := none
  debugLog : Option Text := none
  inputMap : List Entry := []
  inputFd : Option Int := none
  outputFd : Option Int := none
  termName : Option Text := none
deriving DecidableEq

namespace Config

/-- The configuration that says nothing. -/
def empty : Config := {}

/-- Whether nothing is said. -/
def isEmpty (c : Config) : Bool :=
  c == empty

/-- Both fragments; the later one wins where both speak. -/
def merge (base override : Config) : Config where
  vmin := override.vmin <|> base.vmin
  vtime := override.vtime <|> base.vtime
  mouseMode := override.mouseMode <|> base.mouseMode
  bracketedPasteMode := override.bracketedPasteMode <|> base.bracketedPasteMode
  debugLog := override.debugLog <|> base.debugLog
  inputMap := base.inputMap ++ override.inputMap
  inputFd := override.inputFd <|> base.inputFd
  outputFd := override.outputFd <|> base.outputFd
  termName := override.termName <|> base.termName

/-- All fragments, from the first to the last. -/
def mergeAll (cs : List Config) : Config :=
  cs.foldl merge empty

/-- The event that the bytes mean on the given terminal, by default the
    configuration's own: that of the last entry that fits. -/
def lookup? (c : Config) (data : Bytes) (termName : Option Text) : Option Event :=
  let term := termName <|> c.termName
  (c.inputMap.reverse.find? fun entry => entry.data == data && entry.appliesTo term).map (·.event)

@[simp] theorem merge_empty (c : Config) : merge c empty = c := by
  simp [merge, empty]

@[simp] theorem empty_merge (c : Config) : merge empty c = c := by
  simp [merge, empty]

/-- The first value that is present, however three are grouped. -/
theorem orElse_assoc {α : Type} (a b c : Option α) : (a <|> b <|> c) = ((a <|> b) <|> c) := by
  cases a <;> rfl

/-- The last of three wins, however they are grouped. -/
theorem merge_assoc (a b c : Config) : merge (merge a b) c = merge a (merge b c) := by
  simp only [merge, List.append_assoc, orElse_assoc]

/-- What is merged first stays in front. -/
theorem foldl_merge (c : Config) (cs : List Config) :
    cs.foldl merge c = merge c (mergeAll cs) := by
  induction cs generalizing c with
  | nil => exact (merge_empty c).symm
  | cons d ds ih =>
      show ds.foldl merge (merge c d) = merge c (ds.foldl merge (merge empty d))
      rw [ih (merge c d), ih (merge empty d), empty_merge, merge_assoc]

theorem mergeAll_nil : mergeAll [] = empty := rfl

theorem mergeAll_cons (c : Config) (cs : List Config) :
    mergeAll (c :: cs) = merge c (mergeAll cs) := by
  rw [← foldl_merge]
  show cs.foldl merge (merge empty c) = _
  rw [empty_merge]

theorem mergeAll_append (cs ds : List Config) :
    mergeAll (cs ++ ds) = merge (mergeAll cs) (mergeAll ds) := by
  rw [mergeAll, List.foldl_append, foldl_merge]
  rfl

end Config

end TerminalConfig
