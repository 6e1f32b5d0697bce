import TerminalConfig.DebugLog
import TerminalConfig.Proofs.Paths
import TerminalConfig.Proofs.RoundTrip
import TerminalConfig.Proofs.Values
import TerminalConfig.Session

/-! # Rendering what was loaded — where writing is narrower than reading

    Rendering fails on numbers without a numeral and on texts without bytes, and
    on nothing else (`Render.succeeds_config`, `DebugLog.succeeds_writeOn`).  Most
    of this cannot come from a source:

    * a document names terminals by their bytes, and keys and modifiers of the
      catalogs; no document and no environment has a long number outside of the
      input map (`Config.Loadable.sound`).

    Two things can.  The number of a key is read in octal or hexadecimal with any
    number of digits, but written in decimal with a limited number of them; and
    the path of a debug log may come straight from an environment, or hold a NUL.
    `Config.Loadable.renders_iff` says that these are the only ones. -/

namespace TerminalConfig

/-! ## What can be rendered -/

namespace Render

theorem succeeds_number {n : Int} : Succeeds (number n) ↔ HasNumeral n := by
  rw [number, HasNumeral]
  split
  · next h => exact iff_of_true (succeeds_ok _) h
  · next h => exact iff_of_false (not_succeeds_error _) h

theorem succeeds_text {t : Text} : Succeeds (text t) ↔ t.IsEscapable := by
  rw [← Utf8.exists_encodeEscaped?, text]
  cases Utf8.encodeEscaped? t with
  | none =>
      refine iff_of_false (not_succeeds_error _) ?_
      rintro ⟨s, hs⟩
      cases hs
  | some s => exact iff_of_true (succeeds_ok _) ⟨s, rfl⟩

theorem succeeds_key {k : Key} : Succeeds (key k) ↔ k.NumberFits := by
  rw [key, Key.NumberFits]
  cases k.payload with
  | none =>
      refine iff_of_true (succeeds_ok _) ?_
      rintro n hn
      cases hn
  | some payload =>
      cases payload with
      | char c =>
          refine iff_of_true (succeeds_ok _) ?_
          rintro n hn
          cases hn
      | int n =>
          refine succeeds_map.trans (succeeds_number.trans ⟨?_, fun h => h n rfl⟩)
          rintro h m hm
          cases hm
          exact h

theorem succeeds_event {e : Event} : Succeeds (event e) ↔ e.key.NumberFits :=
  succeeds_map.trans succeeds_key

theorem succeeds_terminalFilter {term : Option Text} :
    Succeeds (terminalFilter term) ↔ ∀ t ∈ term, t.IsEscapable := by
  cases term with
  | none => exact iff_of_true (succeeds_ok _) fun t ht => absurd ht (Option.not_mem_none t)
  | some t =>
      refine succeeds_text.trans ⟨?_, fun h => h t rfl⟩
      rintro h u hu
      cases hu
      exact h

theorem succeeds_entry {e : Entry} :
    Succeeds (entry e) ↔ (∀ t ∈ e.term, t.IsEscapable) ∧ e.event.key.NumberFits := by
  rw [← succeeds_terminalFilter, ← succeeds_event, entry, succeeds_bind]
  constructor
  · rintro ⟨t, ht, h⟩
    exact ⟨⟨t, ht⟩, succeeds_map.mp h⟩
  · rintro ⟨⟨t, ht⟩, h⟩
    exact ⟨t, ht, succeeds_map.mpr h⟩

theorem succeeds_inputMap {entries : List Entry} :
    Succeeds (inputMap entries) ↔
      ∀ e ∈ entries, (∀ t ∈ e.term, t.IsEscapable) ∧ e.event.key.NumberFits :=
  succeeds_mapM.trans (forall₂_congr fun _ _ => succeeds_entry)

/-- The comments for the scalars are rendered when their numbers are. -/
theorem succeeds_remarks {c : Config} : Succeeds ((remarks c).mapM id) ↔ c.ScalarsFit := by
  have hremark : ∀ {name : String} {n : Int}, Succeeds (remark name (number n)) ↔ HasNumeral n :=
    succeeds_map.trans succeeds_number
  have hplain : ∀ {name : String} {t : Text}, Succeeds (remark name (.ok t)) :=
    succeeds_ok _
  have hall : (∀ x ∈ remarks c, Succeeds x) ↔ (∀ n ∈ c.vmin, HasNumeral n) ∧
      (∀ n ∈ c.vtime, HasNumeral n) ∧ (∀ n ∈ c.inputFd, HasNumeral n) ∧
        ∀ n ∈ c.outputFd, HasNumeral n := by
    have hid : (∀ x ∈ remarks c, Succeeds x) ↔ _ := List.forall_mem_filterMap
    simp only [hid, id, ← Option.mem_def, List.forall_mem_cons, List.not_mem_nil,
      false_implies, implies_true, Option.forall_mem_map, hremark, hplain, true_and, and_true]
  rw [succeeds_mapM]
  refine hall.trans ⟨fun h => ⟨h.1, h.2.1, h.2.2.1, h.2.2.2⟩, ?_⟩
  exact fun h => ⟨h.vmin, h.vtime, h.inputFd, h.outputFd⟩

/-- What makes a configuration one that can be rendered. -/
theorem succeeds_config {c : Config} :
    Succeeds (config c) ↔ c.ScalarsFit ∧ (∀ path ∈ c.debugLog, path.IsEscapable) ∧
      ∀ e ∈ c.inputMap, (∀ t ∈ e.term, t.IsEscapable) ∧ e.event.key.NumberFits := by
  have hlog : Succeeds (c.debugLog.toList.mapM debugLog) ↔
      ∀ path ∈ c.debugLog, path.IsEscapable := by
    rw [succeeds_mapM]
    simp only [Option.mem_toList]
    exact forall₂_congr fun _ _ => succeeds_map.trans succeeds_text
  rw [← succeeds_remarks, ← hlog, ← succeeds_inputMap]
  refine succeeds_map.trans ?_
  rw [lines, succeeds_bind]
  constructor
  · rintro ⟨scalars, hscalars, h⟩
    obtain ⟨log, hlog, h⟩ := succeeds_bind.mp h
    exact ⟨⟨scalars, hscalars⟩, ⟨log, hlog⟩, succeeds_map.mp h⟩
  · rintro ⟨⟨scalars, hscalars⟩, ⟨log, hlog⟩, h⟩
    exact ⟨scalars, hscalars, succeeds_bind.mpr ⟨log, hlog, succeeds_map.mpr h⟩⟩

end Render

/-- An input map is written, or is not, when it can be rendered and its path can
    name a file, whatever the files are and whatever the system refuses. -/
theorem DebugLog.succeeds_writeOn {host : Host} {tree : FileTree} {c : Config} :
    Succeeds (writeOn host tree c).written ↔ ∀ path ∈ c.debugLog,
      Succeeds (Render.inputMap c.inputMap) ∧ path.NamesFile := by
  rw [writeOn]
  cases c.debugLog with
  | none => exact iff_of_true (succeeds_ok _) fun path h => absurd h (Option.not_mem_none path)
  | some path =>
      have hpath : (∀ p ∈ some path, Succeeds (Render.inputMap c.inputMap) ∧ p.NamesFile) ↔
          Succeeds (block c.inputMap) ∧ path.NamesFile := by
        rw [show Succeeds (block c.inputMap) ↔ _ from succeeds_map]
        exact ⟨fun h => h path rfl, fun h _ hp => Option.some.inj hp ▸ h⟩
      rw [hpath, ← Path.exists_bytes]
      dsimp only
      cases block c.inputMap with
      | error fault =>
          exact iff_of_false (not_succeeds_error _) fun h => not_succeeds_error _ h.1
      | ok text =>
          cases Path.bytes path with
          | error fault =>
              refine iff_of_false (not_succeeds_error _) ?_
              rintro ⟨-, s, hs⟩
              cases hs
          | ok s =>
              refine iff_of_true ?_ ⟨succeeds_ok _, s, rfl⟩
              dsimp only
              split
              · exact succeeds_ok _
              · rw [add]
                split <;> exact succeeds_ok _

/-! ## What can be loaded -/

namespace Config

/-- What one source says: a document, the overrides of an environment, or the
    baseline for a terminal that has a name. -/
inductive IsSource : Config → Prop
  | document (name : Text) (input : Source) : IsSource (Document.read name input.buffer).value
  | overrides (session : Session) : IsSource session.overrides
  | baseline {session : Session} {base : Config} : session.baseline = .ok base → IsSource base

/-- What sources add up to, each put in front of or behind what is there. -/
inductive Loadable : Config → Prop
  | empty : Loadable .empty
  | behind {c source : Config} : Loadable c → IsSource source → Loadable (c.merge source)
  | inFront {c source : Config} : Loadable c → IsSource source → Loadable (source.merge c)

/-- A document alone can be loaded. -/
theorem Loadable.document (name : Text) (input : Source) :
    Loadable (Document.read name input.buffer).value := by
  have h := Loadable.behind .empty (.document name input)
  rw [empty_merge] at h
  exact h

/-- What holds of everything that is loaded: entries are declared, and the
    numbers outside of them have numerals. -/
structure Sound (c : Config) : Prop where
  entries : ∀ e ∈ c.inputMap, e.Declared
  scalars : c.ScalarsFit

/-- A scalar of a merge is one of the two. -/
theorem forall_mem_orElse {α : Type} {P : α → Prop} {x y : Option α} (hx : ∀ a ∈ x, P a)
    (hy : ∀ a ∈ y, P a) : ∀ a ∈ (x <|> y), P a := by
  cases x with
  | none => exact hy
  | some b => exact hx

theorem Sound.merge {c d : Config} (h : c.Sound) (h' : d.Sound) : (c.merge d).Sound where
  entries := List.forall_mem_append.mpr ⟨h.entries, h'.entries⟩
  scalars := {
    vmin := forall_mem_orElse h'.scalars.vmin h.scalars.vmin
    vtime := forall_mem_orElse h'.scalars.vtime h.scalars.vtime
    inputFd := forall_mem_orElse h'.scalars.inputFd h.scalars.inputFd
    outputFd := forall_mem_orElse h'.scalars.outputFd h.scalars.outputFd }

/-- Where no number stands outside of the entries, only these matter. -/
theorem sound_of_entries {debugLog : Option Text} {entries : List Entry}
    (h : ∀ e ∈ entries, e.Declared) : Sound { debugLog, inputMap := entries } := by
  have hnone : ∀ n : Int, n ∈ none → HasNumeral n := fun n hn => absurd hn (Option.not_mem_none n)
  exact ⟨h, hnone, hnone, hnone, hnone⟩

theorem sound_empty : Sound empty :=
  sound_of_entries fun _ he => absurd he List.not_mem_nil

theorem sound_fragment {d : Directive} (h : d.Declared) : d.fragment.Sound := by
  cases d with
  | map e => exact sound_of_entries (List.forall_mem_singleton.mpr h)
  | debugLog path => exact sound_of_entries fun _ he => absurd he List.not_mem_nil

end Config

/-- What a document says is declared. -/
theorem Document.sound_config (s : Bytes) : (config s).Sound := by
  fun_induction statements s with
  | case1 s hn =>
      rw [config, fragments_eq_nil.mpr (Statement.next?_eq_none.mp hn)]
      exact Config.sound_empty
  | case2 s statement t hn _ ih =>
      rw [config_of_next? hn]
      refine Config.Sound.merge ?_ ih
      obtain ⟨e, -, rfl, -⟩ | ⟨u, d, -, hd, rfl⟩ | ⟨u, e, -, -, -, rfl, -⟩ :=
        Statement.next?_cases hn
      · exact Config.sound_empty
      · exact Config.sound_fragment (Reader.declared_of_directive hd)
      · exact Config.sound_empty

namespace Config

theorem IsSource.sound {c : Config} (h : c.IsSource) : c.Sound := by
  cases h with
  | document name input => exact Document.sound_config _
  | overrides session => exact sound_of_entries fun _ he => absurd he List.not_mem_nil
  | baseline hbase =>
      rw [Session.baseline] at hbase
      split at hbase
      · cases hbase
        have hsmall : ∀ n : Int, n.natAbs < 10000000 → ∀ m ∈ some n, HasNumeral m := by
          rintro n hn m hm
          cases hm
          exact lt_decimalLimit (by decide) hn
        exact ⟨fun _ he => absurd he List.not_mem_nil, hsmall 1 (by decide),
          hsmall 100 (by decide), hsmall 0 (by decide), hsmall 1 (by decide)⟩
      · cases hbase

/-- Merging sources keeps everything sound. -/
theorem Loadable.sound {c : Config} (h : c.Loadable) : c.Sound := by
  induction h with
  | empty => exact sound_empty
  | behind _ hsource ih => exact ih.merge hsource.sound
  | inFront _ hsource ih => exact hsource.sound.merge ih

end Config

/-- A text that stands for bytes has them. -/
theorem Text.StandsForBytes.isEscapable {t : Text} (h : t.StandsForBytes) : t.IsEscapable := by
  obtain ⟨s, rfl⟩ := h
  exact Utf8.exists_encodeEscaped?.mp ⟨s, Utf8.encodeEscaped?_decodeEscaped s⟩

/-- The entries of a sound configuration are rendered when their numbers are. -/
theorem Config.Sound.entries_iff {c : Config} (h : c.Sound) :
    (∀ e ∈ c.inputMap, (∀ t ∈ e.term, t.IsEscapable) ∧ e.event.key.NumberFits) ↔
      c.NumbersFit :=
  forall₂_congr fun e he => and_iff_right fun t ht => ((h.entries e he).term t ht).isEscapable

/-- What is loaded is rendered exactly when its numbers have numerals and the path
    of its debug log has bytes.  Its input map is written to the debug log, or is
    reported as not written, exactly when its numbers have numerals and the path
    can name a file, whatever the files are and whatever the system refuses. -/
theorem Config.Loadable.renders_iff {c : Config} (h : c.Loadable) :
    ((∃ t, Render.config c = .ok t) ↔
      c.NumbersFit ∧ ∀ path ∈ c.debugLog, path.IsEscapable) ∧
    ∀ host tree, (∃ b, (DebugLog.writeOn host tree c).written = .ok b) ↔
      ∀ path ∈ c.debugLog, c.NumbersFit ∧ path.NamesFile := by
  constructor
  · refine Render.succeeds_config.trans ?_
    rw [h.sound.entries_iff]
    exact ⟨fun hall => ⟨hall.2.2, hall.2.1⟩, fun hall => ⟨h.sound.scalars, hall.2, hall.1⟩⟩
  · intro host tree
    refine DebugLog.succeeds_writeOn.trans ?_
    rw [Render.succeeds_inputMap, h.sound.entries_iff]

/-- A document that gives a NUL as the path of its debug log. -/
def nulPath : Source := .text "debugLog \"\\NUL\""

/-- It is rendered, but its input map is never written. -/
theorem nulPath_renders :
    (∃ t, Render.config (Document.read [] nulPath.buffer).value = .ok t) ∧
      ∀ tree, ¬ ∃ b,
        (DebugLog.write tree (Document.read [] nulPath.buffer).value).written = .ok b := by
  have hvalue : (Document.read [] nulPath.buffer).value
      = { debugLog := some [⟨0, by decide⟩] } := by
    decide +kernel
  have hloadable := Config.Loadable.document [] nulPath
  rw [hvalue] at hloadable ⊢
  have hnumbers : Config.NumbersFit { debugLog := some [⟨0, by decide⟩] } :=
    fun _ he => absurd he List.not_mem_nil
  constructor
  · refine hloadable.renders_iff.1.mpr ⟨hnumbers, ?_⟩
    rintro path hpath c hc hsurrogate
    cases hpath
    cases List.mem_singleton.mp hc
    exact absurd hsurrogate (by decide)
  · intro tree hwritten
    have hnames := ((hloadable.renders_iff.2 {} tree).mp hwritten _ rfl).2
    exact (hnames _ (List.mem_singleton.mpr rfl)).2 rfl

/-! ## A number that is too long to be written -/

/-- A document with an entry for a function key, the bytes being its number. -/
def functionKey (numeral : Bytes) : Bytes :=
  asciiBytes "map _ \"\" KFun " ++ numeral ++ asciiBytes " []"

/-- What is read as a number is the number of the function key. -/
theorem config_functionKey {numeral : Bytes} {n : Nat} (h : Writes numeral [.number n]) :
    Document.config (functionKey numeral)
      = { inputMap := [⟨none, [], ⟨⟨"KFun", some (.int n)⟩, []⟩⟩] } := by
  obtain ⟨data, hdata, hdataWrites⟩ := exists_string []
  have hnone : ∀ m ∈ ([] : List Modifier), m.name ∈ Modifier.catalog :=
    fun _ hm => absurd hm List.not_mem_nil
  obtain ⟨list, tokens, hlist, hlistWrites, hne, hspellsList⟩ := exists_modifiers hnone
  have hdataBytes : data = asciiBytes "\"\"" := hdata.encodeAll_eq.symm.trans (by decide)
  have hlistBytes : list = asciiBytes "[]" := hlist.encodeAll_eq.symm.trans (by decide)
  have hfront : asciiBytes "map _ \"\" KFun " = asciiBytes "map" ++ asciiBytes " "
      ++ asciiBytes "_" ++ asciiBytes " " ++ data ++ asciiBytes " " ++ asciiBytes "KFun"
      ++ asciiBytes " " := by
    rw [hdataBytes]
    decide
  have hback : asciiBytes " []" = asciiBytes " " ++ list := by
    rw [hlistBytes]
    decide
  have hwords : ∀ name, isWord name → Writes (asciiBytes name) [.identifier name] :=
    fun _ hname => (exists_word hname).2
  have hwrites := (((((hwords "map" (by decide)).space (hwords "_" (by decide)) (by simp)).space
    hdataWrites (by simp)).space (hwords "KFun" (by decide)) (by simp)).space h (by simp)).space
    hlistWrites hne
  have hspells : Directive.Spells _ (.map ⟨none, _, ⟨⟨"KFun", some (.int n)⟩, []⟩⟩) :=
    .map (Text.ofBytes []) .every (.intro (by decide) (.int n)) hspellsList
  rw [functionKey, hfront, hback, ← List.append_assoc]
  exact Document.config_of_writes hwrites (by simpa using hspells)

/-- The number `0x1000…` with so many zeros. -/
def hexPower (zeros : Nat) : Bytes :=
  ascii '0' :: ascii 'x' :: ([ascii '1'] ++ List.replicate zeros (ascii '0'))

/-- It is read as a power of sixteen. -/
theorem writes_hexPower (zeros : Nat) : Writes (hexPower zeros) [.number (16 ^ zeros)] := by
  have hdigits : ∀ b ∈ [ascii '1'] ++ List.replicate zeros (ascii '0'),
      Radix.hexadecimal.isDigit b := by
    intro b hb
    rcases List.mem_append.mp hb with hb | hb
    · rw [List.mem_singleton.mp hb]
      decide
    · rw [List.eq_of_mem_replicate hb]
      decide
  have hone : Radix.hexadecimal.value [ascii '1'] = 1 := by decide
  have hvalue : Radix.hexadecimal.value ([ascii '1'] ++ List.replicate zeros (ascii '0'))
      = 16 ^ zeros := by
    rw [Radix.value_append_zeros, hone, Nat.one_mul]
    rfl
  rw [← hvalue]
  exact writes_number (List.mem_pair.mpr (Or.inl rfl)) (List.cons_ne_nil _ _) hdigits nofun

/-- The entry is rendered only if its number has a decimal numeral. -/
theorem lt_of_functionKey_renders {numeral : Bytes} {n : Nat} (h : Writes numeral [.number n])
    (hrender : Succeeds (Render.config
      (Document.read [] (Source.bytes (functionKey numeral)).buffer).value)) :
    n < decimalLimit maxDecimalDigits := by
  have hvalue : (Document.read [] (Source.bytes (functionKey numeral)).buffer).value = _ :=
    config_functionKey h
  rw [hvalue] at hrender
  obtain ⟨-, -, hentries⟩ := Render.succeeds_config.mp hrender
  exact (hentries _ (List.mem_singleton.mpr rfl)).2 n rfl

/-- Not all that is loaded is rendered and written: a number of more than 4300
    decimal digits is read in hexadecimal. -/
theorem longNumber_not_rendered :
    ¬ ∀ c : Config, c.Loadable → (∃ t, Render.config c = .ok t) ∧
      ∀ tree, ∃ b, (DebugLog.write tree c).written = .ok b := by
  intro h
  have hrender := (h _ (Config.Loadable.document [] (.bytes (functionKey (hexPower 3572))))).1
  have hnumber := lt_of_functionKey_renders (writes_hexPower 3572) hrender
  have hlong : decimalLimit maxDecimalDigits ≤ 16 ^ 3572 := by decide +kernel
  exact absurd hnumber (Nat.not_lt_of_le hlong)

end TerminalConfig
