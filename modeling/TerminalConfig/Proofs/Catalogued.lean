import TerminalConfig.Config
import TerminalConfig.Lexical.Numeral
import TerminalConfig.Text.Utf8

/-! # Catalogued values — what the language can say, and what it can write down

    The language can say an entry if its key and its modifiers are of the catalogs,
    the key with the payload that its name needs, and its terminal stands for bytes
    (`Entry.Declared`).  It can write the entry down if the number of the key has a
    decimal numeral besides (`Entry.Catalogued`): numbers are read in octal and
    hexadecimal with any number of digits, but decimal numerals are limited. -/

namespace TerminalConfig

/-- The text stands for some bytes. -/
def Text.StandsForBytes (t : Text) : Prop :=
  ∃ s : Bytes, t = Utf8.decodeEscaped s

/-- The number has a decimal numeral. -/
def HasNumeral (n : Int) : Prop :=
  n.natAbs < decimalLimit maxDecimalDigits

/-- The payload is one of its kind: a character is no surrogate, and a number
    is natural, whatever its length. -/
inductive IsPayload : Option PayloadKind → Option KeyPayload → Prop
  | none : IsPayload none none
  | char {c : CodePoint} : ¬ c.isSurrogate → IsPayload (some .char) (some (.char c))
  | int (n : Nat) : IsPayload (some .int) (some (.int n))

/-- A key of the catalog with a payload of the kind that its name needs. -/
def Key.Declared (k : Key) : Prop :=
  ∃ kind, (k.name, kind) ∈ Key.catalog ∧ IsPayload kind k.payload

/-- If the key has a number, it has a numeral. -/
def Key.NumberFits (k : Key) : Prop :=
  ∀ n, k.payload = some (.int n) → HasNumeral n

@[simp] theorem Key.numberFits_none {name : String} : Key.NumberFits ⟨name, none⟩ :=
  nofun

@[simp] theorem Key.numberFits_char {name : String} {c : CodePoint} :
    Key.NumberFits ⟨name, some (.char c)⟩ :=
  nofun

@[simp] theorem Key.numberFits_int {name : String} {n : Int} :
    Key.NumberFits ⟨name, some (.int n)⟩ ↔ HasNumeral n := by
  simp [Key.NumberFits]

/-- An entry that a `map` directive can make. -/
structure Entry.Declared (e : Entry) : Prop where
  term : ∀ t ∈ e.term, t.StandsForBytes
  key : e.event.key.Declared
  modifiers : ∀ m ∈ e.event.modifiers, m.name ∈ Modifier.catalog

/-- An entry that a configuration file can hold as it is rendered. -/
structure Entry.Catalogued (e : Entry) : Prop extends Entry.Declared e where
  fits : e.event.key.NumberFits

/-- The numbers outside of the input map have numerals. -/
structure Config.ScalarsFit (c : Config) : Prop where
  vmin : ∀ n ∈ c.vmin, HasNumeral n
  vtime : ∀ n ∈ c.vtime, HasNumeral n
  inputFd : ∀ n ∈ c.inputFd, HasNumeral n
  outputFd : ∀ n ∈ c.outputFd, HasNumeral n

/-- The numbers of the input map have numerals. -/
def Config.NumbersFit (c : Config) : Prop :=
  ∀ e ∈ c.inputMap, e.event.key.NumberFits

/-- A configuration that the language can write down.  Booleans and the name of
    the terminal are always written, the name being quoted. -/
structure Config.Catalogued (c : Config) : Prop extends Config.ScalarsFit c where
  entries : ∀ e ∈ c.inputMap, e.Catalogued
  debugLog : ∀ path ∈ c.debugLog, path.StandsForBytes

end TerminalConfig
