import TerminalConfig.Shape

/-! # Events — the key presses that bytes are mapped to

    A key is a name, for some names with a payload: the character of a
    `KChar`, the number of a `KFun`.  The catalogs list the names that a
    configuration may use; a key built elsewhere may carry any name. -/

namespace TerminalConfig

/-- What a key carries besides its name. -/
inductive KeyPayload
  | char (c : CodePoint)
  | int (n : Int)
deriving DecidableEq

/-- A key. -/
structure Key where
  name : String
  payload : Option KeyPayload
deriving DecidableEq

/-- A key that is held down with others. -/
structure Modifier where
  name : String
deriving DecidableEq, Repr

/-- A key press, with its modifiers in the order in which they were written. -/
structure Event where
  key : Key
  modifiers : List Modifier
deriving DecidableEq

/-- The kinds of payload that the catalog knows. -/
inductive PayloadKind
  | char
  | int
deriving DecidableEq, Repr

namespace PayloadKind

/-- The shape of a payload of this kind. -/
def shape : PayloadKind → Shape
  | char => .char
  | int => .int

/-- Reads a payload of this kind. -/
def reader : PayloadKind → Reader KeyPayload
  | char => .char <$> Reader.charLiteral
  | int => (fun n => .int (Int.ofNat n)) <$> Reader.natural

end PayloadKind

namespace Key

/-- The keys of the language, with the payloads they need. -/
def catalog : List (String × Option PayloadKind) :=
  [ ("KEsc", none), ("KChar", some .char), ("KBS", none), ("KEnter", none), ("KLeft", none),
    ("KRight", none), ("KUp", none), ("KDown", none), ("KUpLeft", none), ("KUpRight", none),
    ("KDownLeft", none), ("KDownRight", none), ("KCenter", none), ("KFun", some .int),
    ("KBackTab", none), ("KPrtScr", none), ("KPause", none), ("KIns", none), ("KHome", none),
    ("KPageUp", none), ("KDel", none), ("KEnd", none), ("KPageDown", none), ("KBegin", none),
    ("KMenu", none) ]

/-- The name of the enumeration of keys. -/
def enumeration : String := "Key"

/-- The shape of a key. -/
def shape : Shape :=
  .enum enumeration (catalog.map fun (name, kind) => (name, kind.map PayloadKind.shape))

/-- What reads the rest of a key whose name is known. -/
def readerOf (name : String) : Option (Reader Key) :=
  (catalog.lookup name).map fun
    | none => return ⟨name, none⟩
    | some kind => (fun payload => ⟨name, some payload⟩) <$> kind.reader

/-- Reads a key. -/
def reader : Reader Key :=
  Reader.variant enumeration readerOf

end Key

namespace Modifier

/-- The modifiers of the language. -/
def catalog : List String :=
  ["MShift", "MCtrl", "MMeta", "MAlt"]

/-- The name of the enumeration of modifiers. -/
def enumeration : String := "Modifier"

/-- The shape of a modifier. -/
def shape : Shape :=
  .enum enumeration (catalog.map fun name => (name, none))

/-- The shape of a list of modifiers. -/
def listShape : Shape :=
  .list shape

/-- Reads a modifier. -/
def reader : Reader Modifier :=
  Reader.variant enumeration fun name =>
    if name ∈ catalog then some (return ⟨name⟩) else none

/-- Reads a list of modifiers. -/
def listReader : Reader (List Modifier) :=
  Reader.list reader

end Modifier

end TerminalConfig
