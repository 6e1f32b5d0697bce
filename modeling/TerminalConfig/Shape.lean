import TerminalConfig.Shape.Composite

/-! # Shapes — what a value looks like, and how it is read

    A shape is a scalar, a list of values of one shape, or an enumeration: a
    table of variant names, each with the shape of its payload if it has
    one.  `Shape.reader` is the only place where shapes are walked, so a new
    enumeration is a new table and nothing else.  Values that are more than what
    a shape says, such as keys, have readers of their own beside it. -/

namespace TerminalConfig

/-- A value read by a shape. -/
inductive Value
  | int (n : Nat)
  | char (c : CodePoint)
  | string (text : Text)
  | list (items : List Value)
  | variant (name : String) (payload : Option Value)

/-- What is expected at a place.  A `blank` shape has not been filled in:
    nothing can be read by it. -/
inductive Shape
  | int
  | char
  | string
  | list (element : Shape)
  | enum (name : String) (variants : List (String × Option Shape))
  | blank

namespace Shape

mutual

/-- Reads a value of a shape. -/
def reader : Shape → Reader Value
  | int => .int <$> Reader.natural
  | char => .char <$> Reader.charLiteral
  | string => .string <$> Reader.stringLiteral
  | list element => .list <$> Reader.list element.reader
  | enum name variants => Reader.variant name (readerOf variants)
  | blank => Reader.fail .noShape

/-- What reads the rest of a variant whose name is known. -/
def readerOf : List (String × Option Shape) → String → Option (Reader Value)
  | [], _ => none
  | (name, none) :: variants, found =>
      if name = found then some (return .variant name none) else readerOf variants found
  | (name, some payload) :: variants, found =>
      if name = found then some ((fun v => .variant name (some v)) <$> payload.reader)
      else readerOf variants found

end

/-- The names of the variants of an enumeration, in order. -/
def variantNames : Shape → List String
  | enum _ variants => variants.map (·.1)
  | _ => []

/-- The payload shape of the variant of that name: none when there is no such
    variant, `some none` when it has no payload. -/
def variant? (name : String) : Shape → Option (Option Shape)
  | enum _ variants => variants.lookup name
  | _ => none

/-- The words for an enumeration. -/
def describe? : Shape → Option Text
  | enum name variants =>
      some ("EnumShape(" ++ Text.quoted name ++ ", " ++ Text.decimal variants.length
        ++ " variants)")
  | _ => none

end Shape

end TerminalConfig
