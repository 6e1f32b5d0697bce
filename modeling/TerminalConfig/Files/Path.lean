import TerminalConfig.Text.Quoted
import TerminalConfig.Text.Utf8

/-! # Paths — the names of files

    A path is a text; the file system knows it by its bytes, in which the
    escapes of the text stand for the bytes they came from.  A path in
    normal form has no empty and no `.` segment; `..` stays, since what it
    leads to depends on what is there. -/

namespace TerminalConfig

/-- Why a text names no file at all. -/
inductive PathFault
  | loneSurrogate
  | nulByte
deriving DecidableEq, Repr

namespace Path

/-- The parts of a list between the separators. -/
def segments {α : Type} [DecidableEq α] (separator : α) : List α → List (List α)
  | [] => [[]]
  | a :: s =>
      if a = separator then [] :: segments separator s
      else
        match segments separator s with
        | [] => [[a]]
        | first :: later => (a :: first) :: later

/-- The byte that separates segments. -/
def slash : UInt8 := 0x2F

/-- The bytes that a path is known by. -/
def bytes (path : Text) : Except PathFault Bytes :=
  match Utf8.encodeEscaped? path with
  | none => .error .loneSurrogate
  | some s => if s.contains 0 then .error .nulByte else .ok s

/-- The leading slashes of a path in normal form: exactly two stay two. -/
def root (path : Text) : Text :=
  match (path.takeWhile (· == CodePoint.ofChar '/')).length with
  | 0 => []
  | 2 => "//"
  | _ => "/"

/-- The path without empty segments and without `.`; nothing is left of an
    empty path but `.`. -/
def normalize (path : Text) : Text :=
  let names := (segments (CodePoint.ofChar '/') path).filter fun name =>
    name != [] && name != Text.ofString "."
  match root path ++ (names.intersperse (Text.ofString "/")).flatten with
  | [] => "."
  | normal => normal

end Path

end TerminalConfig
