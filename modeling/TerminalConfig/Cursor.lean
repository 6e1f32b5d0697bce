import TerminalConfig.Directive
import TerminalConfig.Lexical.Diagnostic

/-! # Cursors — reading one buffer step by step

    A cursor is a place in a buffer, held as what remains there.  Each step
    reads at the cursor and moves it: behind what was read, or, if the step
    fails, to where reading stopped.  Only `seek` may move it back. -/

namespace TerminalConfig

/-- A place in a buffer. -/
structure Cursor where
  buffer : Bytes
  rest : Bytes
  rest_suffix : rest <:+ buffer

/-- What can be done at a cursor. -/
inductive Step
  | identifier
  | stringLiteral
  | charLiteral
  | natural
  | peek
  | atEnd
  | skipGap
  | skipLine
  | seek (offset : Nat)
  | symbol (text : String)
  | value (shape : Shape)
  | mapDirective
  | debugLogDirective
  | tokens

/-- What a step gives. -/
inductive Answer
  | nothing
  | name (name : String)
  | text (text : Text)
  | char (c : CodePoint)
  | number (n : Nat)
  | next (byte : Option UInt8)
  | flag (b : Bool)
  | value (v : Value)
  | directive (d : Directive)
  | tokens (ts : List Token)

/-- The reader behind a step; moving to an offset reads nothing. -/
def Step.reader : Step → Reader Answer
  | identifier => .name <$> Reader.identifier
  | stringLiteral => .text <$> Reader.stringLiteral
  | charLiteral => .char <$> Reader.charLiteral
  | natural => .number <$> Reader.natural
  | peek => .next <$> Reader.ahead
  | atEnd => (fun s => .flag s.isEmpty) <$> Reader.remaining
  | skipGap => (fun _ => .nothing) <$> Reader.gap
  | skipLine => (fun _ => .nothing) <$> Reader.skipLine
  | seek _ => return .nothing
  | symbol text => .name <$> Reader.symbol text
  | value shape => .value <$> shape.reader
  | mapDirective => .directive <$> Reader.mapDirective
  | debugLogDirective => .directive <$> Reader.debugLogDirective
  | tokens => .tokens <$> Reader.tokens

namespace Cursor

/-- The start of a buffer. -/
def start (buffer : Bytes) : Cursor :=
  ⟨buffer, buffer, List.suffix_refl _⟩

/-- How many bytes stand before the cursor. -/
def offset (c : Cursor) : Nat :=
  c.buffer.length - c.rest.length

/-- The place at an offset of the same buffer, or the end of the buffer if it
    is shorter. -/
def seek (c : Cursor) (offset : Nat) : Cursor :=
  ⟨c.buffer, c.buffer.drop offset, List.drop_suffix _ _⟩

/-- Reads at the cursor and moves it. -/
def read {α : Type} (c : Cursor) (r : Reader α) : Except Failure α × Cursor :=
  match h : r.run c.rest with
  | .ok (a, t) => (.ok a, ⟨c.buffer, t, (r.rest_suffix h).trans c.rest_suffix⟩)
  | .error e =>
      (.error e, ⟨c.buffer, e.stop,
        ((r.failure_suffix h).1.trans (r.failure_suffix h).2).trans c.rest_suffix⟩)

/-- Does one step. -/
def step (c : Cursor) : Step → Except Failure Answer × Cursor
  | .seek offset => (.ok .nothing, c.seek offset)
  | other => c.read other.reader

/-- What is read moves the cursor behind it. -/
theorem read_of_ok {α : Type} {c : Cursor} {r : Reader α} {a : α} {t : Bytes}
    (h : r.run c.rest = .ok (a, t)) :
    c.read r = (.ok a, ⟨c.buffer, t, (r.rest_suffix h).trans c.rest_suffix⟩) := by
  unfold read
  split
  · next h' =>
    rw [h] at h'
    cases h'
    rfl
  · next h' =>
    rw [h] at h'
    cases h'

/-- A failure moves the cursor to where reading stopped. -/
theorem read_of_error {α : Type} {c : Cursor} {r : Reader α} {e : Failure}
    (h : r.run c.rest = .error e) :
    c.read r = (.error e, ⟨c.buffer, e.stop,
      ((r.failure_suffix h).1.trans (r.failure_suffix h).2).trans c.rest_suffix⟩) := by
  unfold read
  split
  · next h' =>
    rw [h] at h'
    cases h'
  · next h' =>
    rw [h] at h'
    cases h'
    rfl

/-- What a cursor reads is read of the same buffer. -/
@[simp] theorem buffer_read {α : Type} (c : Cursor) (r : Reader α) :
    (c.read r).2.buffer = c.buffer := by
  unfold read
  split <;> rfl

end Cursor

end TerminalConfig
