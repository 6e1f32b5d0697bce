import TerminalConfig.Text.Utf8

/-! # Sources — what a configuration is read from

    A source is bytes, or a text that stands for bytes.  A text is taken for
    its UTF-8 encoding, and the escapes in it for the bytes they stand for,
    so that it reads like the same text from a file.  If some surrogate in it
    is no escape, none is taken for one. -/

namespace TerminalConfig

/-- What a configuration is read from. -/
inductive Source
  | bytes (s : Bytes)
  | text (t : Text)

/-- The buffer that is read. -/
def Source.buffer : Source → Bytes
  | bytes s => s
  | text t => (Utf8.encodeEscaped? t).getD (Utf8.encodeAll t)

end TerminalConfig
