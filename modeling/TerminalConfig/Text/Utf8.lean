import TerminalConfig.Text.CodePoint

/-! # UTF-8 — texts as bytes and bytes as texts

    Every code point has an encoding of one to four bytes; a strict reader
    takes only the encodings of characters, in their one shortest form.
    Bytes that it refuses are not lost: `decodeEscaped` keeps such a byte
    `b` as the surrogate `0xDC00 + b`, and `encodeEscaped?` turns exactly
    these surrogates back into their bytes. -/

namespace TerminalConfig

namespace Utf8

/-- A byte `10xxxxxx` that carries the low six bits of a number. -/
def continuation (n : Nat) : UInt8 :=
  UInt8.ofNat (0x80 + n % 64)

/-- The encoding of a code point, surrogates included. -/
def encode (c : CodePoint) : Bytes :=
  if c.val < 0x80 then
    [UInt8.ofNat c.val]
  else if c.val < 0x800 then
    [UInt8.ofNat (0xC0 + c.val / 64), continuation c.val]
  else if c.val < 0x10000 then
    [UInt8.ofNat (0xE0 + c.val / 4096), continuation (c.val / 64), continuation c.val]
  else
    [UInt8.ofNat (0xF0 + c.val / 262144), continuation (c.val / 4096),
      continuation (c.val / 64), continuation c.val]

/-- The encoding of a text, surrogates included. -/
def encodeAll (t : Text) : Bytes :=
  t.flatMap encode

/-- How many bytes follow a first byte, and the bits that it carries. -/
def lead? (b : UInt8) : Option (Nat × Nat) :=
  if b.toNat < 0x80 then some (0, b.toNat)
  else if b.toNat < 0xC0 then none
  else if b.toNat < 0xE0 then some (1, b.toNat - 0xC0)
  else if b.toNat < 0xF0 then some (2, b.toNat - 0xE0)
  else if b.toNat < 0xF8 then some (3, b.toNat - 0xF0)
  else none

/-- The number that `bits` and the next `count` continuation bytes spell,
    with what follows them. -/
def continued? : (count bits : Nat) → Bytes → Option (Nat × Bytes)
  | 0, bits, s => some (bits, s)
  | _ + 1, _, [] => none
  | count + 1, bits, b :: s =>
      if 0x80 ≤ b.toNat && b.toNat < 0xC0 then
        continued? count (bits * 64 + (b.toNat - 0x80)) s
      else none

/-- The character at the start of the bytes, in shortest form, with what
    follows it. -/
def decodeOne? : Bytes → Option (CodePoint × Bytes)
  | [] => none
  | b :: r => do
      let (count, bits) ← lead? b
      let (n, rest) ← continued? count bits r
      let c ← CodePoint.ofNat? n
      if c.isSurrogate || (encode c).length != count + 1 then none else some (c, rest)

/-- What `continued?` leaves is no longer than what it was given. -/
theorem length_continued? {count bits n : Nat} {s t : Bytes}
    (h : continued? count bits s = some (n, t)) : t.length ≤ s.length := by
  induction count generalizing bits s with
  | zero =>
      simp only [continued?, Option.some.injEq, Prod.mk.injEq] at h
      exact Nat.le_of_eq (congrArg List.length h.2.symm)
  | succ count ih =>
      cases s with
      | nil => simp [continued?] at h
      | cons b r =>
          simp only [continued?] at h
          split at h
          · exact Nat.le_succ_of_le (ih h)
          · simp at h

/-- A character takes at least one byte. -/
theorem length_decodeOne? {s t : Bytes} {c : CodePoint} (h : decodeOne? s = some (c, t)) :
    t.length < s.length := by
  cases s with
  | nil => simp [decodeOne?] at h
  | cons b r =>
      simp only [decodeOne?, Option.bind_eq_bind, Option.bind_eq_some_iff] at h
      obtain ⟨⟨count, bits⟩, -, ⟨n, rest⟩, hc, d, -, h⟩ := h
      split at h
      · simp at h
      · simp only [Option.some.injEq, Prod.mk.injEq] at h
        rw [← h.2]
        exact Nat.lt_succ_of_le (length_continued? hc)

/-- The surrogate that stands for a byte that is no part of a character. -/
def escapeByte (b : UInt8) : CodePoint :=
  ⟨0xDC00 + b.toNat, by have := b.toNat_lt; omega⟩

/-- The byte that a surrogate stands for: `0xDC80` to `0xDCFF` stand for the
    bytes from `0x80` on, and no other surrogate for any. -/
def escapedByte? (c : CodePoint) : Option UInt8 :=
  if 0xDC80 ≤ c.val && c.val ≤ 0xDCFF then some (UInt8.ofNat (c.val - 0xDC00)) else none

/-- The text of any bytes: the characters they encode, and an escape for each
    byte that is part of none. -/
def decodeEscaped (s : Bytes) : Text :=
  match s with
  | [] => []
  | b :: r =>
      match h : decodeOne? (b :: r) with
      | some (c, t) =>
          have := length_decodeOne? h
          c :: decodeEscaped t
      | none => escapeByte b :: decodeEscaped r
termination_by s.length
decreasing_by
  · exact this
  · exact Nat.lt_succ_self _

/-- The bytes of one code point where escapes stand for their bytes. -/
def encodeOneEscaped? (c : CodePoint) : Option Bytes :=
  if c.isSurrogate then (escapedByte? c).map ([·]) else some (encode c)

/-- The bytes of a text where escapes stand for their bytes; none when it
    holds a surrogate that is no escape. -/
def encodeEscaped? (t : Text) : Option Bytes :=
  (t.mapM encodeOneEscaped?).map List.flatten

end Utf8

end TerminalConfig
