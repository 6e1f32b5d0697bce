import TerminalConfig.Source
import Mathlib.Data.List.Basic

/-! # UTF-8 — bytes survive as text

    A strict reader takes only what the encoder writes (`decodeOne?_eq_some`),
    and the bytes that it refuses are kept one by one.  So a text that stands
    for bytes is written back as these bytes, whatever they are
    (`encodeEscaped?_decodeEscaped`), and a text without surrogates is read
    from its encoding (`buffer_text`). -/

namespace TerminalConfig

namespace CodePoint

/-- A code point below the surrogates is a character. -/
theorem not_isSurrogate_of_lt {c : CodePoint} (h : c.val < 0xD800) : ¬ c.isSurrogate := by
  simp only [isSurrogate, Bool.and_eq_true, decide_eq_true_eq]
  omega

end CodePoint

namespace Utf8

/-- An ASCII character is one byte. -/
theorem encode_ascii {c : CodePoint} (h : c.val < 0x80) : encode c = [UInt8.ofNat c.val] := by
  rw [encode, if_pos h]

theorem toNat_continuation (n : Nat) : (continuation n).toNat = 0x80 + n % 64 := by
  rw [continuation, UInt8.toNat_ofNat']
  omega

/-- No byte of another character is an ASCII character. -/
theorem le_of_mem_encode {c : CodePoint} (h : 0x80 ≤ c.val) {b : UInt8} (hb : b ∈ encode c) :
    0x80 ≤ b.toNat := by
  have hc := c.val_lt
  have hcontinuation : ∀ n, 0x80 ≤ (continuation n).toNat := by
    intro n
    rw [toNat_continuation]
    omega
  have hlead : ∀ n, 0x80 ≤ n → n < 0x100 → 0x80 ≤ (UInt8.ofNat n).toNat := by
    intro n hn hn'
    rw [UInt8.toNat_ofNat_of_lt' hn']
    exact hn
  rw [encode, if_neg (by omega)] at hb
  split at hb
  · simp only [List.mem_cons, List.not_mem_nil, or_false] at hb
    rcases hb with rfl | rfl
    · exact hlead _ (by omega) (by omega)
    · exact hcontinuation _
  · split at hb
    · simp only [List.mem_cons, List.not_mem_nil, or_false] at hb
      rcases hb with rfl | rfl | rfl
      · exact hlead _ (by omega) (by omega)
      · exact hcontinuation _
      · exact hcontinuation _
    · simp only [List.mem_cons, List.not_mem_nil, or_false] at hb
      rcases hb with rfl | rfl | rfl | rfl
      · exact hlead _ (by omega) (by omega)
      · exact hcontinuation _
      · exact hcontinuation _
      · exact hcontinuation _

/-! ## Reading one character -/

/-- A byte is the number that it was made from. -/
theorem ofNat_eq {b : UInt8} {n : Nat} (h : n = b.toNat) : UInt8.ofNat n = b := by
  rw [h, UInt8.ofNat_toNat]

/-- How many bytes a character takes tells its range. -/
theorem length_encode (c : CodePoint) :
    (encode c).length = 1 ∧ c.val < 0x80 ∨
    (encode c).length = 2 ∧ 0x80 ≤ c.val ∧ c.val < 0x800 ∨
    (encode c).length = 3 ∧ 0x800 ≤ c.val ∧ c.val < 0x10000 ∨
    (encode c).length = 4 ∧ 0x10000 ≤ c.val := by
  rw [encode]
  split
  · next h => exact Or.inl ⟨rfl, h⟩
  · next h =>
    split
    · next h' => exact Or.inr (Or.inl ⟨rfl, by omega, h'⟩)
    · next h' =>
      split
      · next h'' => exact Or.inr (Or.inr (Or.inl ⟨rfl, by omega, h''⟩))
      · next h'' => exact Or.inr (Or.inr (Or.inr ⟨rfl, by omega⟩))

theorem continued?_zero {bits n : Nat} {s t : Bytes} (h : continued? 0 bits s = some (n, t)) :
    n = bits ∧ t = s := by
  obtain ⟨hn, ht⟩ := Prod.mk.inj (Option.some.inj h)
  exact ⟨hn.symm, ht.symm⟩

/-- What the bytes of a character spell, one after another. -/
theorem continued?_succ {count bits n : Nat} {s t : Bytes}
    (h : continued? (count + 1) bits s = some (n, t)) :
    ∃ b r, s = b :: r ∧ 0x80 ≤ b.toNat ∧ b.toNat < 0xC0 ∧
      continued? count (bits * 64 + (b.toNat - 0x80)) r = some (n, t) := by
  cases s with
  | nil => cases h
  | cons b r =>
      simp only [continued?] at h
      split at h
      · next hb =>
        simp only [Bool.and_eq_true, decide_eq_true_eq] at hb
        exact ⟨b, r, rfl, hb.1, hb.2, h⟩
      · cases h

/-- What a first byte says of the bytes behind it. -/
theorem lead?_eq_some {b : UInt8} {count bits : Nat} (h : lead? b = some (count, bits)) :
    count = 0 ∧ b.toNat < 0x80 ∧ bits = b.toNat ∨
    count = 1 ∧ 0xC0 ≤ b.toNat ∧ b.toNat < 0xE0 ∧ bits = b.toNat - 0xC0 ∨
    count = 2 ∧ 0xE0 ≤ b.toNat ∧ b.toNat < 0xF0 ∧ bits = b.toNat - 0xE0 ∨
    count = 3 ∧ 0xF0 ≤ b.toNat ∧ b.toNat < 0xF8 ∧ bits = b.toNat - 0xF0 := by
  simp only [lead?] at h
  split at h
  · cases h
    omega
  split at h
  · cases h
  split at h
  · cases h
    omega
  split at h
  · cases h
    omega
  split at h
  · cases h
    omega
  · cases h

/-- The bytes that spell a character are its encoding, if they are as many: the
    number of bytes tells the range, and so the form is the shortest. -/
theorem eq_encode_append {b : UInt8} {r t : Bytes} {c : CodePoint} {count bits : Nat}
    (hlead : lead? b = some (count, bits)) (h : continued? count bits r = some (c.val, t))
    (hlength : (encode c).length = count + 1) : b :: r = encode c ++ t := by
  have hrange := length_encode c
  rcases lead?_eq_some hlead with ⟨rfl, hb, hbits⟩ | ⟨rfl, hb, hb', hbits⟩ |
    ⟨rfl, hb, hb', hbits⟩ | ⟨rfl, hb, hb', hbits⟩
  · obtain ⟨hval, rfl⟩ := continued?_zero h
    rw [encode_ascii (by omega), ofNat_eq (b := b) (by omega)]
    rfl
  · obtain ⟨x, r, rfl, hx, hx', h⟩ := continued?_succ h
    obtain ⟨hval, rfl⟩ := continued?_zero h
    rw [encode, if_neg (by omega), if_pos (by omega), continuation,
      ofNat_eq (b := b) (by omega), ofNat_eq (b := x) (by omega)]
    rfl
  · obtain ⟨x, r, rfl, hx, hx', h⟩ := continued?_succ h
    obtain ⟨y, r, rfl, hy, hy', h⟩ := continued?_succ h
    obtain ⟨hval, rfl⟩ := continued?_zero h
    rw [encode, if_neg (by omega), if_neg (by omega), if_pos (by omega), continuation,
      continuation, ofNat_eq (b := b) (by omega), ofNat_eq (b := x) (by omega),
      ofNat_eq (b := y) (by omega)]
    rfl
  · obtain ⟨x, r, rfl, hx, hx', h⟩ := continued?_succ h
    obtain ⟨y, r, rfl, hy, hy', h⟩ := continued?_succ h
    obtain ⟨z, r, rfl, hz, hz', h⟩ := continued?_succ h
    obtain ⟨hval, rfl⟩ := continued?_zero h
    rw [encode, if_neg (by omega), if_neg (by omega), if_neg (by omega), continuation,
      continuation, continuation, ofNat_eq (b := b) (by omega), ofNat_eq (b := x) (by omega),
      ofNat_eq (b := y) (by omega), ofNat_eq (b := z) (by omega)]
    rfl

/-- A code point has its number. -/
theorem val_of_ofNat? {n : Nat} {c : CodePoint} (h : CodePoint.ofNat? n = some c) : n = c.val := by
  rw [CodePoint.ofNat?] at h
  split at h
  · cases h
    rfl
  · cases h

/-- What is read of a character is its encoding, and it is no surrogate. -/
theorem decodeOne?_eq_some {s t : Bytes} {c : CodePoint} (h : decodeOne? s = some (c, t)) :
    s = encode c ++ t ∧ ¬ c.isSurrogate := by
  cases s with
  | nil => cases h
  | cons b r =>
      simp only [decodeOne?, Option.bind_eq_bind, Option.bind_eq_some_iff] at h
      obtain ⟨⟨count, bits⟩, hlead, ⟨n, rest⟩, hcontinued, d, hd, h⟩ := h
      split at h
      · cases h
      · next hshort =>
        simp only [Bool.or_eq_true, bne_iff_ne, ne_eq, not_or, not_not] at hshort
        cases h
        obtain rfl : n = c.val := val_of_ofNat? hd
        exact ⟨eq_encode_append hlead hcontinued hshort.2, hshort.1⟩

/-- An ASCII byte is always read as a character. -/
theorem decodeOne?_ascii {b : UInt8} (h : b.toNat < 0x80) (r : Bytes) :
    decodeOne? (b :: r) = some (.ofByte b, r) := by
  have hc : (CodePoint.ofByte b).val < 0x80 := h
  have hd : CodePoint.ofNat? b.toNat = some (.ofByte b) :=
    dif_pos (Nat.lt_trans b.toNat_lt (by decide))
  simp only [decodeOne?, lead?, if_pos h, continued?, Option.bind_eq_bind, Option.bind_some, hd,
    encode_ascii hc]
  rw [if_neg]
  simp [CodePoint.not_isSurrogate_of_lt (Nat.lt_trans hc (by decide))]

/-! ## Whole texts -/

theorem encodeEscaped?_cons (c : CodePoint) (t : Text) :
    encodeEscaped? (c :: t)
      = (encodeOneEscaped? c).bind fun x => (encodeEscaped? t).map (x ++ ·) := by
  rw [encodeEscaped?, encodeEscaped?, List.mapM_cons]
  cases encodeOneEscaped? c with
  | none => rfl
  | some x => cases t.mapM encodeOneEscaped? <;> rfl

theorem encodeOneEscaped?_char {c : CodePoint} (h : ¬ c.isSurrogate) :
    encodeOneEscaped? c = some (encode c) := by
  rw [encodeOneEscaped?, if_neg h]

/-- The escape of a byte stands for it. -/
theorem encodeOneEscaped?_escapeByte {b : UInt8} (h : 0x80 ≤ b.toNat) :
    encodeOneEscaped? (escapeByte b) = some [b] := by
  have hb := b.toNat_lt
  have hval : (escapeByte b).val = 0xDC00 + b.toNat := rfl
  have hsurrogate : (escapeByte b).isSurrogate := by
    simp only [CodePoint.isSurrogate, hval, Bool.and_eq_true, decide_eq_true_eq]
    omega
  have hrange : (decide (0xDC80 ≤ (escapeByte b).val) && decide ((escapeByte b).val ≤ 0xDCFF))
      = true := by
    simp only [hval, Bool.and_eq_true, decide_eq_true_eq]
    omega
  rw [encodeOneEscaped?, if_pos hsurrogate, escapedByte?, if_pos hrange, Option.map_some,
    ofNat_eq (b := b) (by omega)]

/-- A text that stands for bytes is written as these bytes. -/
theorem encodeEscaped?_decodeEscaped (s : Bytes) : encodeEscaped? (decodeEscaped s) = some s := by
  fun_induction decodeEscaped s with
  | case1 => rfl
  | case2 b r c t h _ ih =>
      obtain ⟨hs, hc⟩ := decodeOne?_eq_some h
      rw [encodeEscaped?_cons, encodeOneEscaped?_char hc, ih, hs]
      rfl
  | case3 b r h ih =>
      -- a byte that is kept is no ASCII one, since these are always characters
      have hb : 0x80 ≤ b.toNat := by
        by_contra hb
        rw [decodeOne?_ascii (by omega)] at h
        cases h
      rw [encodeEscaped?_cons, encodeOneEscaped?_escapeByte hb, ih]
      rfl

/-- A text without surrogates is written as its encoding. -/
theorem encodeEscaped?_of_chars {t : Text} (h : ∀ c ∈ t, ¬ c.isSurrogate) :
    encodeEscaped? t = some (encodeAll t) := by
  induction t with
  | nil => rfl
  | cons c t ih =>
      rw [encodeEscaped?_cons, encodeOneEscaped?_char (h c List.mem_cons_self),
        ih fun d hd => h d (List.mem_cons_of_mem c hd)]
      rfl

theorem encodeAll_append (t u : Text) : encodeAll (t ++ u) = encodeAll t ++ encodeAll u :=
  List.flatMap_append

/-- ASCII bytes are the encoding of their own text. -/
theorem encodeAll_ofBytes {s : Bytes} (h : ∀ b ∈ s, b.toNat < 0x80) :
    encodeAll (Text.ofBytes s) = s := by
  induction s with
  | nil => rfl
  | cons b s ih =>
      have hb : (CodePoint.ofByte b).val < 0x80 := h b List.mem_cons_self
      have hs := ih fun c hc => h c (List.mem_cons_of_mem b hc)
      rw [Text.ofBytes_cons, encodeAll, List.flatMap_cons, encode_ascii hb]
      rw [encodeAll] at hs
      rw [hs, CodePoint.val_ofByte, UInt8.ofNat_toNat]
      rfl

end Utf8

/-- A text without surrogates is read from its encoding. -/
theorem buffer_text {t : Text} (h : ∀ c ∈ t, ¬ c.isSurrogate) :
    (Source.text t).buffer = Utf8.encodeAll t := by
  rw [Source.buffer, Utf8.encodeEscaped?_of_chars h]
  rfl

end TerminalConfig
