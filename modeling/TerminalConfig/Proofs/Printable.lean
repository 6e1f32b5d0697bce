import TerminalConfig.Proofs.ByteClasses
import TerminalConfig.Proofs.FixedText
import TerminalConfig.Proofs.Utf8

/-! # Printable texts — what is rendered, byte by byte

    Directives are rendered in printable ASCII.  `Prints t w` says that the
    text `t` is the bytes `w`, all of them printable; such a text is read from
    exactly these bytes, and it stays on its line. -/

namespace TerminalConfig

/-- A character from the space up to the tilde. -/
def isPrintableChar (c : Char) : Bool :=
  c.toNat < 0x100 && isPrintableAscii (ascii c)

/-- The text is these bytes, and all of them are printable ASCII. -/
structure Prints (t : Text) (w : Bytes) : Prop where
  text_eq : t = Text.ofBytes w
  printable : ∀ b ∈ w, isPrintableAscii b

theorem toNat_ascii {c : Char} (h : c.toNat < 0x100) : (ascii c).toNat = c.toNat :=
  UInt8.toNat_ofNat_of_lt' h

/-- An ASCII character is the code point of its byte. -/
theorem ofChar_eq_ofByte {c : Char} (h : c.toNat < 0x100) :
    CodePoint.ofChar c = CodePoint.ofByte (ascii c) := by
  ext
  rw [CodePoint.val_ofChar, CodePoint.val_ofByte, toNat_ascii h]

namespace Prints

variable {t u : Text} {w v : Bytes}

theorem append (h : Prints t w) (h' : Prints u v) : Prints (t ++ u) (w ++ v) where
  text_eq := by rw [h.text_eq, h'.text_eq, Text.ofBytes_append]
  printable b hb := (List.mem_append.mp hb).elim (h.printable b) (h'.printable b)

theorem nil : Prints [] [] :=
  ⟨rfl, fun _ hb => absurd hb List.not_mem_nil⟩

theorem ofBytes (h : w.all isPrintableAscii) : Prints (Text.ofBytes w) w :=
  ⟨rfl, List.all_eq_true.mp h⟩

/-- Printable characters print as their bytes. -/
theorem ofChars {text : List Char} (h : text.all isPrintableChar) :
    Prints (text.map CodePoint.ofChar) (text.map ascii) := by
  have hall : ∀ c ∈ text, c.toNat < 0x100 ∧ isPrintableAscii (ascii c) := by
    intro c hc
    simpa [isPrintableChar] using List.all_eq_true.mp h c hc
  constructor
  · rw [Text.ofBytes, List.map_map]
    exact List.map_congr_left fun c hc => ofChar_eq_ofByte (hall c hc).1
  · intro b hb
    obtain ⟨c, hc, rfl⟩ := List.mem_map.mp hb
    exact (hall c hc).2

/-- A printable string prints as its bytes. -/
theorem ofString {text : String} (h : text.toList.all isPrintableChar) :
    Prints text (asciiBytes text) :=
  ofChars h

/-- A printed text is read from its bytes. -/
theorem encodeAll_eq (h : Prints t w) : Utf8.encodeAll t = w := by
  rw [h.text_eq]
  refine Utf8.encodeAll_ofBytes fun b hb => ?_
  have := (toNat_of_isPrintableAscii (h.printable b hb)).2
  omega

/-- A printed text holds no surrogate. -/
theorem not_isSurrogate (h : Prints t w) : ∀ c ∈ t, ¬ c.isSurrogate := by
  intro c hc
  rw [h.text_eq] at hc
  obtain ⟨b, -, rfl⟩ := List.mem_map.mp hc
  exact CodePoint.not_isSurrogate_of_lt (Nat.lt_trans b.toNat_lt (by decide))

end Prints

end TerminalConfig
