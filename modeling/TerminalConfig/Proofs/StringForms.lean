import TerminalConfig.Proofs.Literals

/-! # String forms — the language of string literals

    A string literal is a sequence of items between quotes.  An item is a code
    point in one of its forms, or a separator that adds nothing: the empty escape,
    or a gap of blanks between two backslashes.  `Items` writes this down, and the
    literals that are read are the ones that it derives (`readItems_iff`).

    What an item is, its first bytes decide, except for how far it goes: a number
    and a name go as far as they can (`Form.EndsAt`).  A separator ends them, so
    with one behind each code point any forms may stand side by side
    (`Reader.stringLiteral_language`). -/

namespace TerminalConfig

/-! ## Items -/

/-- What adds nothing to a string. -/
inductive Separator
  | empty
  | gap (blanks : Bytes)

namespace Separator

def bytes : Separator → Bytes
  | empty => [backslash, ampersand]
  | gap blanks => backslash :: (blanks ++ [backslash])

/-- A gap holds blanks, and at least one. -/
def IsProper : Separator → Prop
  | empty => True
  | gap blanks => blanks ≠ [] ∧ ∀ b ∈ blanks, isBlank b

/-- A separator starts with a backslash. -/
theorem exists_bytes (p : Separator) : ∃ r, p.bytes = backslash :: r := by
  cases p with
  | empty => exact ⟨_, rfl⟩
  | gap blanks => exact ⟨_, rfl⟩

end Separator

/-- The forms of a code point in a string: a byte that is the code point itself, or
    an escape. -/
inductive Form
  | raw (b : UInt8)
  | escape (e : Escape)

namespace Form

def bytes : Form → Bytes
  | raw b => [b]
  | escape e => backslash :: e.bytes

/-- What the form stands for. -/
inductive Means : Form → CodePoint → Prop
  | raw {b : UInt8} : maxLiteralControl < b → b ≠ doubleQuote → b ≠ backslash →
      Means (.raw b) (.ofByte b)
  | escape {e : Escape} {c : CodePoint} : e.Means c → Means (.escape e) c

/-- No form starts with the closing quote. -/
theorem Means.starts {f : Form} {c : CodePoint} (h : f.Means c) :
    ∃ b r, f.bytes = b :: r ∧ b ≠ doubleQuote := by
  cases h with
  | raw _ hquote _ => exact ⟨_, _, rfl, hquote⟩
  | escape _ => exact ⟨_, _, rfl, by decide⟩

/-- In front of these bytes the form ends, and does not go on with them. -/
def EndsAt : Form → Bytes → Prop
  | raw _, _ => True
  | escape e, r => e.EndsAt r

theorem endsAt_backslash (f : Form) (r : Bytes) : f.EndsAt (backslash :: r) := by
  cases f with
  | raw b => trivial
  | escape e => exact e.endsAt_backslash r

end Form

/-- The items of a string literal up to its closing quote, the text they add up to,
    and what follows the quote. -/
inductive Items : Bytes → Text → Bytes → Prop
  | close (g : Bytes) : Items (doubleQuote :: g) [] g
  | code {f : Form} {c : CodePoint} {r g : Bytes} {text : Text} : f.Means c → f.EndsAt r →
      Items r text g → Items (f.bytes ++ r) (c :: text) g
  | separator {p : Separator} {r g : Bytes} {text : Text} : p.IsProper → Items r text g →
      Items (p.bytes ++ r) text g

/-! ## The reader of items -/

namespace Reader

/-- An item is a form of what it adds, or a separator that adds nothing. -/
theorem stringItem_cases {a : UInt8} {s t : Bytes} {item : Option CodePoint}
    (ha : a ≠ doubleQuote) (h : stringItem.run (a :: s) = .ok (item, t)) :
    (∃ f c, item = some c ∧ Form.Means f c ∧ f.EndsAt t ∧ a :: s = f.bytes ++ t) ∨
      ∃ p : Separator, item = none ∧ p.IsProper ∧ a :: s = p.bytes ++ t := by
  rw [stringItem, run_bind_of_ok (run_remaining _)] at h
  dsimp only at h
  split at h
  · next hraw =>
    split at h
    · cases h
    · next hcontrol =>
      cases h
      exact Or.inl ⟨.raw a, _, rfl, .raw (UInt8.not_le.mp hcontrol) ha (bne_iff_ne.mp hraw),
        trivial, rfl⟩
  · next hbackslash =>
    obtain rfl : a = backslash := by simpa using hbackslash
    split at h
    · next hampersand =>
      obtain ⟨r, rfl⟩ := List.head?_eq_some_iff.mp hampersand
      cases h
      exact Or.inr ⟨.empty, rfl, trivial, rfl⟩
    · split at h
      · next hblank =>
        rw [run_bind_of_ok (run_skipByte_cons backslash s)] at h
        rw [run_bind_of_ok (run_takeWhile isBlank s), run_bind_of_ok (run_ahead _)] at h
        split at h
        · next hend =>
          obtain ⟨r, hr⟩ := List.head?_eq_some_iff.mp hend
          rw [hr] at h
          cases h
          have hs : s = s.takeWhile isBlank ++ backslash :: r := by
            rw [← hr, List.takeWhile_append_dropWhile]
          refine Or.inr ⟨.gap (s.takeWhile isBlank), rfl, ⟨?_, ?_⟩, ?_⟩
          · obtain ⟨b, r, rfl, hb⟩ := exists_cons_of_head? hblank
            rw [List.takeWhile_cons_of_pos hb]
            exact List.cons_ne_nil _ _
          · exact fun b hb => List.mem_takeWhile_imp hb
          · rw [Separator.bytes, List.cons_append, List.append_assoc]
            exact congrArg (backslash :: ·) hs
        · cases h
      · obtain ⟨c, u, hescape, h⟩ := run_bind_eq_ok.mp h
        cases h
        obtain ⟨e, hmeans, hends, rfl⟩ := run_escape_iff.mp hescape
        exact Or.inl ⟨.escape e, c, rfl, .escape hmeans, hends, rfl⟩

/-- A form is read as an item where it ends. -/
theorem run_stringItem_form {f : Form} {c : CodePoint} {t : Bytes} (h : f.Means c)
    (hends : f.EndsAt t) : stringItem.run (f.bytes ++ t) = .ok (some c, t) := by
  cases h with
  | raw hcontrol _ hbackslash => exact run_stringItem_raw hcontrol hbackslash t
  | escape hmeans => exact run_stringItem_escape hmeans hends

/-- A separator is read as an item that adds nothing. -/
theorem run_stringItem_separator {p : Separator} (h : p.IsProper) (t : Bytes) :
    stringItem.run (p.bytes ++ t) = .ok (none, t) := by
  cases p with
  | empty => rfl
  | gap blanks =>
      obtain ⟨hne, hblanks⟩ := h
      obtain ⟨b, blanks, rfl⟩ := List.exists_cons_of_ne_nil hne
      have hb : isBlank b := hblanks b List.mem_cons_self
      have hampersand : b ≠ ampersand := by
        rintro rfl
        exact absurd hb (by decide)
      have hstop : ∀ d ∈ (backslash :: t).head?, ¬ isBlank d := by
        intro d hd
        rw [← Option.some.inj hd]
        decide
      obtain ⟨htake, hdrop⟩ := takeWhile_append_of_stop hblanks hstop
      have hbytes : (Separator.gap (b :: blanks)).bytes ++ t
          = backslash :: (b :: blanks ++ backslash :: t) := by
        simp [Separator.bytes]
      rw [hbytes, stringItem, run_bind_of_ok (run_remaining _)]
      simp only [bne_self_eq_false, Bool.false_eq_true, if_false, List.cons_append, List.head?_cons,
        Option.some.injEq, hampersand, Option.any_some, hb, if_true]
      rw [run_bind_of_ok (run_skipByte_cons backslash _), run_bind_of_ok (run_takeWhile isBlank _)]
      rw [← List.cons_append, hdrop]
      rfl

end Reader

/-- The items that are read up to the closing quote are those that are derived. -/
theorem readItems_iff {s g : Bytes} {text : Text} :
    readItems s = .ok (.ok text, g) ↔ Items s text g := by
  constructor
  · intro h
    fun_induction readItems s generalizing text g with
    | case1 => cases h
    | case2 a r ha =>
        cases h
        rw [beq_iff_eq.mp ha]
        exact .close _
    | case3 => cases h
    | case4 a r ha item t hitem _ text w hw ih =>
        cases h
        have ha : a ≠ doubleQuote := by simpa using ha
        obtain ⟨f, c, rfl, hmeans, hends, hs⟩ | ⟨p, rfl, hproper, hs⟩ :=
          Reader.stringItem_cases ha hitem
        · rw [hs]
          exact .code hmeans hends (ih hw)
        · rw [hs]
          exact .separator hproper (ih hw)
    | case5 a r _ item t _ _ hbad _ => exact (hbad text g h).elim
  · intro h
    induction h with
    | close g => exact readItems_quote g
    | @code f c r g text hmeans hends _ ih =>
        have hitem := Reader.run_stringItem_form hmeans hends
        obtain ⟨b, u, hu, hb⟩ := hmeans.starts
        rw [hu, List.cons_append] at hitem ⊢
        exact readItems_item hb hitem ih
    | @separator p r g text hproper _ ih =>
        have hitem := Reader.run_stringItem_separator hproper r
        obtain ⟨u, hu⟩ := p.exists_bytes
        rw [hu, List.cons_append] at hitem ⊢
        exact readItems_item (by decide) hitem ih

/-! ## Literals -/

/-- A code point in one of its forms, with a separator behind it. -/
structure Piece where
  form : Form
  code : CodePoint
  separator : Separator

def Piece.bytes (p : Piece) : Bytes :=
  p.form.bytes ++ p.separator.bytes

/-- The form stands for the code point. -/
structure Piece.IsProper (p : Piece) : Prop where
  means : p.form.Means p.code
  separator : p.separator.IsProper

/-- Code points with a separator behind each are items, whatever their forms. -/
theorem items_pieces {pieces : List Piece} (h : ∀ p ∈ pieces, p.IsProper) (g : Bytes) :
    Items (pieces.flatMap Piece.bytes ++ doubleQuote :: g) (pieces.map Piece.code) g := by
  induction pieces with
  | nil => exact .close g
  | cons p pieces ih =>
      obtain ⟨hp, hpieces⟩ := List.forall_mem_cons.mp h
      have hlater := Items.separator hp.separator (ih hpieces)
      obtain ⟨r, hr⟩ := p.separator.exists_bytes
      have hends : p.form.EndsAt (p.separator.bytes ++ (pieces.flatMap Piece.bytes
          ++ doubleQuote :: g)) := by
        rw [hr, List.cons_append]
        exact p.form.endsAt_backslash _
      have hitems := Items.code hp.means hends hlater
      rwa [← List.append_assoc, ← List.append_assoc] at hitems

/-- A number stands for the same with leading zeros, unless its decimal digits
    become too many. -/
theorem Escape.Means.zeros {radix : Radix} {digits : Bytes} {c : CodePoint}
    (h : (Escape.number radix digits).Means c) {k : Nat}
    (hk : radix = .decimal → k + digits.length ≤ maxDecimalDigits) :
    (Escape.number radix (List.replicate k (ascii '0') ++ digits)).Means c := by
  cases h with
  | number hne hdigits _ hvalue hsurrogate =>
      refine .number (List.append_ne_nil_of_right_ne_nil _ hne) ?_ ?_ ?_ hsurrogate
      · intro b hb
        rcases List.mem_append.mp hb with hb | hb
        · rw [(List.mem_replicate.mp hb).2]
          cases radix <;> decide
        · exact hdigits b hb
      · rwa [List.length_append, List.length_replicate]
      · rw [Radix.value_zeros_append, hvalue]

/-- Every code point but the surrogates has a form: its decimal number, with leading
    zeros as there is room for them. -/
theorem means_decimal {c : CodePoint} (h : ¬ c.isSurrogate) {k : Nat}
    (hk : k + 7 ≤ maxDecimalDigits) :
    (Form.escape (.number .decimal (List.replicate k (ascii '0') ++ decimalBytes c.val))).Means
      c := by
  have hlength : (decimalBytes c.val).length ≤ 7 :=
    length_decimalBytes_le (by decide) (lt_decimalLimit (by decide) (Nat.lt_trans c.val_lt (by decide)))
  exact .escape ((Escape.means_decimal h).zeros fun _ => by omega)

/-- String literals are read by their language: between quotes stand items, each
    going as far as it can, and the gap behind the literal closes.  Code points
    with separators between them are read back, whatever their forms. -/
theorem Reader.stringLiteral_language :
    (∀ {s t : Bytes} {text : Text}, stringLiteral.run s = .ok (text, t) ↔
      ∃ r g, s = doubleQuote :: r ∧ Items r text g ∧ skipGap g = .ok t) ∧
    ∀ {pieces : List Piece} {g t : Bytes}, (∀ p ∈ pieces, p.IsProper) → skipGap g = .ok t →
      stringLiteral.run (doubleQuote :: (pieces.flatMap Piece.bytes ++ doubleQuote :: g))
        = .ok (pieces.map Piece.code, t) := by
  have hiff : ∀ {s t : Bytes} {text : Text}, stringLiteral.run s = .ok (text, t) ↔
      ∃ r g, s = doubleQuote :: r ∧ Items r text g ∧ skipGap g = .ok t := by
    intro s t text
    rw [run_stringLiteral_eq_ok]
    constructor
    · rintro ⟨hquote, hlex⟩
      obtain ⟨r, rfl⟩ := List.head?_eq_some_iff.mp hquote
      obtain ⟨g, hstring, hgap⟩ := run_lexeme_eq_ok.mp hlex
      exact ⟨r, g, rfl, readItems_iff.mp (run_fromStart_eq_ok.mp hstring), hgap⟩
    · rintro ⟨r, g, rfl, hitems, hgap⟩
      refine ⟨rfl, run_lexeme_eq_ok.mpr ⟨g, ?_, hgap⟩⟩
      exact run_fromStart_eq_ok.mpr (readItems_iff.mpr hitems)
  refine ⟨hiff, ?_⟩
  intro pieces g t hproper hgap
  exact hiff.mpr ⟨_, g, rfl, items_pieces hproper g, hgap⟩

/-- Forms that would run into what follows them, and separators of both kinds: a
    name that is the start of another one, digits in front of digits, a backslash
    behind a caret, a quote, and a number with all the digits that there is room for. -/
def crowdedPieces : List Piece :=
  [ ⟨.escape (.named "SO"), .ofByte 0x0E, .empty⟩,
    ⟨.raw (ascii 'H'), .ofByte 0x48, .gap [newline, 0x20]⟩,
    ⟨.escape (.number .hexadecimal (asciiBytes "0041")), .ofByte 0x41, .empty⟩,
    ⟨.raw (ascii '1'), .ofByte 0x31, .gap [0xA0]⟩,
    ⟨.escape (.control backslash), .ofByte 0x1C, .empty⟩,
    ⟨.escape (.simple doubleQuote), .ofByte doubleQuote, .empty⟩,
    ⟨.escape (.number .decimal (List.replicate 4293 (ascii '0') ++ decimalBytes 0x1D11E)),
      ⟨0x1D11E, by decide⟩, .empty⟩ ]

/-- They are read back all the same. -/
theorem crowdedPieces_read :
    Reader.stringLiteral.run
        (doubleQuote :: (crowdedPieces.flatMap Piece.bytes ++ doubleQuote :: asciiBytes " -- "))
      = .ok (crowdedPieces.map Piece.code, []) := by
  have hgap : skipGap (asciiBytes " -- ") = .ok [] := by decide +kernel
  have hsurrogate : ¬ (⟨0x1D11E, by decide⟩ : CodePoint).isSurrogate := by decide
  have hproper : ∀ p ∈ crowdedPieces, p.IsProper := by
    simp only [crowdedPieces, List.forall_mem_cons]
    refine ⟨⟨.escape (.named (by decide)), trivial⟩,
      ⟨.raw (by decide) (by decide) (by decide), by simp, List.all_eq_true.mp (by decide)⟩,
      ⟨.escape (.number (by decide) (List.all_eq_true.mp (by decide)) (fun h => absurd h (by decide))
        (by decide) (by decide)), trivial⟩,
      ⟨.raw (by decide) (by decide) (by decide), by simp, List.all_eq_true.mp (by decide)⟩,
      ⟨.escape (.control (by decide) (by decide)), trivial⟩,
      ⟨.escape (.simple rfl), trivial⟩,
      ⟨means_decimal (k := 4293) hsurrogate (by decide), trivial⟩,
      fun _ hp => absurd hp List.not_mem_nil⟩
  exact Reader.stringLiteral_language.2 hproper hgap

end TerminalConfig
