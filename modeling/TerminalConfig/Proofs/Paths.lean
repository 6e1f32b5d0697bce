import TerminalConfig.Files.Path
import TerminalConfig.Proofs.Utf8
import Mathlib.Data.List.Forall2

/-! # Paths — which texts name a file, and by which segments

    A text names a file when its bytes exist and hold no NUL.  This is said of
    the code points one by one (`Path.exists_bytes`), so it is the same for a
    path and for its normal form (`Path.exists_bytes_normalize`): what the
    normal form drops is slashes and dots.

    A plain path is in normal form already (`Path.normalize_of_isPlain`), and
    the bytes of its segments are the segments of its bytes
    (`Path.segments_bytes`).  Any normal form is its own normal form
    (`Path.normalize_normalize`): its names are kept, and so is its root. -/

namespace TerminalConfig

/-- The code point has bytes where escapes stand for theirs: it is no surrogate,
    or one of those that stand for a byte. -/
def CodePoint.IsEscapable (c : CodePoint) : Prop :=
  c.isSurrogate → 0xDC80 ≤ c.val ∧ c.val ≤ 0xDCFF

/-- The text has bytes where escapes stand for theirs. -/
def Text.IsEscapable (t : Text) : Prop :=
  ∀ c ∈ t, c.IsEscapable

/-- The text can name a file: it has bytes, and no NUL. -/
def Text.NamesFile (t : Text) : Prop :=
  ∀ c ∈ t, c.IsEscapable ∧ c.val ≠ 0

namespace Utf8

/-! ## The bytes of one code point -/

theorem encode_ne_nil (c : CodePoint) : encode c ≠ [] := by
  rw [encode]
  split
  · exact List.cons_ne_nil _ _
  · split
    · exact List.cons_ne_nil _ _
    · split <;> exact List.cons_ne_nil _ _

/-- An ASCII character has its own byte, and any other code point higher ones. -/
theorem encodeOneEscaped?_eq_some {c : CodePoint} {x : Bytes}
    (h : encodeOneEscaped? c = some x) :
    (c.val < 0x80 ∧ x = [UInt8.ofNat c.val]) ∨
      (0x80 ≤ c.val ∧ x ≠ [] ∧ ∀ b ∈ x, 0x80 ≤ b.toNat) := by
  by_cases hc : c.isSurrogate
  · rw [encodeOneEscaped?, if_pos hc, escapedByte?] at h
    split at h
    · next hrange =>
      cases h
      simp only [Bool.and_eq_true, decide_eq_true_eq] at hrange
      refine Or.inr ⟨by omega, List.cons_ne_nil _ _, ?_⟩
      intro b hb
      rw [List.mem_singleton.mp hb, UInt8.toNat_ofNat_of_lt' (show c.val - 0xDC00 < 2 ^ 8 by omega)]
      omega
    · cases h
  · rw [encodeOneEscaped?_char hc] at h
    cases h
    by_cases hascii : c.val < 0x80
    · exact Or.inl ⟨hascii, encode_ascii hascii⟩
    · exact Or.inr ⟨by omega, encode_ne_nil c, fun b hb => le_of_mem_encode (by omega) hb⟩

/-- The byte `b` is that of the ASCII character with its number alone. -/
theorem mem_encodeOneEscaped? {c : CodePoint} {x : Bytes} (h : encodeOneEscaped? c = some x)
    {b : UInt8} (hb : b.toNat < 0x80) : b ∈ x ↔ c = .ofByte b := by
  rw [CodePoint.ext_iff, CodePoint.val_ofByte]
  rcases encodeOneEscaped?_eq_some h with ⟨hc, rfl⟩ | ⟨hc, -, hx⟩
  · rw [List.mem_singleton, ← UInt8.toNat_inj, UInt8.toNat_ofNat_of_lt' (show c.val < 2 ^ 8 by omega)]
    exact eq_comm
  · constructor
    · intro hmem
      exact absurd (hx b hmem) (by omega)
    · intro hval
      omega

theorem exists_encodeOneEscaped? {c : CodePoint} :
    (∃ x, encodeOneEscaped? c = some x) ↔ c.IsEscapable := by
  by_cases hc : c.isSurrogate
  · rw [encodeOneEscaped?, if_pos hc, escapedByte?]
    by_cases hrange : (decide (0xDC80 ≤ c.val) && decide (c.val ≤ 0xDCFF)) = true
    · rw [if_pos hrange]
      simp only [Bool.and_eq_true, decide_eq_true_eq] at hrange
      exact ⟨fun _ _ => hrange, fun _ => ⟨_, rfl⟩⟩
    · rw [if_neg hrange]
      simp only [Bool.and_eq_true, decide_eq_true_eq] at hrange
      refine iff_of_false ?_ fun h => hrange (h hc)
      rintro ⟨x, hx⟩
      cases hx
  · exact ⟨fun _ h => absurd h hc, fun _ => ⟨_, encodeOneEscaped?_char hc⟩⟩

/-! ## The bytes of a text -/

theorem encodeEscaped?_cons_eq_some {c : CodePoint} {t : Text} {s : Bytes} :
    encodeEscaped? (c :: t) = some s ↔
      ∃ x u, encodeOneEscaped? c = some x ∧ encodeEscaped? t = some u ∧ s = x ++ u := by
  rw [encodeEscaped?_cons]
  simp only [Option.bind_eq_some_iff, Option.map_eq_some_iff]
  constructor
  · rintro ⟨x, hx, u, hu, rfl⟩
    exact ⟨x, u, hx, hu, rfl⟩
  · rintro ⟨x, u, hx, hu, rfl⟩
    exact ⟨x, hx, u, hu, rfl⟩

/-- A text has bytes when each of its code points has. -/
theorem exists_encodeEscaped? {t : Text} : (∃ s, encodeEscaped? t = some s) ↔ t.IsEscapable := by
  induction t with
  | nil => exact ⟨fun _ _ hc => absurd hc List.not_mem_nil, fun _ => ⟨[], rfl⟩⟩
  | cons c t ih =>
      rw [Text.IsEscapable, List.forall_mem_cons, ← exists_encodeOneEscaped?]
      constructor
      · rintro ⟨s, hs⟩
        obtain ⟨x, u, hx, hu, -⟩ := encodeEscaped?_cons_eq_some.mp hs
        exact ⟨⟨x, hx⟩, ih.mp ⟨u, hu⟩⟩
      · rintro ⟨⟨x, hx⟩, ht⟩
        obtain ⟨u, hu⟩ := ih.mpr ht
        exact ⟨x ++ u, encodeEscaped?_cons_eq_some.mpr ⟨x, u, hx, hu, rfl⟩⟩

/-- An ASCII byte stands in the bytes of a text where its character stands in
    the text. -/
theorem mem_encodeEscaped? {t : Text} {s : Bytes} (h : encodeEscaped? t = some s) {b : UInt8}
    (hb : b.toNat < 0x80) : b ∈ s ↔ CodePoint.ofByte b ∈ t := by
  induction t generalizing s with
  | nil =>
      cases h
      exact ⟨fun hmem => absurd hmem List.not_mem_nil, fun hmem => absurd hmem List.not_mem_nil⟩
  | cons c t ih =>
      obtain ⟨x, u, hx, hu, rfl⟩ := encodeEscaped?_cons_eq_some.mp h
      rw [List.mem_append, List.mem_cons, mem_encodeOneEscaped? hx hb, ih hu, eq_comm]

/-- ASCII bytes are the bytes of their own text only. -/
theorem eq_ofBytes_of_encodeEscaped? {t : Text} {s : Bytes} (h : encodeEscaped? t = some s)
    (hs : ∀ b ∈ s, b.toNat < 0x80) : t = Text.ofBytes s := by
  induction t generalizing s with
  | nil =>
      cases h
      rfl
  | cons c t ih =>
      obtain ⟨x, u, hx, hu, rfl⟩ := encodeEscaped?_cons_eq_some.mp h
      have ht := ih hu fun b hb => hs b (List.mem_append_right x hb)
      rcases encodeOneEscaped?_eq_some hx with ⟨hc, rfl⟩ | ⟨-, hne, hhigh⟩
      · have hval : c = .ofByte (UInt8.ofNat c.val) :=
          CodePoint.ext (UInt8.toNat_ofNat_of_lt' (Nat.lt_trans hc (by decide))).symm
        rw [List.singleton_append, Text.ofBytes_cons, ← hval, ← ht]
      · obtain ⟨b, x, rfl⟩ := List.exists_cons_of_ne_nil hne
        have hlow := hs b (by simp)
        exact absurd (hhigh b List.mem_cons_self) (by omega)

end Utf8

namespace Path

/-! ## Segments -/

/-- What holds in every part and in what is put between them holds in the
    whole. -/
theorem forall_mem_intersperse {α : Type} {P : α → Prop} {between : List α} (h : ∀ a ∈ between, P a)
    (parts : List (List α)) :
    (∀ a ∈ (parts.intersperse between).flatten, P a) ↔ ∀ part ∈ parts, ∀ a ∈ part, P a := by
  match parts with
  | [] => simp
  | [part] => simp
  | part :: next :: later =>
      have ih := forall_mem_intersperse h (next :: later)
      rw [List.intersperse_cons_cons, List.flatten_cons, List.flatten_cons, List.forall_mem_append,
        List.forall_mem_append, ih, List.forall_mem_cons (a := part)]
      exact and_congr_right fun _ => and_iff_right h

section Segments

variable {α : Type} [DecidableEq α] {separator : α}

theorem segments_separator (s : List α) :
    segments separator (separator :: s) = [] :: segments separator s := by
  rw [segments, if_pos rfl]

theorem segments_ne_nil (separator : α) (s : List α) : segments separator s ≠ [] := by
  cases s with
  | nil => exact List.cons_ne_nil _ _
  | cons a s =>
      rw [segments]
      split
      · exact List.cons_ne_nil _ _
      · split <;> exact List.cons_ne_nil _ _

/-- What is no separator goes into the first segment. -/
theorem segments_other {a : α} (ha : a ≠ separator) {s first : List α} {later : List (List α)}
    (h : segments separator s = first :: later) :
    segments separator (a :: s) = (a :: first) :: later := by
  rw [segments, if_neg ha, h]

/-- The segments with the separators between them are the list again. -/
theorem flatten_segments (s : List α) :
    ((segments separator s).intersperse [separator]).flatten = s := by
  induction s with
  | nil => rfl
  | cons a s ih =>
      obtain ⟨first, later, hsegments⟩ :=
        List.exists_cons_of_ne_nil (segments_ne_nil separator s)
      by_cases ha : a = separator
      · rw [ha, segments_separator, hsegments, List.intersperse_cons_cons, ← hsegments]
        simp [ih]
      · rw [segments_other ha hsegments]
        rw [hsegments] at ih
        cases later with
        | nil => simpa using ih
        | cons second later =>
            rw [List.intersperse_cons_cons] at ih ⊢
            simpa using ih

/-- What holds of the separator holds in all segments when it does in the list. -/
theorem forall_mem_segments {P : α → Prop} (h : P separator) (s : List α) :
    (∀ part ∈ segments separator s, ∀ a ∈ part, P a) ↔ ∀ a ∈ s, P a := by
  rw [← forall_mem_intersperse (List.forall_mem_singleton.mpr h), flatten_segments]

/-- A part without separators goes into the first segment. -/
theorem segments_append {part s first : List α} {later : List (List α)} (hpart : separator ∉ part)
    (h : segments separator s = first :: later) :
    segments separator (part ++ s) = (part ++ first) :: later := by
  induction part with
  | nil => exact h
  | cons a part ih =>
      rw [List.mem_cons, not_or] at hpart
      obtain ⟨ha, hpart⟩ := hpart
      exact segments_other (Ne.symm ha) (ih hpart)

end Segments

/-! ## Normal forms -/

/-- The leading slashes of a normal form are slashes. -/
theorem forall_mem_root {P : CodePoint → Prop} (h : P (.ofChar '/')) (path : Text) :
    ∀ c ∈ root path, P c := by
  intro c hc
  have hslash : c = .ofChar '/' := by
    rw [root] at hc
    split at hc
    · exact absurd hc List.not_mem_nil
    · simpa [Text.ofString] using hc
    · simpa [Text.ofString] using hc
  exact hslash ▸ h

/-- A normal form has the code points of its path, but for slashes and dots. -/
theorem forall_mem_normalize {P : CodePoint → Prop} (hslash : P (.ofChar '/'))
    (hdot : P (.ofChar '.')) (path : Text) :
    (∀ c ∈ normalize path, P c) ↔ ∀ c ∈ path, P c := by
  have hdots : ∀ c ∈ Text.ofString ".", P c := List.forall_mem_singleton.mpr hdot
  have hslashes : ∀ c ∈ Text.ofString "/", P c := List.forall_mem_singleton.mpr hslash
  rw [← forall_mem_segments hslash path]
  -- what is filtered out is empty or a dot
  have hfilter : (∀ part ∈ (segments (CodePoint.ofChar '/') path).filter (fun name =>
        name != [] && name != Text.ofString "."), ∀ c ∈ part, P c) ↔
      ∀ part ∈ segments (CodePoint.ofChar '/') path, ∀ c ∈ part, P c := by
    constructor
    · intro h part hpart c hc
      by_cases hkeep : (part != [] && part != Text.ofString ".") = true
      · exact h part (List.mem_filter.mpr ⟨hpart, hkeep⟩) c hc
      · have hdropped : part = [] ∨ part = Text.ofString "." := by
          by_contra hneither
          rw [not_or] at hneither
          exact hkeep (by simp [hneither.1, hneither.2])
        rcases hdropped with rfl | rfl
        · exact absurd hc List.not_mem_nil
        · exact hdots c hc
    · intro h part hpart
      exact h part (List.mem_filter.mp hpart).1
  rw [← hfilter, ← forall_mem_intersperse hslashes, normalize]
  split
  · next hempty =>
    have hnone := (List.append_eq_nil_iff.mp hempty).2
    rw [hnone]
    exact ⟨fun _ c hc => absurd hc List.not_mem_nil, fun _ => hdots⟩
  · rw [List.forall_mem_append]
    exact and_iff_right (forall_mem_root hslash path)

/-! ## Names of files -/

/-- A path has bytes exactly when its text can name a file. -/
theorem exists_bytes {path : Text} : (∃ s, bytes path = .ok s) ↔ path.NamesFile := by
  have hsplit : path.NamesFile ↔ path.IsEscapable ∧ ∀ c ∈ path, c.val ≠ 0 :=
    ⟨fun h => ⟨fun c hc => (h c hc).1, fun c hc => (h c hc).2⟩, fun h c hc => ⟨h.1 c hc, h.2 c hc⟩⟩
  rw [hsplit, ← Utf8.exists_encodeEscaped?, bytes]
  cases hs : Utf8.encodeEscaped? path with
  | none =>
      constructor
      · rintro ⟨s, h⟩
        cases h
      · rintro ⟨⟨s, h⟩, -⟩
        cases h
  | some s =>
      have hnul : s.contains 0 = true ↔ ∃ c ∈ path, c.val = 0 := by
        rw [List.contains_iff_mem, Utf8.mem_encodeEscaped? hs (by decide)]
        constructor
        · exact fun hmem => ⟨_, hmem, rfl⟩
        · rintro ⟨c, hc, hval⟩
          exact (CodePoint.ext (a := c) (b := .ofByte 0) hval) ▸ hc
      by_cases hcontains : s.contains 0 = true
      · obtain ⟨c, hc, hval⟩ := hnul.mp hcontains
        simp only [hcontains, if_true]
        refine iff_of_false ?_ fun h => h.2 c hc hval
        rintro ⟨t, h⟩
        cases h
      · simp only [hcontains]
        refine ⟨fun _ => ⟨⟨s, rfl⟩, fun c hc hval => hcontains (hnul.mpr ⟨c, hc, hval⟩)⟩, ?_⟩
        exact fun _ => ⟨s, rfl⟩

theorem encodeEscaped?_of_bytes {path : Text} {s : Bytes} (h : bytes path = .ok s) :
    Utf8.encodeEscaped? path = some s := by
  rw [bytes] at h
  split at h
  · cases h
  · next u hu =>
    split at h
    · cases h
    · cases h
      exact hu

/-- A normal form names a file exactly when its path does. -/
theorem exists_bytes_normalize {path : Text} :
    (∃ s, bytes (normalize path) = .ok s) ↔ path.NamesFile := by
  rw [exists_bytes]
  have hascii : ∀ {c : CodePoint}, c.val < 0xD800 → c.val ≠ 0 → c.IsEscapable ∧ c.val ≠ 0 :=
    fun hc h0 => ⟨fun hsurrogate => absurd hsurrogate (CodePoint.not_isSurrogate_of_lt hc), h0⟩
  exact forall_mem_normalize (hascii (by decide) (by decide)) (hascii (by decide) (by decide)) path

/-! ## Plain paths -/

/-- A path below the working directory that says nothing twice: no segment is
    empty, `.` or `..`. -/
def IsPlain (path : Text) : Prop :=
  ∀ name ∈ segments (CodePoint.ofChar '/') path,
    name ≠ [] ∧ name ≠ Text.ofString "." ∧ name ≠ Text.ofString ".."

/-- A plain path begins with a name. -/
theorem IsPlain.exists_cons {path : Text} (h : IsPlain path) :
    ∃ c rest, path = c :: rest ∧ c ≠ .ofChar '/' := by
  cases path with
  | nil => exact absurd rfl (h [] List.mem_cons_self).1
  | cons c rest =>
      refine ⟨c, rest, rfl, ?_⟩
      rintro rfl
      have hmem : [] ∈ segments (CodePoint.ofChar '/') (.ofChar '/' :: rest) := by
        rw [segments_separator]
        exact List.mem_cons_self
      exact (h [] hmem).1 rfl

/-- A plain path is in normal form. -/
theorem normalize_of_isPlain {path : Text} (h : IsPlain path) : normalize path = path := by
  obtain ⟨c, rest, hpath, hc⟩ := h.exists_cons
  have hfilter : (segments (CodePoint.ofChar '/') path).filter (fun name =>
      name != [] && name != Text.ofString ".") = segments (CodePoint.ofChar '/') path := by
    refine List.filter_eq_self.mpr fun name hname => ?_
    obtain ⟨hne, hdot, -⟩ := h name hname
    simp [hne, hdot]
  have hroot : root path = [] := by
    have htake : path.takeWhile (· == CodePoint.ofChar '/') = [] := by
      rw [hpath, List.takeWhile_cons_of_neg (by simpa using hc)]
    rw [root, htake]
    rfl
  have hjoin : ((segments (CodePoint.ofChar '/') path).intersperse (Text.ofString "/")).flatten
      = path := flatten_segments path
  rw [normalize, hfilter, hroot, hjoin, hpath]
  rfl

/-- The segments of the bytes are the bytes of the segments. -/
theorem segments_bytes {path : Text} {s : Bytes} (h : Utf8.encodeEscaped? path = some s) :
    List.Forall₂ (fun name w => Utf8.encodeEscaped? name = some w)
      (segments (CodePoint.ofChar '/') path) (segments slash s) := by
  have hofByte : CodePoint.ofByte slash = .ofChar '/' := by decide
  induction path generalizing s with
  | nil =>
      cases h
      exact .cons rfl .nil
  | cons c path ih =>
      obtain ⟨x, u, hx, hu, rfl⟩ := Utf8.encodeEscaped?_cons_eq_some.mp h
      have hlater := ih hu
      by_cases hc : c = .ofChar '/'
      · have hslash : x = [slash] := by
          rw [hc] at hx
          exact (Option.some.inj hx).symm
        rw [hc, hslash, List.singleton_append, segments_separator, segments_separator]
        exact .cons rfl hlater
      · have hmem : slash ∉ x := by
          rw [Utf8.mem_encodeOneEscaped? hx (by decide), hofByte]
          exact hc
        obtain ⟨first, later, hfirst⟩ :=
          List.exists_cons_of_ne_nil (segments_ne_nil (CodePoint.ofChar '/') path)
        obtain ⟨w, ws, hw⟩ := List.exists_cons_of_ne_nil (segments_ne_nil slash u)
        rw [segments_other hc hfirst, segments_append hmem hw]
        rw [hfirst, hw] at hlater
        cases hlater with
        | cons hhead htail =>
            exact .cons (Utf8.encodeEscaped?_cons_eq_some.mpr ⟨x, w, hx, hhead, rfl⟩) htail

/-! ## Normal forms stay -/

section Segments

variable {α : Type} [DecidableEq α] {separator : α}

/-- No separator stands in a segment. -/
theorem not_mem_of_mem_segments {s part : List α} (h : part ∈ segments separator s) :
    separator ∉ part := by
  induction s generalizing part with
  | nil =>
      rw [List.mem_singleton.mp h]
      exact List.not_mem_nil
  | cons a s ih =>
      obtain ⟨first, later, hsegments⟩ :=
        List.exists_cons_of_ne_nil (segments_ne_nil separator s)
      rw [hsegments] at ih
      by_cases ha : a = separator
      · rw [ha, segments_separator, hsegments] at h
        rcases List.mem_cons.mp h with rfl | h
        · exact List.not_mem_nil
        · exact ih h
      · rw [segments_other ha hsegments] at h
        rcases List.mem_cons.mp h with rfl | h
        · rw [List.mem_cons, not_or]
          exact ⟨Ne.symm ha, ih List.mem_cons_self⟩
        · exact ih (List.mem_cons_of_mem first h)

/-- Parts without separators are the segments of what they make. -/
theorem segments_intersperse {parts : List (List α)} (hne : parts ≠ [])
    (h : ∀ part ∈ parts, separator ∉ part) :
    segments separator (parts.intersperse [separator]).flatten = parts := by
  match parts with
  | [] => exact absurd rfl hne
  | [part] =>
      have hend : segments separator ([] : List α) = [[]] := rfl
      have hpart := segments_append (h part List.mem_cons_self) hend
      rw [List.append_nil] at hpart
      simpa using hpart
  | part :: next :: later =>
      have ih := segments_intersperse (List.cons_ne_nil next later)
        fun other hother => h other (List.mem_cons_of_mem part hother)
      have hlater : segments separator
          (separator :: ((next :: later).intersperse [separator]).flatten)
            = [] :: next :: later := by
        rw [segments_separator, ih]
      have hpart := segments_append (h part List.mem_cons_self) hlater
      rw [List.append_nil] at hpart
      rw [List.intersperse_cons_cons, List.flatten_cons, List.flatten_cons]
      exact hpart

end Segments

/-- The names of a path: its segments, less those that lead nowhere. -/
def names (path : Text) : List Text :=
  (segments (CodePoint.ofChar '/') path).filter fun name => name != [] && name != Text.ofString "."

/-- A name has no slash, and is not empty or a dot. -/
structure IsName (name : Text) : Prop where
  no_slash : .ofChar '/' ∉ name
  ne_nil : name ≠ []
  ne_dot : name ≠ Text.ofString "."

theorem isName_of_mem_names {path name : Text} (h : name ∈ names path) : IsName name := by
  obtain ⟨hmem, hkeep⟩ := List.mem_filter.mp h
  simp only [Bool.and_eq_true, bne_iff_ne, ne_eq] at hkeep
  exact ⟨not_mem_of_mem_segments hmem, hkeep.1, hkeep.2⟩

/-- The names with slashes between them. -/
def joined (ns : List Text) : Text :=
  (ns.intersperse (Text.ofString "/")).flatten

theorem normalize_eq (path : Text) (h : root path ++ joined (names path) ≠ []) :
    normalize path = root path ++ joined (names path) := by
  rw [joined, names] at h ⊢
  rw [normalize]
  split
  · next hnil => exact absurd hnil h
  · rfl

theorem normalize_eq_dot (path : Text) (h : root path ++ joined (names path) = []) :
    normalize path = "." := by
  rw [joined, names] at h
  rw [normalize, h]

theorem root_cases (path : Text) : root path = [] ∨ root path = "/" ∨ root path = "//" := by
  rw [root]
  split
  · exact Or.inl rfl
  · exact Or.inr (Or.inr rfl)
  · exact Or.inr (Or.inl rfl)

/-- Behind leading slashes stand the names that are joined there. -/
theorem names_append {ns : List Text} (hne : ns ≠ []) (h : ∀ name ∈ ns, IsName name)
    {slashes : Text} (hslashes : slashes = [] ∨ slashes = "/" ∨ slashes = "//") :
    names (slashes ++ joined ns) = ns := by
  have hkeep : ns.filter (fun name => name != [] && name != Text.ofString ".") = ns := by
    refine List.filter_eq_self.mpr fun name hname => ?_
    simp [(h name hname).ne_nil, (h name hname).ne_dot]
  have hjoined : segments (CodePoint.ofChar '/') (joined ns) = ns :=
    segments_intersperse hne fun name hname => (h name hname).no_slash
  rcases hslashes with rfl | rfl | rfl
  · rw [List.nil_append, names, hjoined, hkeep]
  · rw [show Text.ofString "/" ++ joined ns = .ofChar '/' :: joined ns from rfl, names,
      segments_separator, hjoined]
    exact hkeep
  · rw [show Text.ofString "//" ++ joined ns = .ofChar '/' :: .ofChar '/' :: joined ns from rfl,
      names, segments_separator, segments_separator, hjoined]
    exact hkeep

/-- Joined names begin with no slash. -/
theorem exists_joined {ns : List Text} (hne : ns ≠ []) (h : ∀ name ∈ ns, IsName name) :
    ∃ c rest, joined ns = c :: rest ∧ c ≠ .ofChar '/' := by
  obtain ⟨name, later, rfl⟩ := List.exists_cons_of_ne_nil hne
  have hname := h name List.mem_cons_self
  obtain ⟨c, rest, rfl⟩ := List.exists_cons_of_ne_nil hname.ne_nil
  have hc : c ≠ .ofChar '/' := by
    rintro rfl
    exact hname.no_slash List.mem_cons_self
  cases later with
  | nil => exact ⟨c, rest, by simp [joined], hc⟩
  | cons next later => exact ⟨c, _, by rw [joined, List.intersperse_cons_cons]; rfl, hc⟩

/-- At most two leading slashes are their own root. -/
theorem root_append {slashes : Text}
    (hslashes : slashes = [] ∨ slashes = "/" ∨ slashes = "//") {c : CodePoint}
    (hc : c ≠ .ofChar '/') (rest : Text) : root (slashes ++ c :: rest) = slashes := by
  have hstop : (c == CodePoint.ofChar '/') = false := beq_eq_false_iff_ne.mpr hc
  rcases hslashes with rfl | rfl | rfl <;>
    simp [root, Text.ofString, hstop]

/-- A normal form is its own normal form. -/
theorem normalize_normalize (path : Text) : normalize (normalize path) = normalize path := by
  have hroot := root_cases path
  by_cases hnames : names path = []
  · have hjoined : root path ++ joined (names path) = root path := by
      rw [hnames]
      exact List.append_nil _
    by_cases hnil : root path = []
    · rw [normalize_eq_dot path (hjoined.trans hnil)]
      decide
    · rw [normalize_eq path (by rwa [hjoined]), hjoined]
      rcases hroot with h | h | h
      · exact absurd h hnil
      · rw [h]
        decide
      · rw [h]
        decide
  · have hall : ∀ name ∈ names path, IsName name := fun _ => isName_of_mem_names
    obtain ⟨c, rest, hjoined, hc⟩ := exists_joined hnames hall
    have hne : root path ++ joined (names path) ≠ [] := by simp [hjoined]
    have hsame : root (root path ++ joined (names path)) = root path := by
      rw [hjoined]
      exact root_append hroot hc rest
    have hnames' := names_append hnames hall hroot
    rw [normalize_eq path hne, normalize_eq _ (by rwa [hsame, hnames']), hsame, hnames']

end Path

end TerminalConfig
