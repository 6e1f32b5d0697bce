import TerminalConfig.Lexical.Escape
import Mathlib.Data.List.Basic

/-! # Fixed texts — keywords, punctuation and the names of control characters

    A fixed text stands where the bytes of its characters do
    (`dropText?_eq_some`), so only as many bytes as it has characters tell
    whether it is there.  The names of control characters have two or three
    letters, so three bytes tell which of them stands at a place. -/

namespace TerminalConfig

/-- The bytes of an ASCII text. -/
def asciiBytes (text : String) : Bytes :=
  text.toList.map ascii

/-- Texts that begin with the same `n` bytes begin with the same fewer bytes. -/
theorem take_eq_of_le {s t : Bytes} {m n : Nat} (h : s.take n = t.take n) (hm : m ≤ n) :
    s.take m = t.take m := by
  have := congrArg (List.take m) h
  rwa [List.take_take, List.take_take, Nat.min_eq_left hm] at this

/-- As many bytes stand for a text as it has characters. -/
theorem length_of_map_toNat {w : Bytes} {text : List Char}
    (h : w.map UInt8.toNat = text.map Char.toNat) : w.length = text.length := by
  have := congrArg List.length h
  rwa [List.length_map, List.length_map] at this

/-- A fixed text stands at the start of the bytes when they begin with the
    bytes of its characters. -/
theorem dropText?_eq_some {text : List Char} {s t : Bytes} :
    dropText? text s = some t ↔
      ∃ w : Bytes, s = w ++ t ∧ w.map UInt8.toNat = text.map Char.toNat := by
  induction text generalizing s with
  | nil =>
      constructor
      · intro h
        exact ⟨[], Option.some.inj h, rfl⟩
      · rintro ⟨w, rfl, hw⟩
        rw [List.map_eq_nil_iff.mp hw]
        rfl
  | cons c text ih =>
      cases s with
      | nil => simp [dropText?]
      | cons b s =>
          by_cases hb : b.toNat = c.toNat
          · rw [dropText?, if_pos hb, ih]
            constructor
            · rintro ⟨w, rfl, hw⟩
              exact ⟨b :: w, rfl, by rw [List.map_cons, List.map_cons, hb, hw]⟩
            · rintro ⟨w, hs, hw⟩
              cases w with
              | nil => cases hw
              | cons b' w =>
                  exact ⟨w, (List.cons.inj hs).2, (List.cons.inj hw).2⟩
          · rw [dropText?, if_neg hb]
            constructor
            · intro h
              cases h
            · rintro ⟨w, hs, hw⟩
              cases w with
              | nil => cases hw
              | cons b' w =>
                  obtain ⟨rfl, -⟩ := List.cons.inj hs
                  exact absurd (List.cons.inj hw).1 hb

/-- The character that shows a byte has its number. -/
theorem toNat_latinChar (b : UInt8) : (Char.ofNat b.toNat).toNat = b.toNat := by
  have hb : b.toNat.isValidChar := Or.inl (Nat.lt_trans b.toNat_lt (by decide))
  rw [Char.ofNat, dif_pos hb]
  rfl

theorem toList_latinString (s : Bytes) :
    (latinString s).toList = s.map fun b => Char.ofNat b.toNat := by
  rw [latinString, String.toList_ofList]

/-- Different bytes are shown as different texts. -/
theorem latinString_injective : Function.Injective latinString := by
  intro s t h
  have hlist := congrArg (fun text => text.toList.map Char.toNat) h
  simp only [toList_latinString, List.map_map] at hlist
  have hnumbers : ∀ r : Bytes, r.map (Char.toNat ∘ fun b => Char.ofNat b.toNat)
      = r.map UInt8.toNat := fun r => List.map_congr_left fun b _ => toNat_latinChar b
  rw [hnumbers, hnumbers] at hlist
  exact List.map_injective_iff.mpr (fun _ _ h => UInt8.toNat_inj.mp h) hlist

/-- The text that shows bytes stands where these bytes do. -/
theorem dropText?_latinString {w s t : Bytes} :
    dropText? (latinString w).toList s = some t ↔ s = w ++ t := by
  have hnumbers : (latinString w).toList.map Char.toNat = w.map UInt8.toNat := by
    rw [toList_latinString, List.map_map]
    exact List.map_congr_left fun b _ => toNat_latinChar b
  rw [dropText?_eq_some, hnumbers]
  constructor
  · rintro ⟨w', rfl, hw⟩
    rw [List.map_injective_iff.mpr (fun _ _ h => UInt8.toNat_inj.mp h) hw]
  · intro h
    exact ⟨w, h, rfl⟩

/-- No byte behind a fixed text has a say in whether it stands there. -/
theorem isSome_dropText?_congr {text : List Char} {s t : Bytes}
    (h : s.take text.length = t.take text.length) :
    (dropText? text s).isSome = (dropText? text t).isSome := by
  have half : ∀ {s t : Bytes}, s.take text.length = t.take text.length →
      (dropText? text s).isSome → (dropText? text t).isSome := by
    intro s t h hs
    obtain ⟨u, hu⟩ := Option.isSome_iff_exists.mp hs
    obtain ⟨w, rfl, hw⟩ := dropText?_eq_some.mp hu
    have hlen := length_of_map_toNat hw
    rw [← hlen, List.take_left] at h
    refine Option.isSome_iff_exists.mpr ⟨t.drop w.length, dropText?_eq_some.mpr ⟨w, ?_, hw⟩⟩
    conv => lhs; rw [← List.take_append_drop w.length t, ← h]
  exact Bool.eq_iff_iff.mpr ⟨half h, half h.symm⟩

/-- Every name of a control character has two or three letters. -/
theorem length_of_mem_escapeNamesByLength :
    ∀ p ∈ escapeNamesByLength, 2 ≤ p.1.toList.length ∧ p.1.toList.length ≤ 3 := by
  decide

/-- Three bytes tell which name stands there. -/
theorem namedEscape?_congr {s t : Bytes} (h : s.take 3 = t.take 3) :
    namedEscape? s = namedEscape? t := by
  rw [namedEscape?, namedEscape?, ← List.head?_filterMap, ← List.head?_filterMap]
  refine congrArg List.head? (List.filterMap_congr ?_)
  intro p hp
  have hlen := (length_of_mem_escapeNamesByLength p hp).2
  have hsome := isSome_dropText?_congr (take_eq_of_le h hlen)
  show (dropText? p.1.toList s).map _ = (dropText? p.1.toList t).map _
  cases hs : dropText? p.1.toList s <;> cases ht : dropText? p.1.toList t <;> simp_all

/-- The name that has been found stands there. -/
theorem length_namedEscape? {s : Bytes} {code : UInt8} {length : Nat}
    (h : namedEscape? s = some (code, length)) : 2 ≤ length ∧ length ≤ s.length := by
  obtain ⟨p, hp, hfound⟩ := List.exists_of_findSome?_eq_some h
  obtain ⟨u, hu, hpair⟩ := Option.map_eq_some_iff.mp hfound
  obtain ⟨-, rfl⟩ := Prod.mk.inj hpair
  have htext := length_dropText? hu
  have hlong := (length_of_mem_escapeNamesByLength p hp).1
  rw [String.length_toList] at htext hlong
  omega

end TerminalConfig
