import TerminalConfig.Proofs.Shapes

/-! # Shapes of the catalogs — keys and modifiers are read by their shapes

    Keys and modifiers have readers of their own, which give them as what they are
    and not as values of a shape.  Up to that, they are the readers of the shapes
    that the catalogs declare: what is read, what is left and what is a fault are
    the same (`Key.reader_shape`, `Modifier.reader_listShape`).  So what holds of the
    readers of all proper shapes holds of theirs.

    What is made of a value can be made of its parts, because readers obey the laws
    of sequencing; lists are gone through by the length of what is left. -/

namespace TerminalConfig

namespace Reader

variable {α β : Type}

/-- Readers go on in any grouping. -/
instance : LawfulMonad Reader :=
  LawfulMonad.mk' Reader
    (fun r => by
      ext s
      rw [run_map]
      cases r.run s <;> rfl)
    (fun _ _ => rfl)
    (fun r _ _ => by
      ext s
      rw [run_bind, run_bind, run_bind]
      cases r.run s <;> rfl)

/-- A variant is read by its name first, and then as the name says. -/
theorem run_variant (enumeration : String) (next : String → Option (Reader α)) (s : Bytes) :
    (variant enumeration next).run s =
      match identifier.run s with
      | .error e => .error e
      | .ok (name, t) =>
          match next name with
          | some payload => payload.run t
          | none => .error ⟨.unknownVariant enumeration name, s, t⟩ := by
  show (fromStart _ >>= _).run s = _
  rw [run_bind, fromStart]
  dsimp only
  rw [run_bind]
  cases identifier.run s with
  | error e => rfl
  | ok v =>
      dsimp only
      cases next v.1 <;> rfl

/-- What is made of a variant is made of what is read behind its name. -/
theorem map_variant (f : α → β) (enumeration : String) (next : String → Option (Reader α)) :
    f <$> variant enumeration next
      = variant enumeration fun name => (next name).map (f <$> ·) := by
  ext s
  rw [run_map, run_variant, run_variant]
  cases identifier.run s with
  | error e => rfl
  | ok v =>
      dsimp only
      cases next v.1 <;> rfl

/-- Elements are a comma, an element and the later ones, or nothing. -/
theorem elements_eq (element : Reader α) :
    elements element = (do
      if (← ahead) = some comma then
        let _ ← symbol ","
        let a ← element
        let later ← elements element
        return a :: later
      else return []) := by
  ext s
  rw [run_bind_of_ok (run_ahead s)]
  show readElements element s = _
  rw [readElements]
  split
  · split
    · next e he => rw [run_bind_of_error he]
    · next v t ht =>
      rw [run_bind_of_ok ht]
      split
      · next e he => rw [run_bind_of_error he]
      · next a u hu =>
        rw [run_bind_of_ok hu]
        split
        · next e he =>
          have hlater : (elements element).run u = .error e := he
          rw [run_bind_of_error hlater]
        · next later w hw =>
          have hlater : (elements element).run u = .ok (later, w) := hw
          rw [run_bind_of_ok hlater]
          rfl
  · rfl

/-- What is made of elements is made of each of them. -/
theorem map_elements (f : α → β) (element : Reader α) :
    List.map f <$> elements element = elements (f <$> element) := by
  ext s
  -- the later elements are read from less than `s`: a comma is taken first
  induction hn : s.length using Nat.strongRecOn generalizing s with
  | ind n ih =>
      rw [run_map, elements_eq element, elements_eq (f <$> element),
        run_bind_of_ok (run_ahead s), run_bind_of_ok (run_ahead s)]
      by_cases hs : s.head? = some comma
      · rw [if_pos hs, if_pos hs]
        cases hcomma : (symbol ",").run s with
        | error e => rw [run_bind_of_error hcomma, run_bind_of_error hcomma]
        | ok v =>
            obtain ⟨text, t⟩ := v
            have hshorter : t.length < s.length := progresses_symbol (by decide) hcomma
            rw [run_bind_of_ok hcomma, run_bind_of_ok hcomma, bind_map_left]
            cases ha : element.run t with
            | error e => rw [run_bind_of_error ha, run_bind_of_error ha]
            | ok w =>
                obtain ⟨a, u⟩ := w
                have hlater := ih u.length
                  (hn ▸ Nat.lt_of_le_of_lt (element.length_rest ha) hshorter) u rfl
                rw [run_bind_of_ok ha, run_bind_of_ok ha, run_bind, run_bind, ← hlater, run_map]
                cases (elements element).run u <;> rfl
      · rw [if_neg hs, if_neg hs]
        rfl

/-- What is made of a list is made of its elements. -/
theorem map_list (f : α → β) (element : Reader α) :
    List.map f <$> list element = list (f <$> element) := by
  have hitems : List.map f <$> listItems element = listItems (f <$> element) := by
    rw [listItems, listItems, ← map_elements]
    simp only [map_bind, bind_map_left, map_pure, apply_ite (Functor.map (List.map f)),
      List.map_nil, List.map_cons]
  rw [list, list, ← hitems]
  simp only [map_bind, bind_map_left, map_pure]

end Reader

/-- The payload as a value of a shape. -/
def KeyPayload.value : KeyPayload → Value
  | char c => .char c
  | int n => .int n.toNat

/-- The key as a value of its shape. -/
def Key.value (k : Key) : Value :=
  .variant k.name (k.payload.map KeyPayload.value)

/-- The modifier as a value of its shape. -/
def Modifier.value (m : Modifier) : Value :=
  .variant m.name none

/-- A look-up in a table goes for the names alone. -/
theorem lookup_map {α β : Type} (f : α → β) (table : List (String × α)) (name : String) :
    (table.map fun entry => (entry.1, f entry.2)).lookup name = (table.lookup name).map f := by
  induction table with
  | nil => rfl
  | cons entry table ih =>
      rw [List.map_cons, List.lookup_cons, List.lookup_cons, ih]
      cases name == entry.1 <;> rfl

/-- A table without payloads has what it names. -/
theorem lookup_names {α : Type} (a : α) (names : List String) (name : String) :
    (names.map fun n => (n, a)).lookup name = if name ∈ names then some a else none := by
  induction names with
  | nil => rfl
  | cons first names ih =>
      rw [List.map_cons, List.lookup_cons, ih]
      by_cases hname : name = first
      · simp [hname]
      · rw [beq_false_of_ne hname]
        simp [hname]

/-- A payload is read by its shape. -/
theorem PayloadKind.reader_shape (kind : PayloadKind) :
    kind.shape.reader = KeyPayload.value <$> kind.reader := by
  cases kind with
  | char =>
      rw [shape, Shape.reader, reader, Functor.map_map]
      rfl
  | int =>
      rw [shape, Shape.reader, reader, Functor.map_map]
      rfl

/-- A key is read by its shape. -/
theorem Key.reader_shape : shape.reader = value <$> reader := by
  rw [reader, Reader.map_variant, shape, Shape.reader]
  congr 1
  funext name
  rw [Shape.readerOf_eq_lookup, lookup_map, readerOf, Option.map_map, Option.map_map]
  congr 1
  funext kind
  cases kind with
  | none => rfl
  | some kind =>
      show (fun v => Value.variant name (some v)) <$> kind.shape.reader = value <$> _ <$> kind.reader
      rw [PayloadKind.reader_shape, Functor.map_map, Functor.map_map]
      rfl

/-- A list of modifiers is read by its shape. -/
theorem Modifier.reader_listShape :
    listShape.reader = (fun ms => .list (ms.map value)) <$> listReader := by
  have hone : shape.reader = value <$> reader := by
    rw [reader, Reader.map_variant, shape, Shape.reader]
    congr 1
    funext name
    rw [Shape.readerOf_eq_lookup, lookup_names]
    split <;> rfl
  rw [listShape, Shape.reader, hone, listReader, ← Reader.map_list, Functor.map_map]

/-! ## The shapes are proper -/

/-- Every key is named once, and its payload is a scalar. -/
theorem Key.proper_shape : shape.Proper := by
  refine .enum (by decide) fun found payload hmem => ?_
  obtain ⟨⟨name, kind⟩, -, hentry⟩ := List.mem_map.mp hmem
  obtain ⟨kind, -, rfl⟩ := Option.map_eq_some_iff.mp (Prod.mk.inj hentry).2
  cases kind with
  | char => exact .char
  | int => exact .int

/-- Every modifier is named once, and has no payload. -/
theorem Modifier.proper_listShape : listShape.Proper := by
  refine .list (.enum (by decide) fun found payload hmem => ?_)
  obtain ⟨name, -, hentry⟩ := List.mem_map.mp hmem
  cases (Prod.mk.inj hentry).2

end TerminalConfig
