import TerminalConfig.Shape

/-! # Declarations — shapes as they are asked for

    A declaration names scalars by their kind and may list a variant twice.
    `Declaration.shape` makes the shape, from the inside out: the payloads of
    all variants come before the names of the enumeration that holds them. -/

namespace TerminalConfig

/-- A shape as it is written down; `made` is a shape that exists already. -/
inductive Declaration
  | scalar (kind : String)
  | list (element : Declaration)
  | enum (name : String) (variants : List (String × Option Declaration))
  | made (shape : Shape)

/-- Why there is no shape for a declaration. -/
inductive DeclarationFault
  | unknownKind (kind : String)
  | duplicateVariant (enumeration name : String)
deriving DecidableEq, Repr

/-- The words for a fault. -/
def DeclarationFault.message : DeclarationFault → Text
  | unknownKind kind => "unknown scalar kind: " ++ Text.quoted kind
  | duplicateVariant enumeration name =>
      "duplicate variant " ++ Text.quoted name ++ " in " ++ Text.ofString enumeration

/-- The first name that stands in the list a second time. -/
def firstRepeated? : (seen names : List String) → Option String
  | _, [] => none
  | seen, name :: names =>
      if name ∈ seen then some name else firstRepeated? (name :: seen) names

/-- No name is repeated exactly when all are different from each other and from
    those seen before. -/
theorem firstRepeated?_eq_none {seen names : List String} :
    firstRepeated? seen names = none ↔ names.Nodup ∧ ∀ name ∈ names, name ∉ seen := by
  induction names generalizing seen with
  | nil => simp [firstRepeated?]
  | cons name names ih =>
      simp only [firstRepeated?]
      split
      · next h => simp [h]
      · next h =>
        rw [ih]
        simp only [List.nodup_cons, List.mem_cons, forall_eq_or_imp, not_or]
        constructor
        · intro ⟨hn, hs⟩
          exact ⟨⟨fun hm => (hs name hm).1 rfl, hn⟩, h, fun m hm => (hs m hm).2⟩
        · intro ⟨⟨hm, hn⟩, _, hs⟩
          exact ⟨hn, fun m hm' => ⟨fun he => hm (he ▸ hm'), hs m hm'⟩⟩

namespace Declaration

mutual

/-- The shape of a declaration. -/
def shape : Declaration → Except DeclarationFault Shape
  | scalar kind =>
      if kind = "int" then .ok .int
      else if kind = "char" then .ok .char
      else if kind = "string" then .ok .string
      else .error (.unknownKind kind)
  | list element => return .list (← element.shape)
  | enum name variants => do
      let made ← shapes variants
      match firstRepeated? [] (made.map (·.1)) with
      | some repeated => .error (.duplicateVariant name repeated)
      | none => return .enum name made
  | made shape => .ok shape

/-- The shapes of the payloads of variants. -/
def shapes : List (String × Option Declaration) →
    Except DeclarationFault (List (String × Option Shape))
  | [] => .ok []
  | (name, none) :: variants => return (name, none) :: (← shapes variants)
  | (name, some payload) :: variants => do
      let first ← payload.shape
      return (name, some first) :: (← shapes variants)

end

end Declaration

end TerminalConfig
