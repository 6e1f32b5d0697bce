import TerminalConfig.Lexical.Token

/-! # Readers of composite values — variants and bracketed lists

    A variant is a name, followed by a payload if the name has one.  A list
    stands in brackets, its elements separated by commas; it may be empty,
    and no comma stands before the closing bracket.  Both are built from any
    reader, so they nest to any depth. -/

namespace TerminalConfig

namespace Reader

variable {α : Type}

/-- A name, with what `next` reads after it.  A name that `next` does not know
    is a fault that lies at the name. -/
def variant (enumeration : String) (next : String → Option (Reader α)) : Reader α := do
  let payload ← fromStart do
    let name ← identifier
    match next name with
    | some payload => return .ok payload
    | none => return .error (.unknownVariant enumeration name)
  payload

end Reader

/-- The elements that follow one another, each behind a comma. -/
def readElements {α : Type} (element : Reader α) (s : Bytes) :
    Except Failure (List α × Bytes) :=
  if s.head? = some comma then
    match h : (Reader.symbol ",").run s with
    | .error e => .error e
    | .ok (_, t) =>
        have := Reader.progresses_symbol (by decide) h
        match h' : element.run t with
        | .error e => .error e
        | .ok (a, u) =>
            have := element.length_rest h'
            match readElements element u with
            | .error e => .error e
            | .ok (later, v) => .ok (a :: later, v)
  else .ok ([], s)
termination_by s.length

/-- What elements leave is a suffix. -/
theorem suffix_readElements {α : Type} {element : Reader α} {s t : Bytes} {as : List α}
    (h : readElements element s = .ok (as, t)) : t <:+ s := by
  fun_induction readElements element s generalizing as t with
  | case1 => cases h
  | case2 => cases h
  | case3 => cases h
  | case4 s _ _ u hu _ a v hv _ later w hw ih =>
      cases h
      exact (ih hw).trans ((element.rest_suffix hv).trans ((Reader.symbol ",").rest_suffix hu))
  | case5 =>
      cases h
      exact List.suffix_refl _

/-- A fault among elements lies at or after their start. -/
theorem failure_readElements {α : Type} {element : Reader α} {s : Bytes} {e : Failure}
    (h : readElements element s = .error e) : e.stop <:+ e.site ∧ e.site <:+ s := by
  fun_induction readElements element s with
  | case1 s _ e' he =>
      cases h
      exact (Reader.symbol ",").failure_suffix he
  | case2 s _ _ u hu _ e' he =>
      cases h
      have := element.failure_suffix he
      exact ⟨this.1, this.2.trans ((Reader.symbol ",").rest_suffix hu)⟩
  | case3 s _ _ u hu _ a v hv _ e' he ih =>
      cases h
      have := ih he
      exact ⟨this.1, this.2.trans ((element.rest_suffix hv).trans
        ((Reader.symbol ",").rest_suffix hu))⟩
  | case4 => cases h
  | case5 => cases h

namespace Reader

variable {α : Type}

/-- The elements of a list after the first one. -/
def elements (element : Reader α) : Reader (List α) where
  run := readElements element
  rest_suffix := suffix_readElements
  failure_suffix := failure_readElements

/-- What stands between the brackets of a list. -/
def listItems (element : Reader α) : Reader (List α) := do
  if (← ahead) = some closeBracket then
    return []
  else
    let first ← element
    let later ← elements element
    return first :: later

/-- A bracketed list. -/
def list (element : Reader α) : Reader (List α) := do
  let _ ← symbol "["
  let items ← listItems element
  let _ ← symbol "]"
  return items

/-- A variant takes at least its name. -/
theorem progresses_variant (enumeration : String) (next : String → Option (Reader α)) :
    (variant enumeration next).Progresses :=
  Progresses.bind (Progresses.fromStart (progresses_identifier.bind))

/-- A list takes at least its opening bracket. -/
theorem progresses_list (element : Reader α) : (list element).Progresses :=
  Progresses.bind (progresses_symbol (by decide))

end Reader

end TerminalConfig
