import TerminalConfig.Text.CodePoint

/-! # Log records — what a run reports besides its result

    A record has a level, the part of the program that speaks, and a text.
    `Logged` is a result together with the records made on the way. -/

namespace TerminalConfig

/-- How serious a record is. -/
inductive Level
  | debug
  | warning
deriving DecidableEq, Repr

/-- The parts of the program that report. -/
inductive Origin
  | parser
  | loader
  | debugLog
deriving DecidableEq, Repr

/-- One report. -/
structure LogRecord where
  level : Level
  origin : Origin
  text : Text
deriving DecidableEq

/-- The name of a level. -/
def Level.name : Level → String
  | debug => "DEBUG"
  | warning => "WARNING"

/-- The name that a part of the program reports under. -/
def Origin.name : Origin → String
  | parser => "ttyconf.parser"
  | loader => "ttyconf.loader"
  | debugLog => "ttyconf.debug_log"

namespace LogRecord

/-- The record as a line without its level. -/
def line (r : LogRecord) : Text :=
  r.origin.name ++ ": " ++ r.text

/-- The record as a line with its level. -/
def lineWithLevel (r : LogRecord) : Text :=
  r.level.name ++ " " ++ r.line

end LogRecord

/-- A result with the records made on the way to it. -/
structure Logged (α : Type) where
  value : α
  log : List LogRecord := []
deriving DecidableEq

namespace Logged

variable {α β : Type}

/-- Goes on with the result; the records keep their order. -/
def bind (x : Logged α) (next : α → Logged β) : Logged β where
  value := (next x.value).value
  log := x.log ++ (next x.value).log

instance : Monad Logged where
  pure a := { value := a }
  bind := Logged.bind

@[simp] theorem value_pure (a : α) : (pure a : Logged α).value = a := rfl

@[simp] theorem value_bind (x : Logged α) (next : α → Logged β) :
    (x >>= next).value = (next x.value).value := rfl

/-- Results and their records go on in any grouping. -/
instance : LawfulMonad Logged :=
  LawfulMonad.mk' Logged
    (fun x => congrArg (mk x.value) (List.append_nil x.log))
    (fun _ _ => rfl)
    (fun x f g => congrArg (mk (g (f x.value).value).value)
      (List.append_assoc x.log (f x.value).log _))

end Logged

end TerminalConfig
