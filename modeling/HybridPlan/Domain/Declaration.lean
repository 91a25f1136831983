import HybridPlan.Domain.Sections

set_option autoImplicit false

/-! # Constants and declarations

A constant is written `name = value`, where the value is a number or one of three placeholders for
values of the run. A variable is declared as `role_kind: name`, where `global_` may stand before
the role and the case of letters does not matter. -/

namespace HybridPlan

/-- What the reading of a domain takes from the run. -/
structure ReadSettings (α : Type) where
  epsilon : α
  gap : α
  bigM : α
  /-- The name of the duration. -/
  dt : String
  mode : TransitionMode

/-- Why a line declares nothing; each error holds the line. -/
inductive DeclarationFault where
  | expectedConstant
  | constantName
  | constantValue
  | expectedVariable
  | variableName
  | variableType
  | variableRole
  | variableKind
  deriving DecidableEq, Repr

def DeclarationFault.text : DeclarationFault → String
  | expectedConstant => "expected a constant definition `name = value`"
  | constantName => "invalid constant name"
  | constantValue => "invalid constant value"
  | expectedVariable => "expected a declaration `state_continuous: Name`"
  | variableName => "invalid variable name"
  | variableType => "invalid variable type"
  | variableRole => "variable role must be one of state, action, auxiliary"
  | variableKind => "variable kind must be one of continuous, integer, boolean"

structure DeclarationError where
  fault : DeclarationFault
  line : Span

def DeclarationError.message (e : DeclarationError) : Message :=
  let m := Message.about e.line e.fault.text
  if e.fault = .constantValue then
    m.note "a constant is either a number or one of config_epsilon, config_gap, config_bigM"
  else m

namespace Declaration

variable {α : Type} [Scalar α]

/-- The value of a constant: a placeholder or a number. -/
def constantValue? (settings : ReadSettings α) (text : String) : Option α :=
  if text = "config_epsilon" then some settings.epsilon
  else if text = "config_gap" then some settings.gap
  else if text = "config_bigM" then some settings.bigM
  else Scalar.read? text

/-- Reads a line `name = value`. -/
def readConstant (settings : ReadSettings α) (line : Span) :
    Except DeclarationError (Constant α) := do
  let some (before, after) := Text.splitFirst? '=' line.text.toList
    | throw ⟨.expectedConstant, line⟩
  let name := Text.trim before
  if !isIdentifier name then throw ⟨.constantName, line⟩
  let some value := constantValue? settings (String.ofList (Text.trim after))
    | throw ⟨.constantValue, line⟩
  let span : Span := ⟨line.source, line.start, line.start + Text.byteSize name⟩
  return ⟨⟨String.ofList name, some span⟩, value⟩

def role? : List Char → Option Role := fun cs =>
  match String.ofList cs with
  | "state" => some .state
  | "action" => some .action
  | "auxiliary" | "aux" => some .auxiliary
  | _ => none

def kind? : List Char → Option VarKind := fun cs =>
  match String.ofList cs with
  | "continuous" => some .continuous
  | "integer" | "discrete" => some .integer
  | "boolean" | "bool" => some .boolean
  | _ => none

/-- Reads a line `role_kind: name`. -/
def readVariable (line : Span) : Except DeclarationError Variable := do
  let some (before, after) := Text.splitFirst? ':' line.text.toList
    | throw ⟨.expectedVariable, line⟩
  let type := (Text.trim before).map Char.toLower
  let name := Text.trim after
  if !isIdentifier name then throw ⟨.variableName, line⟩
  let (isGlobal, type) := match Text.afterStart? "global_".toList type with
    | some rest => (true, rest)
    | none => (false, type)
  let some (roleText, kindText) := Text.splitFirst? '_' type | throw ⟨.variableType, line⟩
  let some role := role? roleText | throw ⟨.variableRole, line⟩
  let some kind := kind? kindText | throw ⟨.variableKind, line⟩
  let span : Span := ⟨line.source, line.stop - Text.byteSize name, line.stop⟩
  return ⟨⟨String.ofList name, some span⟩, kind, role, isGlobal⟩

end Declaration

end HybridPlan
