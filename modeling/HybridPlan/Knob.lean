import HybridPlan.Log
import HybridPlan.Scalar.Binary64

set_option autoImplicit false

/-! # Knobs

Parameters that are not common enough for the command line are read from environment variables. A
knob is read once, when its value is needed for the first time; what happens to the variable later
does not matter to it. A variable that cannot be read counts as not set, with a warning. -/

namespace HybridPlan

structure Knob (τ : Type) where
  /-- The environment variable. -/
  name : String
  /-- The text of the value if the variable is not set. -/
  defaultText : String
  read? : String → Option τ
  /-- The value, once it has been read or set. -/
  value : Option τ := none

/-- A use of a knob that its program does not allow. -/
inductive KnobFault where
  | invalidDefault (name text : String)
  | alreadySet (name : String)
  deriving DecidableEq, Repr

def KnobFault.message : KnobFault → String
  | invalidDefault name text => s!"[knob] {name}: invalid default value \"{text}\"."
  | alreadySet name => s!"Knob {name} is already initialized (i.e. was previously accessed)."

namespace Knob

variable {τ : Type} (k : Knob τ)

/-- The value if the variable is not set. -/
def fallback : Except KnobFault τ :=
  match k.read? k.defaultText with
  | some x => .ok x
  | none => .error (.invalidDefault k.name k.defaultText)

def unreadable (text : String) : LogLine :=
  ⟨.warn, s!"could not parse the value \"{text}\" of \"{k.name}\", " ++
    s!"using default \"{k.defaultText}\""⟩

/-- The value that the text of the variable gives, with warnings. -/
def ofVariable (text : Option String) : Except KnobFault τ × List LogLine :=
  match text with
  | none => (k.fallback, [])
  | some text => match k.read? text with
    | some x => (.ok x, [])
    | none => (k.fallback, [k.unreadable text])

/-- The value of the knob, the knob after it, and warnings. -/
def get (text : Option String) : Except KnobFault τ × Knob τ × List LogLine :=
  match k.value with
  | some x => (.ok x, k, [])
  | none => match k.ofVariable text with
    | (.ok x, warnings) => (.ok x, { k with value := some x }, warnings)
    | (.error e, warnings) => (.error e, k, warnings)

/-- Gives a value to a knob that does not have one. -/
def set (x : τ) : Except KnobFault (Knob τ) :=
  if k.value.isSome then .error (.alreadySet k.name) else .ok { k with value := some x }

/-! ## Values -/

/-- A natural number of 32 bits. -/
def readNat? (s : String) : Option Nat := Decimal.readNat? 4294967296 s.toList

def readBool? (s : String) : Option Bool :=
  if s = "true" then some true else if s = "false" then some false else none

/-! ## The knobs of the program -/

/-- How often the interval of the first crossing is halved. -/
def bisectionSteps : Knob Nat := ⟨"SCIPPLAN_BISECTION_STEPS", "32", readNat?, none⟩

/-- Whether programs are printed before they are solved. -/
def printProgram : Knob Bool := ⟨"SCIPPLAN_PRINT_MODEL", "false", readBool?, none⟩

end Knob

end HybridPlan
