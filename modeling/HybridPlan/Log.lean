set_option autoImplicit false

/-! # Log

What a run reports besides its result, line by line, each line with a level. -/

namespace HybridPlan

/-- How important a line is, the most important first. -/
inductive LogLevel where
  | error
  | warn
  | info
  | debug
  | trace
  deriving DecidableEq, Repr

namespace LogLevel

def all : List LogLevel := [error, warn, info, debug, trace]

def name : LogLevel → String
  | error => "ERROR"
  | warn => "WARN"
  | info => "INFO"
  | debug => "DEBUG"
  | trace => "TRACE"

/-- The place in the order of importance, counted from 1. -/
def number : LogLevel → Nat
  | error => 1
  | warn => 2
  | info => 3
  | debug => 4
  | trace => 5

/-- Whether lines of a level are shown if the least important level shown is `limit`. -/
def isShown (limit level : LogLevel) : Bool := level.number ≤ limit.number

end LogLevel

structure LogLine where
  level : LogLevel
  text : String
  deriving DecidableEq, Repr

end HybridPlan
