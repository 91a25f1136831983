import HybridPlan.Expr.Arena
import Std.Data.HashSet

set_option autoImplicit false

/-! # Subterms

The nodes reachable from an expression, each listed once and after all of its operands. -/

namespace HybridPlan.Arena

variable {α : Type} [Scalar α] (a : Arena α)

/-- The nodes met so far on a walk, and those of them that are finished, in that order. -/
structure Walk where
  met : Std.HashSet ExprId := {}
  finished : Array ExprId := #[]

/-- Works off a stack of expressions, at most the given number of its entries. An expression that comes
up for the first time is met: it goes back on the stack, now to be finished (`true`), and its operands
that were not met before go above it. -/
def walk : Nat → Walk → List (ExprId × Bool) → Walk
  | 0, w, _ => w
  | _ + 1, w, [] => w
  | n + 1, w, (e, true) :: stack => walk n { w with finished := w.finished.push e } stack
  | n + 1, w, (e, false) :: stack =>
    if w.met.contains e then walk n w stack
    else
      let w := { w with met := w.met.insert e }
      let operands := (a.node e).operands.filter fun x => !w.met.contains x
      walk n w (operands.map (·, false) ++ (e, true) :: stack)

/-- The number of entries that the stack is given in a walk from `e`, at most: the expression itself, and
every expression up to it once more, with its operands, when it is met. -/
def walkLength (e : ExprId) : Nat :=
  1 + ((List.range (e + 1)).flatMap fun x => x :: (a.node x).operands).length

/-- The distinct nodes reachable from `e`, operands first and `e` last. -/
def subterms (e : ExprId) : List ExprId :=
  (a.walk (a.walkLength e) {} [(e, false)]).finished.toList

/-- The symbols of an expression, in the order of their code points. -/
def symbols (e : ExprId) : List String :=
  ((a.subterms e).filterMap a.sym?).mergeSort (fun s t => decide (s ≤ t))

/-- Whether a symbol occurs in an expression. -/
def dependsOn (e : ExprId) (x : String) : Bool := (a.subterms e).any (a.sym? · = some x)

end HybridPlan.Arena
