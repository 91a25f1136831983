import HybridPlan.Problem
import Std.Data.HashSet

set_option autoImplicit false

/-! # Generated constraints

A plan that breaks a temporal constraint in the middle of a stage is excluded by that constraint,
anchored at a point of the stage: at a fixed time after its start, or at a fixed fraction of its
duration. A store keeps the generated constraints in the order of their generation; two constraints
whose anchors agree to nine places are the same to it. -/

namespace HybridPlan

/-- A temporal constraint that does not hold somewhere inside a stage. -/
structure Violation (α : Type) where
  stage : Nat
  /-- The position of the constraint among the temporal constraints. -/
  constraint : Nat
  /-- The first sample at which the constraint is violated. -/
  offset : α
  /-- The sample before it, or the start of the stage. -/
  intervalStart : α
  /-- Where the trajectory is estimated to leave the feasible region. -/
  crossing : α
  /-- The last sample up to which the violation lasts without a break. -/
  intervalEnd : α
  /-- The duration of the stage. -/
  duration : α
  /-- The relative residual at the first violated sample. -/
  residual : α
  /-- The states there. -/
  state : List (String × α)

/-- A temporal constraint anchored in a stage. -/
structure Cut (α : Type) where
  stage : Nat
  /-- The position of the constraint among the temporal constraints. -/
  constraint : Nat
  mode : OffsetMode
  /-- The anchor in the plan that was excluded, as a time after the start of the stage. -/
  offset : α
  /-- The duration of the stage in that plan. -/
  duration : α
  /-- The constraint with the duration replaced by the anchor. -/
  expr : ExprId
  /-- The iteration in which the cut was generated. -/
  iteration : Nat

variable {α : Type} [Scalar α]

/-- A time as a fraction of a duration; zero if there is no duration. -/
def fractionOf (duration offset : α) : α :=
  if Scalar.lt Scalar.zero duration then offset / duration else Scalar.zero

namespace Violation

variable (v : Violation α)

/-- The time at which the violation is forbidden: where it was detected or, for an anchor that moves
with the duration, the middle of the violated interval. -/
def anchorOffset : OffsetMode → α
  | .absolute => v.offset
  | .relative => (v.offset + v.intervalEnd) / Scalar.nat 2

/-- The anchor as a fraction of the duration. -/
def anchorFraction : α := fractionOf v.duration (v.anchorOffset .relative)

/-- The number that tells the anchor of the violation from others. -/
def anchor : OffsetMode → α
  | .absolute => v.offset
  | .relative => v.anchorFraction

/-- What replaces the duration in the constraint. -/
def anchorExpr (dt : String) : OffsetMode → Build α ExprId
  | .absolute => Build.num v.offset
  | .relative => do
    let fraction ← Build.num v.anchorFraction
    let duration ← Build.sym ⟨dt, none⟩
    Build.mul fraction duration

/-- The constraint that forbids the violation. A constraint that does not exist is left as the
number zero. -/
def materialize (p : Problem α) (mode : OffsetMode) : Build α ExprId := do
  let dt := p.domain.dt
  let anchor ← v.anchorExpr dt mode
  match p.temporal[v.constraint]? with
  | some e => Build.substitute (.ofList [(dt, anchor)]) e
  | none => Build.zero

end Violation

/-- The anchor as a fraction of the duration. -/
def Cut.fraction (c : Cut α) : α := fractionOf c.duration c.offset

/-- The number that tells the anchor of the cut from others. -/
def Cut.anchor (c : Cut α) : α :=
  match c.mode with
  | .absolute => c.offset
  | .relative => c.fraction

/-! ## The store -/

/-- What is the same for equal cuts: stage, constraint, mode, and the anchor to nine places. -/
structure CutKey where
  stage : Nat
  constraint : Nat
  mode : OffsetMode
  anchor : Int64
  deriving DecidableEq, Hashable

def CutKey.of (stage constraint : Nat) (mode : OffsetMode) (anchor : α) : CutKey :=
  ⟨stage, constraint, mode, Scalar.nearest64 (anchor * Scalar.nat 1000000000)⟩

/-- The cuts generated at the current horizon. -/
structure CutStore (α : Type) where
  items : Array (Cut α) := #[]
  keys : Std.HashSet CutKey := {}

namespace CutStore

def size (s : CutStore α) : Nat := s.items.size

def isEmpty (s : CutStore α) : Bool := s.items.isEmpty

/-- Stores a cut unless an equal one is stored; tells whether it was stored. -/
def insert (s : CutStore α) (c : Cut α) : Bool × CutStore α :=
  let key := CutKey.of c.stage c.constraint c.mode c.anchor
  if s.keys.contains key then (false, s)
  else (true, ⟨s.items.push c, s.keys.insert key⟩)

theorem items_insert (s : CutStore α) (c : Cut α) :
    (s.insert c).2.items = if (s.insert c).1 then s.items.push c else s.items := by
  grind [insert]

/-- Generates and stores the cut of a violation unless an equal one is stored; tells whether it was
stored. The problem's arena grows with the cut. -/
def add (s : CutStore α) (p : Problem α) (v : Violation α) (mode : OffsetMode) (iteration : Nat) :
    Bool × CutStore α × Problem α :=
  if s.keys.contains (CutKey.of v.stage v.constraint mode (v.anchor mode)) then (false, s, p)
  else
    let (expr, arena) := (v.materialize p mode).run p.arena
    let (isNew, s) := s.insert
      { stage := v.stage, constraint := v.constraint, mode, offset := v.anchorOffset mode,
        duration := v.duration, expr, iteration }
    (isNew, s, p.withArena arena)

end CutStore

end HybridPlan
