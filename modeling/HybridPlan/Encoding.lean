import HybridPlan.Cut
import HybridPlan.Plan.Basic
import HybridPlan.Program.Cip
import HybridPlan.Program.Solution

set_option autoImplicit false

/-! # Encoding a problem as a mathematical program

For a plan of `H` stages each state `X` has the variables `X_0`, …, `X_H`, one for each boundary of
a stage, and each decision `A` the variables `A_0`, …, `A_{H-1}`, one for each stage; a global
variable keeps its name. Rows state the constraints, link the states of successive boundaries by the
closed forms, and define what each stage earns. Conjunctions are split into rows; a disjunction gets
a binary switch for each of its inequalities, which lifts the inequality by a large constant if
set. -/

namespace HybridPlan

/-- The name of the variable for the value of `name` at a boundary or stage. -/
def stageVar (name : String) (t : Nat) : String := s!"{name}_{t}"

/-- The name of the variable for what a stage earns. -/
def rewardVar (t : Nat) : String := s!"Obj_{t}"

/-- What the symbols of an expression refer to. -/
inductive Scope where
  /-- The values of a stage; next values are those at its end. -/
  | stage (t : Nat)
  /-- The end of a plan with so many stages: its last states, and the decisions of its last
  stage. -/
  | goal (horizon : Nat)
  deriving DecidableEq, Hashable

/-- Why an expression cannot be encoded. -/
inductive Unencodable where
  | nextAtEnd
  | derivative
  | arguments
  | notArithmetic
  | notComparison
  | notInequality
  | equality
  deriving DecidableEq, Repr

def Unencodable.text : Unencodable → String
  | nextAtEnd => "next values are not defined at the end of the plan"
  | derivative => "derivatives only appear in ODEs"
  | arguments => "wrong number of arguments"
  | notArithmetic => "expected an arithmetic expression"
  | notComparison => "expected a comparison"
  | notInequality => "a disjunction may only contain inequalities"
  | equality => "equalities cannot be disjuncts"

inductive EncodingError (α : Type) where
  /-- An expression in the row of a label. -/
  | unsupported (label : String) (e : ExprId) (reason : Unencodable)
  /-- A symbol in the row of a label. -/
  | misplaced (label : String) (name : String) (reason : Unencodable)
  | unbound (name : String)
  | program (e : ProgramError α)

def EncodingError.message {α : Type} [Scalar α] (a : Arena α) : EncodingError α → String
  | unsupported label e reason => s!"cannot encode `{a.text e}` in {label}: {reason.text}"
  | misplaced label name reason => s!"cannot encode `{name}` in {label}: {reason.text}"
  | unbound name => s!"unknown name `{name}`"
  | program e => e.message

namespace Encoding

variable {α : Type} [Scalar α]

/-- The program being built, and the terms of expressions that have been encoded. -/
structure State (α : Type) [Scalar α] where
  program : Program α
  known : Std.HashMap (ExprId × Scope) TermId := {}

abbrev Encode (α : Type) [Scalar α] := StateT (State α) (Except (EncodingError α))

/-! ## Access to the program -/

/-- Extends the program. -/
def extend {ι : Type} (m : Program.Extend α ι) : Encode α ι := fun s =>
  match m.run.run s.program with
  | (.ok i, program) => .ok (i, { s with program })
  | (.error e, _) => .error (.program e)

/-- Makes a term. -/
def make (m : Terms.Make α TermId) : Encode α TermId :=
  modifyGet fun s =>
    let (t, program) := (Program.withTerms m).run s.program
    (t, { s with program })

/-- The variable of a name. -/
def var (name : String) : Encode α VarId := do
  match (← get).program.varOf? name with
  | some v => return v
  | none => throw (.unbound name)

/-! ## Variables -/

/-- The domain and the bounds of a variable. The duration lies between zero and the large
constant. -/
def varBounds (p : Problem α) (v : Variable) : VarDomain × α × α :=
  match v.kind with
  | .boolean => (.binary, Scalar.zero, Scalar.one)
  | .integer => (.integer, -Scalar.infinity, Scalar.infinity)
  | .continuous =>
    if v.name.text = p.domain.dt then (.continuous, Scalar.zero, p.bigM)
    else (.continuous, -Scalar.infinity, Scalar.infinity)

def declare (p : Problem α) (v : Variable) (name : String) : Encode α VarId :=
  let (domain, lower, upper) := varBounds p v
  extend (Program.addVar name domain lower upper)

/-! ## Terms -/

/-- The number of the boundary or stage at which the variable of a scope is taken. -/
def Scope.time (v : Variable) : Scope → Nat
  | .stage t => t
  | .goal h => if v.role = .state then h else h - 1

/-- The name of the variable that stands for a declared variable in a scope. -/
def varName (v : Variable) (scope : Scope) : String :=
  if v.isGlobal then v.name.text else stageVar v.name.text (Scope.time v scope)

/-- The term of a symbol. -/
def symbol (p : Problem α) (scope : Scope) (label name : String) : Encode α TermId := do
  let variableTerm (name : String) : Encode α TermId := do
    let v ← var name
    make (Terms.var v)
  match p.domain.resolve? name with
  | some (.constant value) => make (Terms.const value)
  | some .tolerance => make (Terms.const p.feastol)
  | some (.var v) => variableTerm (varName v scope)
  | some (.next v) =>
    match scope with
    | .stage t => variableTerm (stageVar v.name.text (t + 1))
    | .goal _ => throw (.misplaced label name .nextAtEnd)
  | none => throw (.unbound name)

/-- The constructor of terms for an arithmetic operator. -/
def arith : ArithOp → TermId → TermId → Terms.Make α TermId
  | .add => Terms.add
  | .sub => Terms.sub
  | .mul => Terms.mul
  | .div => Terms.div
  | .pow => Terms.pow

/-- The term of an expression at most the given number of levels deep. -/
def termBelow (p : Problem α) (scope : Scope) (label : String) : Nat → ExprId → Encode α TermId
  | 0, _ => make (Terms.const Scalar.zero)
  | n + 1, e => do
    if let some t := (← get).known[(e, scope)]? then
      return t
    let t ← match p.arena.node e with
      | .num value => make (Terms.const value)
      | .sym s => symbol p scope label s
      | .neg x => do
        let x ← termBelow p scope label n x
        make (Terms.neg x)
      | .arith op x y => do
        let x ← termBelow p scope label n x
        let y ← termBelow p scope label n y
        make (arith op x y)
      | .call (.elementary f) [x] => do
        let x ← termBelow p scope label n x
        make (Terms.call f x)
      | .call (.elementary _) _ => throw (.unsupported label e .arguments)
      | .call .dd _ => throw (.unsupported label e .derivative)
      | .compare _ _ _ | .join _ _ => throw (.unsupported label e .notArithmetic)
    modify fun s => { s with known := s.known.insert (e, scope) t }
    return t

/-- The term of an arithmetic expression. A term that was made once is used again. -/
def term (p : Problem α) (scope : Scope) (label : String) (e : ExprId) : Encode α TermId :=
  termBelow p scope label (e + 1) e

/-! ## Rows -/

/-- The bounds of the difference of the sides of a comparison. A strict comparison leaves the
tolerance between the sides. -/
def comparisonBounds (feastol : α) : Comparison → α × α
  | .le => (-Scalar.infinity, Scalar.zero)
  | .lt => (-Scalar.infinity, -feastol)
  | .ge => (Scalar.zero, Scalar.infinity)
  | .gt => (feastol, Scalar.infinity)
  | .eq => (Scalar.zero, Scalar.zero)

/-- The row of a comparison. -/
def comparison (p : Problem α) (scope : Scope) (label : String) (op : Comparison)
    (x y : ExprId) : Encode α Unit := do
  let (lower, upper) := comparisonBounds p.feastol op
  let x ← term p scope label x
  let y ← term p scope label y
  let body ← make (Terms.sub x y)
  extend (Program.addRow label lower body upper)

/-- An inequality `lhs ≤ rhs`, or `lhs < rhs` if it is strict. -/
structure Inequality where
  lhs : ExprId
  rhs : ExprId
  strict : Bool

/-- The comparison of `x` and `y` as an inequality with the smaller side first. -/
def Inequality.of? (op : Comparison) (x y : ExprId) : Option Inequality :=
  match op with
  | .le => some ⟨x, y, false⟩
  | .lt => some ⟨x, y, true⟩
  | .ge => some ⟨y, x, false⟩
  | .gt => some ⟨y, x, true⟩
  | .eq => none

/-- The bounds of `lhs - rhs - z * bigM`, where `z` is the switch of the inequality: with `z = 0`
the inequality holds, and with `z = 1` it fails by the tolerance, or fails if it is strict. -/
def switchBounds (bigM feastol : α) (strict : Bool) : α × α :=
  if strict then (-bigM, -feastol) else (feastol - bigM, Scalar.zero)

/-- The switch and the row of the disjunct at a position; the result is the term of the switch. -/
def disjunct (p : Problem α) (scope : Scope) (label : String) (position : Nat) (item : ExprId) :
    Encode α TermId := do
  match p.arena.node item with
  | .compare op x y =>
    match Inequality.of? op x y with
    | none => throw (.unsupported label item .equality)
    | some q => do
      let z ← extend (Program.addVar s!"Aux_{label}_{position}" .binary Scalar.zero Scalar.one)
      let z ← make (Terms.var z)
      let lhs ← term p scope label q.lhs
      let rhs ← term p scope label q.rhs
      let difference ← make (Terms.sub lhs rhs)
      let bigM ← make (Terms.const p.bigM)
      let lift ← make (Terms.mul z bigM)
      let body ← make (Terms.sub difference lift)
      let (lower, upper) := switchBounds p.bigM p.feastol q.strict
      extend (Program.addRow s!"{label}_or_{position}" lower body upper)
      return z
  | _ => throw (.unsupported label item .notInequality)

/-- The switches of the disjuncts from a position on. -/
def disjuncts (p : Problem α) (scope : Scope) (label : String) :
    Nat → List ExprId → Encode α (List TermId)
  | _, [] => return []
  | i, item :: items => do
    let z ← disjunct p scope label i item
    return z :: (← disjuncts p scope label (i + 1) items)

/-- The rows of a disjunction: one for each inequality, and one that leaves a switch unset. -/
def disjunction (p : Problem α) (scope : Scope) (label : String) (items : List ExprId) :
    Encode α Unit := do
  let switches ← disjuncts p scope label 0 items
  let body ← make (Terms.sum switches)
  extend (Program.addRow s!"{label}_or" (-Scalar.infinity) body
    (Scalar.nat switches.length - Scalar.one))

/-- Numbered items, each with its own label. -/
def labelled {ι : Type} (f : String → ι → Encode α Unit) (label : String) (i : Nat) :
    List ι → Encode α Unit
  | [] => return ()
  | x :: xs => do
    f s!"{label}_{i}" x
    labelled f label (i + 1) xs

/-- The rows of a constraint at most the given number of levels deep. -/
def constraintBelow (p : Problem α) (scope : Scope) : Nat → String → ExprId → Encode α Unit
  | 0, _, _ => return ()
  | n + 1, label, e =>
    match p.arena.node e with
    | .join .and items => labelled (constraintBelow p scope n) label 0 items
    | .compare op x y => comparison p scope label op x y
    | .join .or items => disjunction p scope label items
    | _ => throw (.unsupported label e .notComparison)

/-- The rows of a constraint. -/
def constraint (p : Problem α) (scope : Scope) (label : String) (e : ExprId) : Encode α Unit :=
  constraintBelow p scope (e + 1) label e

/-! ## The whole program -/

/-- The variables of a plan, and the terms of its objective. -/
def declareAll (p : Problem α) (horizon : Nat) : Encode α (List (VarId × α)) := do
  let d := p.domain
  for v in d.vars.filter (·.isGlobal) do
    let _ ← declare p v v.name.text
  for t in List.range (horizon + 1) do
    for v in d.states do
      let _ ← declare p v (stageVar v.name.text t)
  (List.range horizon).mapM fun t => do
    for v in d.decisions.filter (!·.isGlobal) do
      let _ ← declare p v (stageVar v.name.text t)
    let reward ← extend
      (Program.addVar (rewardVar t) .continuous (-Scalar.infinity) Scalar.infinity)
    return (reward, Scalar.one)

/-- Constraints with labels of the form `kind_i` followed by `ending`. -/
def constraints (p : Problem α) (scope : Scope) (kind ending : String) (cs : List Constraint) :
    Encode α Unit :=
  labelled (fun label (c : Constraint) => constraint p scope (label ++ ending) c.expr) kind 0 cs

/-- The row that links the states of two boundaries. -/
def transition (p : Problem α) (t : Nat) (state : String) (closed : ExprId) : Encode α Unit := do
  let next ← var (stageVar state (t + 1))
  let next ← make (Terms.var next)
  let closed ← term p (.stage t) "transition" closed
  let body ← make (Terms.sub next closed)
  extend (Program.addRow s!"transition_{state}_{t}" Scalar.zero body Scalar.zero)

/-- The row that defines what a stage earns. -/
def reward (p : Problem α) (t : Nat) : Encode α Unit := do
  let earned ← var (rewardVar t)
  let earned ← make (Terms.var earned)
  let value ← term p (.stage t) "reward" p.domain.reward.expr
  let body ← make (Terms.sub earned value)
  extend (Program.addRow s!"reward_{t}" Scalar.zero body Scalar.zero)

/-- The rows of a stage. -/
def stage (p : Problem α) (t : Nat) : Encode α Unit := do
  constraints p (.stage t) "instantaneous" s!"_{t}" p.domain.instantaneous
  constraints p (.stage t) "temporal" s!"_{t}" p.domain.temporal
  for (state, closed) in p.transitions do
    transition p t state closed
  reward p t

/-- The rows of the cuts of the stages that the plan has. -/
def cuts (p : Problem α) (horizon : Nat) (k : Nat) : List (Cut α) → Encode α Unit
  | [] => return ()
  | c :: cs => do
    if c.stage < horizon then
      constraint p (.stage c.stage) s!"generated_{k}_{c.stage}" c.expr
    cuts p horizon (k + 1) cs

def rows (p : Problem α) (horizon : Nat) (store : CutStore α) : Encode α Unit := do
  constraints p (.stage 0) "initial" "" p.domain.initials
  for t in List.range horizon do
    stage p t
  if horizon > 0 then
    constraints p (.goal horizon) "goal" "" p.domain.goals
  cuts p horizon 0 store.items.toList

def build (p : Problem α) (horizon : Nat) (store : CutStore α) : Encode α Unit := do
  let objective ← declareAll p horizon
  modify fun s => { s with program := s.program.setObjective .maximize objective }
  rows p horizon store

end Encoding

/-- The program for a plan with a number of stages. -/
structure EncodedProgram (α : Type) [Scalar α] where
  program : Program α
  horizon : Nat

variable {α : Type} [Scalar α]

/-- Encodes the search for a plan with the given number of stages that respects the stored cuts. -/
def encode (p : Problem α) (horizon : Nat) (store : CutStore α) :
    Except (EncodingError α) (EncodedProgram α) := do
  let (_, s) ← (Encoding.build p horizon store).run { program := { name := s!"scipplan_h{horizon}" } }
  return ⟨s.program, horizon⟩

namespace EncodedProgram

/-- The values of variables of the domain at a stage. -/
def valuesOf (value : String → α) (vs : List Variable) (t : Nat) : Values α :=
  vs.map fun v => (v.name.text, value (Encoding.varName v (.stage t)))

/-- The plan that a solution describes. -/
def extract (e : EncodedProgram α) (p : Problem α) (s : Solution α) : Plan α :=
  let d := p.domain
  let value (name : String) : α := (s.valueOf? e.program name).getD Scalar.zero
  let states (t : Nat) : Values α :=
    d.states.map fun v => (v.name.text, value (stageVar v.name.text t))
  let actions := d.decisions.filter fun v => v.role = .action && v.name.text ≠ d.dt
  let auxiliaries := d.decisions.filter (·.role = .auxiliary)
  { horizon := e.horizon
    stages := (List.range e.horizon).map fun t =>
      { index := t
        actions := valuesOf value actions t
        auxiliaries := valuesOf value auxiliaries t
        dt := value (stageVar d.dt t)
        start := states t
        finish := states (t + 1) }
    reward := s.objective
    dt := d.dt }

end EncodedProgram

end HybridPlan
