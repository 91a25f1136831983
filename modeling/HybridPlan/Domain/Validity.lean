import HybridPlan.Domain.Declaration
import HybridPlan.Expr.Subterms

set_option autoImplicit false

/-! # Well-formed domains

What a domain must satisfy beyond its grammar: every name is declared once and is no reserved name,
the duration is an action of the right type, every state has one equation, names are used where
they have a meaning, and constraints have a shape that can be encoded. -/

namespace HybridPlan

/-- Why a text is no domain. -/
inductive DomainError where
  | sections (e : SectionError)
  | declaration (e : DeclarationError)
  | parse (source : Source) (e : ParseError)
  | missingVariables
  | otherMode (header : Span) (mode : TransitionMode)
  | missingReward
  | severalRewards (second : Span)
  | declaredTwice (name : Name)
  | reservedName (name : Name)
  | globalState (name : Name)
  | durationType (name : Name)
  | durationUndeclared (dt : String)
  | notEquation (entry : Span)
  | notDerivative (entry : Span)
  | derivativeOf (time : Name) (dt : String)
  | notNextValue (name : Name)
  | expectedOde (entry : Span)
  | expectedSolution (entry : Span)
  | undeclaredState (name : Name)
  | severalEquations (state : String) (second first : Span)
  | noEquation (state : Name) (mode : TransitionMode)
  | unknownName (name : String) (entry : Span)
  | misplacedNext (name : String) (entry : Span)
  | notArithmetic (entry : Span)
  | equalityInDisjunction (entry : Span)
  | notInequality (entry : Span)
  | notComparison (entry : Span)

def DomainError.message : DomainError → Message
  | sections e => e.message
  | declaration e => e.message
  | parse source e => e.message source
  | missingVariables => { title := "missing `pvariables` section" }
  | otherMode header mode =>
    .about header s!"the `{mode.name}` transition mode expects a `{mode.equations.name}` section"
  | missingReward => { title := "missing reward expression" }
  | severalRewards second => .about second "the reward must be a single expression"
  | declaredTwice name => .about name.place "name declared more than once"
  | reservedName name => .about name.place "reserved name"
  | globalState name => .about name.place "state variables cannot be global"
  | durationType name =>
    .about name.place "the duration variable must be a (non-global) continuous action"
  | durationUndeclared dt =>
    ({ title := s!"the duration variable `{dt}` is not declared in the `pvariables` section" } :
      Message).note s!"add the line `action_continuous: {dt}`"
  | notEquation entry => .about entry "expected an equation"
  | notDerivative entry => .about entry "expected `dd(<state>, <duration>)`"
  | derivativeOf time dt =>
    .about time.place s!"derivatives must be taken with respect to `{dt}`"
  | notNextValue name => .about name.place "expected the next value of a state, as in `X_dash`"
  | expectedOde entry => .about entry "expected `dd(<state>, <duration>) == ...`"
  | expectedSolution entry => .about entry "expected `<state>_dash == ...`"
  | undeclaredState name => .about name.place "not a declared state variable"
  | severalEquations state second first =>
    (({ title := s!"state `{state}` has more than one equation" } : Message).mark second
      "redefined here").context first "first defined here"
  | noEquation state mode =>
    .about state.place s!"state has no equation in the `{mode.equations.name}` section"
  | unknownName name entry =>
    ({ title := s!"unknown name `{name}`" } : Message).mark entry "used here"
  | misplacedNext name entry =>
    ({ title := s!"`{name}` cannot be used here" } : Message).mark entry
      "next-state values are only allowed in stage constraints and the reward"
  | notArithmetic entry => .about entry "expected an arithmetic expression"
  | equalityInDisjunction entry => .about entry "equalities are not supported in disjunctions"
  | notInequality entry => .about entry "a disjunction may only contain inequalities"
  | notComparison entry => .about entry "expected a comparison"

namespace Domain

variable {α : Type} [Scalar α] (d : Domain α)

abbrev Check := Except DomainError Unit

/-! ## Declarations -/

/-- Names that cannot be declared: next values, the tolerance, and functions. -/
def isReserved (name : String) : Bool :=
  (stateOfNext? name).isSome || name = toleranceName || (Func.ofName? name).isSome

/-- No name is declared twice, counting those in `seen`, and none is reserved. -/
def checkNames : List String → List Name → Check
  | _, [] => .ok ()
  | seen, n :: ns =>
    if seen.contains n.text then .error (.declaredTwice n)
    else if isReserved n.text then .error (.reservedName n)
    else checkNames (n.text :: seen) ns

/-- The duration is a continuous action of each stage. -/
def checkDuration : Check :=
  match d.declared? d.dt with
  | some v =>
    if v.role = .action && v.kind = .continuous && !v.isGlobal then .ok ()
    else .error (.durationType v.name)
  | none => .error (.durationUndeclared d.dt)

def checkDeclarations : Check := do
  checkNames [] (d.constants.map (·.name) ++ d.vars.map (·.name))
  match d.vars.find? fun v => v.isGlobal && v.role = .state with
  | some v => throw (.globalState v.name)
  | none => d.checkDuration

/-! ## Equations -/

/-- The state that the left-hand side of an equation is about. -/
def equationState (lhs : ExprId) (entry : Span) : Except DomainError Name :=
  match d.mode, d.arena.node lhs with
  | .odes, .call .dd [x, t] =>
    match d.arena.symName? x, d.arena.symName? t with
    | some x, some t => if t.text = d.dt then .ok x else .error (.derivativeOf t d.dt)
    | _, _ => .error (.notDerivative entry)
  | .odes, _ => .error (.expectedOde entry)
  | .solutions, .sym s =>
    let next : Name := ⟨s, d.arena.origins[s]?⟩
    match stateOfNext? s with
    | some state => .ok ⟨state, some next.place⟩
    | none => .error (.notNextValue next)
  | .solutions, _ => .error (.expectedSolution entry)

/-- The equation that an entry states. -/
def equation (c : Constraint) : Except DomainError Equation :=
  match d.arena.node c.expr with
  | .compare .eq lhs rhs => do
    let state ← d.equationState lhs c.span
    match d.declared? state.text with
    | some v => if v.role = .state then return ⟨state, rhs, c.span⟩ else throw (.undeclaredState state)
    | none => throw (.undeclaredState state)
  | _ => .error (.notEquation c.span)

/-- No state has two equations, counting those in `seen`, which are in the order of the file. -/
def checkDistinct : List Equation → List Equation → Check
  | _, [] => .ok ()
  | seen, q :: qs =>
    match seen.find? (·.state.text = q.state.text) with
    | some first => .error (.severalEquations q.state.text q.span first.span)
    | none => checkDistinct (seen ++ [q]) qs

def checkEquations : Check := do
  checkDistinct [] d.equations
  match d.states.find? fun v => (d.equation? v.name.text).isNone with
  | some v => throw (.noEquation v.name d.mode)
  | none => return ()

/-! ## Expressions -/

/-- Where an expression stands, which decides whether it can use next values. -/
inductive Position where
  | constraint
  | goal
  | dynamics
  deriving DecidableEq

/-- A symbol refers to something that has a meaning at the position. -/
def checkSymbol (p : Position) (entry : Span) (s : String) : Check :=
  match d.resolve? s with
  | none => .error (.unknownName s entry)
  | some (.next _) => if p = .constraint then .ok () else .error (.misplacedNext s entry)
  | some _ => .ok ()

def checkSymbols (p : Position) (e : ExprId) (entry : Span) : Check :=
  (d.arena.symbols e).forM (d.checkSymbol p entry)

/-- Whether a node is no arithmetic: a constraint, or a derivative. -/
def isBoolean : Node α → Bool
  | .compare _ _ _ | .join _ _ | .call .dd _ => true
  | _ => false

def checkArithmetic (a : Arena α) (entry : Span) (e : ExprId) : Check :=
  if (a.subterms e).any fun t => isBoolean (a.node t) then .error (.notArithmetic entry) else .ok ()

/-- Two arithmetic sides of a comparison. -/
def checkSides (a : Arena α) (entry : Span) (x y : ExprId) : Check := do
  checkArithmetic a entry x
  checkArithmetic a entry y

/-- An item of a disjunction: an inequality. -/
def checkDisjunct (a : Arena α) (entry : Span) (e : ExprId) : Check :=
  match a.node e with
  | .compare .eq _ _ => .error (.equalityInDisjunction entry)
  | .compare _ x y => checkSides a entry x y
  | _ => .error (.notInequality entry)

/-- A constraint is a conjunction of comparisons, of disjunctions of inequalities, and of such
conjunctions; checked down to the given number of levels. -/
def checkShapeBelow (a : Arena α) (entry : Span) : Nat → ExprId → Check
  | 0, _ => .ok ()
  | n + 1, e =>
    match a.node e with
    | .compare _ x y => checkSides a entry x y
    | .join .or items => items.forM (checkDisjunct a entry)
    | .join .and items => items.forM (checkShapeBelow a entry n)
    | _ => .error (.notComparison entry)

def checkShape (a : Arena α) (entry : Span) (e : ExprId) : Check :=
  checkShapeBelow a entry (e + 1) e

def checkConstraint (p : Position) (c : Constraint) : Check := do
  d.checkSymbols p c.expr c.span
  checkShape d.arena c.span c.expr

def checkFormula (p : Position) (e : ExprId) (entry : Span) : Check := do
  d.checkSymbols p e entry
  checkArithmetic d.arena entry e

def checkExpressions : Check := do
  (d.initials ++ d.instantaneous ++ d.temporal).forM (d.checkConstraint .constraint)
  d.goals.forM (d.checkConstraint .goal)
  d.equations.forM fun q => d.checkFormula .dynamics q.rhs q.span
  d.checkFormula .constraint d.reward.expr d.reward.span

end Domain

end HybridPlan
