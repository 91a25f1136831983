import HybridPlan.CommandLine
import HybridPlan.Config
import HybridPlan.Cut
import HybridPlan.Decimal.Fixed
import HybridPlan.Decimal.Numeral
import HybridPlan.Decimal.Shortest
import HybridPlan.Domain.Basic
import HybridPlan.Domain.Bundled
import HybridPlan.Domain.Declaration
import HybridPlan.Domain.Printer
import HybridPlan.Domain.Reader
import HybridPlan.Domain.Sections
import HybridPlan.Domain.Validity
import HybridPlan.Dynamics.ExpPolynomial
import HybridPlan.Dynamics.Linear
import HybridPlan.Dynamics.Series
import HybridPlan.Dynamics.Transitions
import HybridPlan.Encoding
import HybridPlan.Expr.Arena
import HybridPlan.Expr.Basic
import HybridPlan.Expr.Derivative
import HybridPlan.Expr.Eval
import HybridPlan.Expr.Parser
import HybridPlan.Expr.Printer
import HybridPlan.Expr.Substitution
import HybridPlan.Expr.Subterms
import HybridPlan.Expr.Token
import HybridPlan.Interner
import HybridPlan.Knob
import HybridPlan.Loading
import HybridPlan.Log
import HybridPlan.Main
import HybridPlan.Plan.Basic
import HybridPlan.Plan.Printer
import HybridPlan.Problem
import HybridPlan.Program.Basic
import HybridPlan.Program.Cip
import HybridPlan.Program.Solution
import HybridPlan.Program.Term
import HybridPlan.Refinement
import HybridPlan.Report
import HybridPlan.Scalar
import HybridPlan.Scalar.Binary64
import HybridPlan.Session
import HybridPlan.Simulation
import HybridPlan.Solver.Exchange
import HybridPlan.Source.Message
import HybridPlan.Source.Span
import HybridPlan.Text.Blank
import HybridPlan.Text.Csv
import HybridPlan.Text.Lines
import HybridPlan.Text.Path
import HybridPlan.Time
import HybridPlan.Proofs.Expr.Growth
import HybridPlan.Proofs.Expr.Vocabulary
import HybridPlan.Proofs.Expr.Constructors
import HybridPlan.Proofs.Refinement.Store
import HybridPlan.Proofs.Refinement.Run
import HybridPlan.Proofs.Expr.Substitution
import HybridPlan.Proofs.Expr.Derivative
import HybridPlan.Proofs.Dynamics.ClosedForm
import HybridPlan.Proofs.Expr.Parser
import HybridPlan.Proofs.Expr.Grammar
import HybridPlan.Proofs.Expr.Reading
import HybridPlan.Proofs.Expr.Reduced
import HybridPlan.Proofs.Expr.Relocation
import HybridPlan.Proofs.Expr.Tree
import HybridPlan.Proofs.Expr.Scanning
import HybridPlan.Proofs.Numbers.Numeral
import HybridPlan.Proofs.Expr.Spelling
import HybridPlan.Proofs.Text.Bytes
import HybridPlan.Proofs.Text.Lines
import HybridPlan.Proofs.Text.Words
import HybridPlan.Proofs.Numbers.Legible
import HybridPlan.Proofs.Expr.Writing
import HybridPlan.Proofs.Numbers.Rounding
import HybridPlan.Proofs.Numbers.Packing
import HybridPlan.Proofs.Numbers.Positional
import HybridPlan.Proofs.Numbers.Shortest
import HybridPlan.Proofs.Numbers.Conversion
import HybridPlan.Proofs.Numbers.Binary64
import HybridPlan.Proofs.Expr.RoundTrip
import HybridPlan.Proofs.Domain.Sections
import HybridPlan.Proofs.Domain.Declaration
import HybridPlan.Proofs.Domain.Names
import HybridPlan.Proofs.Domain.Reader
import HybridPlan.Proofs.Problem
import HybridPlan.Proofs.Program.Growth
import HybridPlan.Proofs.Encoding.Step
import HybridPlan.Proofs.Encoding.Declaration
import HybridPlan.Proofs.Encoding.Stability
import HybridPlan.Proofs.Refinement.Extension
import HybridPlan.Proofs.Numbers.Exact
import HybridPlan.Proofs.Expr.Denotation
import HybridPlan.Proofs.Expr.Replacement
import HybridPlan.Proofs.Expr.Walk
import HybridPlan.Proofs.Expr.Subterms
import HybridPlan.Proofs.Expr.Evaluation
import HybridPlan.Proofs.Program.Value
import HybridPlan.Proofs.Encoding.Meaning
import HybridPlan.Proofs.Encoding.Soundness
import HybridPlan.Proofs.Resolution
import HybridPlan.Proofs.Encoding.Candidate
import HybridPlan.Proofs.Encoding.Extraction
import HybridPlan.Proofs.Encoding.Completeness
import HybridPlan.Proofs.Encoding.Plans
import HybridPlan.Proofs.Encoding.Fitting
import HybridPlan.Proofs.Anchor
import HybridPlan.Proofs.Dynamics.Series
import HybridPlan.Proofs.Encoding.Exclusion
import HybridPlan.Proofs.Reach
import HybridPlan.Proofs.Expr.Independence
import HybridPlan.Proofs.Expr.Variation
import HybridPlan.Proofs.Expr.Differential
import HybridPlan.Proofs.Expr.Definedness
import HybridPlan.Proofs.Dynamics.Decomposition
import HybridPlan.Proofs.Dynamics.Integration
import HybridPlan.Proofs.Dynamics.Linear
import HybridPlan.Proofs.Domain.Validity
import HybridPlan.Proofs.Domain.Relocation
import HybridPlan.Proofs.Domain.RoundTrip
import HybridPlan.Proofs.Encoding.Validation
import HybridPlan.Proofs.Dynamics.Definedness
import HybridPlan.Proofs.Encoding.Freshness
import HybridPlan.Proofs.Encoding.Naming
import HybridPlan.Proofs.Encoding.Labels
import HybridPlan.Proofs.Encoding.Requests
import HybridPlan.Proofs.Refinement.Termination
import HybridPlan.Proofs.Refinement.NoPlan
import HybridPlan.Proofs.Domain.WellFormed
import HybridPlan.Proofs.Numbers.Value
import HybridPlan.Proofs.Program.Construction
import HybridPlan.Proofs.Program.Reader
import HybridPlan.Proofs.Program.Reading
import HybridPlan.Proofs.Program.Meaning
import HybridPlan.Proofs.Expr.Interning
import HybridPlan.Proofs.Expr.Carrying
import HybridPlan.Proofs.Expr.Deriving
import HybridPlan.Proofs.Expr.Enumeration
import HybridPlan.Proofs.Expr.Arithmetical
import HybridPlan.Proofs.Dynamics.Recursion
import HybridPlan.Proofs.Expr.Sharing
import HybridPlan.Proofs.Expr.Rebinding
import HybridPlan.Proofs.Expr.Dual
import HybridPlan.Proofs.Expr.Rate
import HybridPlan.Proofs.Expr.ForwardMode
import HybridPlan.Proofs.Encoding.Bounds
import HybridPlan.Proofs.Encoding.Generated
import HybridPlan.Proofs.Refinement.Repetition
import HybridPlan.Proofs.Simulation.Findings
import HybridPlan.Proofs.Simulation.Grid
import HybridPlan.Proofs.Simulation.Bisection
import HybridPlan.Proofs.Expr.Sign
import HybridPlan.Proofs.Cut.Calls
import HybridPlan.Proofs.Cut.Duplicates
import HybridPlan.Proofs.Simulation.FinerStep
import HybridPlan.Proofs.Numbers.Monotone
import HybridPlan.Proofs.Simulation.Counting
import HybridPlan.Proofs.Source.Range
import HybridPlan.Proofs.Domain.Layout
import HybridPlan.Proofs.Domain.Refusal
import HybridPlan.Proofs.Domain.EquationPlaces
import HybridPlan.Proofs.Expr.Preservation
import HybridPlan.Proofs.Expr.Faults
import HybridPlan.Proofs.Expr.Tiling
import HybridPlan.Proofs.Expr.Origins
import HybridPlan.Proofs.Encoding.Switching
import HybridPlan.Proofs.Program.Sums
import HybridPlan.Proofs.Numbers.Order
import HybridPlan.Proofs.Program.Violation
import HybridPlan.Proofs.Program.Calls
import HybridPlan.Proofs.Program.Solution
import HybridPlan.Proofs.Domain.Symbols
import HybridPlan.Proofs.Report
import HybridPlan.Proofs.Program.Settling
import HybridPlan.Proofs.Encoding.Memoization
