import HybridPlan.Proofs.Expr.Outcome
import HybridPlan.Proofs.Expr.Residual
import HybridPlan.Proofs.Resolution
import HybridPlan.Proofs.Simulation

set_option autoImplicit false

/-! # Texts that are accepted

What reading a text leads to, and when its parts pass the checks. The texts of one family are followed
through: in their domains there is nothing to do but to wait, and how long is compared with three. -/

namespace HybridPlan

open Exact (real)
open Build

/-! ## Entries -/

section

variable {α : Type} [Scalar α] {a : Arena α}

/-- A symbol alone is parsed as itself. -/
theorem parseTokens_symbol (input : ParserInput) (name : String) (i j : Nat) :
    (parseTokens (Parser.whole input) [⟨.ident name, i, j⟩]).run.run a =
      ((sym ⟨name, some ⟨input.source, i, j⟩⟩ : Build α ExprId) >>= fun e => pure (.ok e)).run a :=
  rfl

/-- A symbol and a number with a comparison between them. -/
theorem parseTokens_comparison (input : ParserInput) (name : String) (op : Comparison)
    (m : Decimal.Magnitude) (i j k l i' j' : Nat) :
    (parseTokens (Parser.whole input)
        [⟨.ident name, i, j⟩, ⟨.compare op, k, l⟩, ⟨.num m, i', j'⟩]).run.run a =
      ((do
        let x ← sym ⟨name, some ⟨input.source, i, j⟩⟩
        let y ← num (Scalar.ofNumeral ⟨false, m⟩)
        compare op x y : Build α ExprId) >>= fun e => pure (.ok e)).run a :=
  rfl

theorem leads_num (ha : a.WellFormed) (u : α) :
    Leads (num u) a fun b e => b.table.items[e]? = some (.num (Scalar.unsignedZero u)) :=
  .intern ha (by simp [Node.operands]) fun _ _ _ he => he

theorem leads_sym (ha : a.WellFormed) (name : Name) :
    Leads (sym name) a fun b e => b.table.items[e]? = some (.sym name.text) :=
  .intern ha (by simp [Node.operands]) fun _ _ _ he => he

end

namespace Domain

variable {α : Type} [Scalar α] {a : Arena α} {sections : List FileSection} {kind : SectionKind}

/-- An entry is read as what its tokens are parsed as. -/
theorem leads_readEntry {entry : Span} {tokens : List Lexeme} {P : Arena α → ExprId → Prop}
    (hscan : Lexeme.scan entry.start
      (Text.slice entry.source.text.toList entry.start entry.stop) = .ok tokens)
    (hparse : (parseTokens (Parser.whole ⟨entry.source, entry.start, entry.stop⟩) tokens).Leads a P) :
    (readEntry entry).Leads a fun b c => P b c.expr := by
  obtain ⟨e, b, hrun, hb, hab, he⟩ := hparse
  have hrange : (parseRange entry.source entry.start entry.stop :
      Attempt α ParseError ExprId).run.run a = (.ok e, b) :=
    Attempt.run_bind_eq_ok.2 ⟨tokens, a, Attempt.run_except_eq_ok.2 ⟨hscan, rfl⟩, hrun⟩
  exact .bind (.adapt ⟨e, b, hrange, hb, hab, he⟩) fun e' c hc _ he' => .pure hc he'

/-- An entry that equates two symbols. -/
theorem leads_readEntry_equation (ha : a.WellFormed) (entry : Span) {s t : String}
    {i j k l i' j' : Nat} (hscan : Lexeme.scan entry.start
      (Text.slice entry.source.text.toList entry.start entry.stop) =
        .ok [⟨.ident s, i, j⟩, ⟨.compare .eq, k, l⟩, ⟨.ident t, i', j'⟩]) :
    (readEntry entry).Leads a fun b c => ∃ x y, b.table.items[c.expr]? = some (.compare .eq x y) ∧
      b.table.items[x]? = some (.sym s) ∧ b.table.items[y]? = some (.sym t) := by
  have hbuild : Leads (do
      let x ← sym ⟨s, some ⟨entry.source, i, j⟩⟩
      let y ← sym ⟨t, some ⟨entry.source, i', j'⟩⟩
      compare .eq x y : Build α ExprId) a fun b e => ∃ x y, b.table.items[e]? = some (.compare .eq x y) ∧
        b.table.items[x]? = some (.sym s) ∧ b.table.items[y]? = some (.sym t) := by
    refine .bind (leads_sym ha _) fun x b hb hab hx => ?_
    refine .bind (leads_sym hb _) fun y c hc hbc hy => ?_
    have hx := hbc hx
    refine .intern hc ?_ fun d e hcd he => ⟨x, y, he, hcd hx, hcd hy⟩
    simpa [Node.operands] using ⟨Arena.lt_size_of_getElem? hx, Arena.lt_size_of_getElem? hy⟩
  exact leads_readEntry hscan (.of_build rfl hbuild)

/-- A section that is missing has no entries. -/
theorem leads_readEntries_none (ha : a.WellFormed) (h : section? sections kind = none) :
    (readEntries sections kind).Leads a fun b cs => b = a ∧ cs = [] := by
  unfold readEntries entries
  rw [h]
  exact .of_run_eq ha rfl

theorem leads_readEntries_one {s : FileSection} {entry : Span} {P : Arena α → Constraint → Prop}
    (h : section? sections kind = some s) (hentries : s.entries = [entry])
    (hentry : (readEntry entry).Leads a P) :
    (readEntries sections kind).Leads a fun b cs => ∃ c, P b c ∧ cs = [c] := by
  unfold readEntries entries
  rw [h, Option.map_some, Option.getD_some, hentries, List.mapM_cons, List.mapM_nil]
  exact .bind hentry fun c b hb _ hc => .pure hb ⟨c, hc, rfl⟩

end Domain

/-! ## Checks -/

section

variable {α : Type} [Scalar α] {a : Arena α} {e : ExprId} {entry : Span}

/-- An expression has no symbols but those of its vocabulary. -/
theorem Arena.Uses.symbol_of_mem {V : Vocabulary α} (he : a.Uses V e) {s : String}
    (hs : s ∈ a.symbols e) : V.symbol s := by
  rw [Arena.symbols, List.mem_mergeSort, List.mem_filterMap] at hs
  obtain ⟨x, hx, hsym⟩ := hs
  have hholds := (he.subterm hx).holds
  unfold Arena.sym? at hsym
  split at hsym
  · next t ht =>
    cases hsym
    rwa [ht] at hholds
  · cases hsym

namespace Domain

theorem checkSymbols_eq_ok {d : Domain α} {V : Vocabulary α} {position : Position}
    (he : d.arena.Uses V e) (hV : ∀ s, V.symbol s → d.checkSymbol position entry s = .ok ()) :
    d.checkSymbols position e entry = .ok () :=
  Except.forM_eq_ok.2 fun s hs => hV s (he.symbol_of_mem hs)

theorem checkArithmetic_eq_ok (he : a.MadeOf (fun n => isBoolean n = false) e) :
    checkArithmetic a entry e = .ok () := by
  unfold checkArithmetic
  rw [if_neg]
  rw [List.any_eq_true]
  rintro ⟨x, hx, hboolean⟩
  rw [(he.subterm hx).holds] at hboolean
  cases hboolean

/-- A comparison of arithmetic expressions has the shape of a constraint. -/
theorem checkShape_compare {op : Comparison} {x y : ExprId} (he : a.node e = .compare op x y)
    (hx : a.MadeOf (fun n => isBoolean n = false) x)
    (hy : a.MadeOf (fun n => isBoolean n = false) y) : checkShape a entry e = .ok () := by
  unfold checkShape checkShapeBelow
  rw [he]
  exact Except.bind_eq_ok.2 ⟨(), checkArithmetic_eq_ok hx, checkArithmetic_eq_ok hy⟩

end Domain

end

/-! ## Waiting -/

/-- The expression compares the duration with three. -/
def Arena.ComparesDuration (a : Arena Exact) (op : Comparison) (e : ExprId) : Prop :=
  ∃ x y, a.table.items[e]? = some (.compare op x y) ∧ a.table.items[x]? = some (.sym "Dt") ∧
    a.table.items[y]? = some (.num (real 3))

namespace Arena.ComparesDuration

variable {a b : Arena Exact} {op : Comparison} {e : ExprId}

theorem mono (hab : a ≤ b) (h : a.ComparesDuration op e) : b.ComparesDuration op e := by
  obtain ⟨x, y, he, hx, hy⟩ := h
  exact ⟨x, y, hab he, hab hx, hab hy⟩

theorem uses (h : a.ComparesDuration op e) : a.Uses (.formulas Exact (· = "Dt")) e := by
  obtain ⟨x, y, he, hx, hy⟩ := h
  refine .node he trivial ?_
  simp only [Node.operands, List.forall_mem_cons]
  exact ⟨.node hx rfl (by simp [Node.operands]), .node hy trivial (by simp [Node.operands]),
    by simp⟩

/-- A judgement is that of the duration and three. -/
theorem judges {Ω : Type} {ops : ArithOp → Exact → Exact → Exact} (J : Judgement Ω)
    {v : Valuation Exact} {t : ℝ} (h : a.ComparesDuration op e) (ht : v "Dt" = some (real t)) :
    a.Judges ops J v e (J.compare op t 3) := by
  obtain ⟨x, y, he, hx, hy⟩ := h
  exact .compare (node_eq_of_getElem? he) (.sym (node_eq_of_getElem? hx) ht)
    (.num (node_eq_of_getElem? hy))

end Arena.ComparesDuration

namespace Waiting

variable (op : Comparison)

/-- How long to wait is decided, limited by a comparison with three, and earned. -/
def source : Source where
  text := "pvariables:\naction_continuous: Dt\n---\ntemporal_constraints:\nDt " ++ op.symbol ++
    " 3\n---\nreward:\nDt"

theorem toList_source : (source op).text.toList =
    "pvariables:\naction_continuous: Dt\n---\ntemporal_constraints:\nDt ".toList ++
      op.symbol.toList ++ " 3\n---\nreward:\nDt".toList := by
  unfold source
  rw [String.toList_append, String.toList_append]

/-- The entry that limits the time. -/
def limit : Span := ⟨source op, 60, 65 + op.symbol.toList.length⟩

/-- The entry for what is earned. -/
def earning : Span := ⟨source op, 78 + op.symbol.toList.length, 80 + op.symbol.toList.length⟩

def sections : List FileSection :=
  [⟨.declarations, ⟨source op, 0, 11⟩, [⟨source op, 12, 33⟩]⟩,
   ⟨.temporal, ⟨source op, 38, 59⟩, [limit op]⟩,
   ⟨.reward, ⟨source op, 70 + op.symbol.toList.length, 77 + op.symbol.toList.length⟩, [earning op]⟩]

def duration : Variable := ⟨⟨"Dt", some ⟨source op, 31, 33⟩⟩, .continuous, .action, false⟩

theorem split_source : FileSection.split (source op) = .ok (sections op) := by
  unfold FileSection.split
  rw [toList_source]
  cases op <;> rfl

theorem readVariable_duration :
    Declaration.readVariable ⟨source op, 12, 33⟩ = .ok (duration op) := by
  have htext : (Span.text ⟨source op, 12, 33⟩).toList = "action_continuous: Dt".toList := by
    rw [Span.text, String.toList_ofList, toList_source]
    cases op <;> rfl
  unfold Declaration.readVariable
  rw [htext]
  rfl

theorem scan_limit : Lexeme.scan (limit op).start
    (Text.slice (limit op).source.text.toList (limit op).start (limit op).stop) =
      .ok [⟨.ident "Dt", 60, 62⟩, ⟨.compare op, 63, 63 + op.symbol.toList.length⟩,
        ⟨.num (.decimal 3 0), 64 + op.symbol.toList.length, 65 + op.symbol.toList.length⟩] := by
  have hslice : Text.slice (limit op).source.text.toList (limit op).start (limit op).stop =
      ['D', 't', ' '] ++ op.symbol.toList ++ [' ', '3'] := by
    rw [limit, toList_source]
    cases op <;> rfl
  rw [hslice]
  cases op <;> simp [Lexeme.scan, Comparison.symbol, Token.isSpace, Token.first, Token.isNumberChar,
    Token.isWordStart, Token.isWordChar, Token.ofWord, Token.numberLength, Token.exponentLength,
    Decimal.readDecimal?, limit] <;> decide

theorem scan_earning : Lexeme.scan (earning op).start
    (Text.slice (earning op).source.text.toList (earning op).start (earning op).stop) =
      .ok [⟨.ident "Dt", (earning op).start, (earning op).start + 2⟩] := by
  have hslice : Text.slice (earning op).source.text.toList (earning op).start (earning op).stop =
      ['D', 't'] := by
    rw [earning, toList_source]
    cases op <;> rfl
  rw [hslice]
  simp [Lexeme.scan, Token.isSpace, Token.first, Token.isNumberChar, Token.isWordStart,
    Token.isWordChar, Token.ofWord]
  rfl

variable {a : Arena Exact} (ha : a.WellFormed)
include ha

theorem leads_limit :
    (Domain.readEntry (limit op)).Leads a fun b c => b.ComparesDuration op c.expr := by
  have hbuild : Leads (do
      let x ← sym ⟨"Dt", some ⟨source op, 60, 62⟩⟩
      let y ← num (Scalar.ofNumeral ⟨false, .decimal 3 0⟩)
      compare op x y : Build Exact ExprId) a fun b e => b.ComparesDuration op e := by
    refine .bind (leads_sym ha _) fun x b hb hab hx => ?_
    refine .bind (leads_num hb _) fun y c hc hbc hy => ?_
    have hx := hbc hx
    refine .intern hc ?_ fun d e hcd he => ⟨x, y, he, hcd hx, ?_⟩
    · simpa [Node.operands] using ⟨Arena.lt_size_of_getElem? hx, Arena.lt_size_of_getElem? hy⟩
    · rw [hcd hy, Exact.unsignedZero_eq]
      change some (Node.num (real ((3 : ℕ) * 10 ^ (0 : ℤ)))) = _
      norm_num
  exact Domain.leads_readEntry (scan_limit op)
    (.of_build (parseTokens_comparison _ _ _ _ _ _ _ _ _ _) hbuild)

theorem leads_earning :
    (Domain.readEntry (earning op)).Leads a fun b c =>
      b.table.items[c.expr]? = some (.sym "Dt") := by
  exact Domain.leads_readEntry (P := fun b e => b.table.items[e]? = some (.sym "Dt"))
    (scan_earning op) (.of_build (parseTokens_symbol _ _ _ _) (leads_sym ha _))

omit ha

/-! ### The domain -/

/-- The domain with the given limit and reward. -/
def domain (settings : ReadSettings Exact) (a : Arena Exact) (c r : Constraint) : Domain Exact where
  arena := a
  constants := Domain.withDefaults settings []
  vars := [duration op]
  dt := settings.dt
  mode := settings.mode
  equations := []
  initials := []
  instantaneous := []
  temporal := [c]
  goals := []
  reward := r

theorem leads_readParts (settings : ReadSettings Exact) :
    (Domain.readParts settings (sections op)).Leads {} fun b d => ∃ c r,
      d = (domain op settings b c r, []) ∧ b.ComparesDuration op c.expr ∧
        b.table.items[r.expr]? = some (.sym "Dt") := by
  have h₀ : Arena.WellFormed ({} : Arena Exact) := Arena.wellFormed_empty
  have hdeclared : Domain.section? (sections op) .declarations = some
      ⟨.declarations, ⟨source op, 0, 11⟩, [⟨source op, 12, 33⟩]⟩ := rfl
  have hvars : Attempt.Leads (List.mapM (m := Domain.Reading Exact) (fun line =>
      ((Declaration.readVariable line).mapError .declaration : Except DomainError Variable))
        [⟨source op, 12, 33⟩]) {} fun b vs => b = {} ∧ vs = [duration op] := by
    rw [List.mapM_cons, List.mapM_nil, readVariable_duration]
    exact .of_run_eq h₀ rfl
  have hother : Domain.section? (sections op) settings.mode.otherEquations = none := by
    cases settings.mode <;> rfl
  have hequations : Domain.section? (sections op) settings.mode.equations = none := by
    cases settings.mode <;> rfl
  unfold Domain.readParts
  refine .bind (.of_run_eq h₀ (i := []) rfl) ?_
  rintro _ _ - - ⟨rfl, rfl⟩
  rw [hdeclared]
  refine .bind hvars ?_
  rintro _ _ - - ⟨rfl, rfl⟩
  dsimp only
  rw [hother]
  refine .bind (Domain.leads_readEntries_none h₀ hequations) ?_
  rintro _ _ - - ⟨rfl, rfl⟩
  refine .bind (Domain.leads_readEntries_none h₀ rfl) ?_
  rintro _ _ - - ⟨rfl, rfl⟩
  refine .bind (Domain.leads_readEntries_none h₀ rfl) ?_
  rintro _ _ - - ⟨rfl, rfl⟩
  refine .bind (Domain.leads_readEntries_one rfl rfl (leads_limit op h₀)) ?_
  rintro _ a ha - ⟨c, hc, rfl⟩
  refine .bind (Domain.leads_readEntries_none ha rfl) ?_
  rintro _ _ - - ⟨rfl, rfl⟩
  refine .bind (Domain.leads_readEntries_one rfl rfl (leads_earning op ha)) ?_
  rintro _ b hb hab ⟨r, hr, rfl⟩
  exact ⟨_, b, rfl, hb, le_refl b, c, r, rfl, hc.mono hab, hr⟩

variable {settings : ReadSettings Exact} {c r : Constraint}

theorem validate_domain (hdt : settings.dt = "Dt") (hc : a.ComparesDuration op c.expr)
    (hr : a.table.items[r.expr]? = some (.sym "Dt")) :
    (domain op settings a c r).validate [] = .ok (domain op settings a c r) := by
  have hdeclarations : (domain op settings a c r).checkDeclarations = .ok () := by
    refine Except.bind_eq_ok.2 ⟨(), ?_, ?_⟩
    · change Domain.checkNames [] [⟨bigMName, none⟩, ⟨epsilonName, none⟩, (duration op).name] = _
      have hbigM : Domain.isReserved "bigM" = false := by decide
      have hepsilon : Domain.isReserved "Epsilon" = false := by decide
      have hduration : Domain.isReserved "Dt" = false := by decide
      simp [Domain.checkNames, duration, bigMName, epsilonName, hbigM, hepsilon, hduration]
    · simp [domain, duration, Domain.checkDuration, Domain.declared?, hdt]
  have hsymbol (position : Domain.Position) (entry : Span) (s : String) (hs : s = "Dt") :
      (domain op settings a c r).checkSymbol position entry s = .ok () := by
    subst hs
    rfl
  have hleaf {e : ExprId} {n : Node Exact} (hn : a.table.items[e]? = some n)
      (hleaf : n.operands = []) (hboolean : Domain.isBoolean n = false) :
      a.MadeOf (fun n => Domain.isBoolean n = false) e :=
    .node hn hboolean (by simp [hleaf])
  have hexpressions : (domain op settings a c r).checkExpressions = .ok () := by
    refine Except.bind_eq_ok.2 ⟨(), Except.forM_eq_ok.2 fun k hk => ?_, ?_⟩
    · obtain rfl : k = c := List.mem_singleton.1 hk
      refine Except.bind_eq_ok.2 ⟨(), Domain.checkSymbols_eq_ok hc.uses (hsymbol _ _), ?_⟩
      obtain ⟨x, y, he, hx, hy⟩ := hc
      exact Domain.checkShape_compare (Arena.node_eq_of_getElem? he) (hleaf hx rfl rfl)
        (hleaf hy rfl rfl)
    · refine Except.bind_eq_ok.2 ⟨(), rfl, Except.bind_eq_ok.2 ⟨(), rfl, ?_⟩⟩
      have huses : a.Uses (.formulas Exact (· = "Dt")) r.expr :=
        .node hr rfl (by simp [Node.operands])
      exact Except.bind_eq_ok.2 ⟨(), Domain.checkSymbols_eq_ok huses (hsymbol _ _),
        Domain.checkArithmetic_eq_ok (hleaf hr rfl rfl)⟩
  refine Except.bind_eq_ok.2 ⟨(), hdeclarations, ?_⟩
  refine Except.bind_eq_ok.2 ⟨[], rfl, Except.bind_eq_ok.2 ⟨(), rfl, ?_⟩⟩
  exact Except.bind_eq_ok.2 ⟨(), hexpressions, rfl⟩

theorem read_source (settings : ReadSettings Exact) (hdt : settings.dt = "Dt") :
    ∃ a c r, Domain.read (source op) settings = .ok (domain op settings a c r) ∧ a.WellFormed ∧
      a.ComparesDuration op c.expr ∧ a.table.items[r.expr]? = some (.sym "Dt") := by
  obtain ⟨_, a, hrun, ha, -, c, r, rfl, hc, hr⟩ := leads_readParts op settings
  refine ⟨a, c, r, ?_, ha, hc, hr⟩
  refine Except.bind_eq_ok.2 ⟨_, Except.mapError_eq_ok.2 (split_source op), ?_⟩
  refine Except.bind_eq_ok.2 ⟨(domain op settings a c r, []), ?_, validate_domain op hdt hc hr⟩
  rw [hrun]

end Waiting

/-! ### The problem -/

/-- What there is to know of a problem of waiting. -/
structure Problem.Waits (op : Comparison) (p : Problem Exact) : Prop where
  vars : ∃ place, p.domain.vars = [⟨⟨"Dt", place⟩, .continuous, .action, false⟩]
  dt : p.domain.dt = "Dt"
  initials : p.domain.initials = []
  instantaneous : p.domain.instantaneous = []
  goals : p.domain.goals = []
  transitions : p.transitions = []
  temporal : ∃ c, p.domain.temporal = [c] ∧ p.arena.ComparesDuration op c.expr
  reward : p.arena.table.items[p.domain.reward.expr]? = some (.sym "Dt")

namespace Waiting

/-- There are no states, so that nothing has to be replaced in the constraint. -/
theorem derive_domain {op : Comparison} {settings : ReadSettings Exact} {a : Arena Exact}
    {c r : Constraint} : (Problem.derive (domain op settings a c r)).run.run a =
      (.ok ([], [((substitute (fun _ => none) c.expr).run a).1]),
        ((substitute (fun _ => none) c.expr).run a).2) := by
  have hresolve : (Transitions.resolve (domain op settings a c r)).run.run a = (.ok [], a) := by
    unfold Transitions.resolve domain
    cases settings.mode <;> rfl
  exact Attempt.run_bind_eq_ok.2 ⟨[], a, hresolve, rfl⟩

/-- Waiting is a problem that can be read, with any configuration that calls the duration `Dt`. -/
theorem exists_problem (config : Config Exact) (hdt : config.dt = "Dt") (op : Comparison) :
    ∃ P : ReadProblem Exact, P.source = source op ∧ P.settings = config.readSettings ∧
      P.config = config ∧ P.problem.Waits op ∧ P.problem.feastol = config.feastol ∧
      P.problem.bigM = config.bigM ∧ P.problem.epsilon = config.epsilon := by
  obtain ⟨a, c, r, hread, ha, hc, hr⟩ := read_source op config.readSettings hdt
  obtain ⟨-, hle, -⟩ := yields_substitute (C := {x | a.Uses (.all Exact) x}) (σ := fun _ => none)
    Vocabulary.closed_all (fun s e hs => by cases hs) hc.uses.all a ha fun x hx => hx
  obtain ⟨p, hp, hdomain, htransitions, hconstants⟩ : ∃ p,
      Problem.ofDomain (domain op config.readSettings a c r) config = .ok p ∧
        p.domain = domain op config.readSettings ((substitute (fun _ => none) c.expr).run a).2 c r ∧
        p.transitions = [] ∧ p.feastol = config.feastol ∧ p.bigM = config.bigM ∧
        p.epsilon = config.epsilon := by
    unfold Problem.ofDomain
    rw [show (domain op config.readSettings a c r).arena = a from rfl, derive_domain]
    exact ⟨_, rfl, rfl, rfl, rfl, rfl, rfl⟩
  refine ⟨⟨_, _, _, _, _, hread, hp⟩, rfl, rfl, rfl, ?_, hconstants⟩
  have harena : p.arena = ((substitute (fun _ => none) c.expr).run a).2 :=
    congrArg Domain.arena hdomain
  refine ⟨⟨_, congrArg Domain.vars hdomain⟩, (congrArg Domain.dt hdomain).trans hdt,
    congrArg Domain.initials hdomain, congrArg Domain.instantaneous hdomain,
    congrArg Domain.goals hdomain, htransitions,
    ⟨c, congrArg Domain.temporal hdomain, harena ▸ hc.mono hle⟩, ?_⟩
  rw [harena, show p.domain.reward = r from congrArg Domain.reward hdomain]
  exact hle hr

theorem exists_default (op : Comparison) : ∃ P : ReadProblem Exact, P.source = source op ∧
    P.config = .default ∧ P.problem.Waits op ∧ P.problem.feastol = real (1 * 10 ^ (-6 : ℤ)) ∧
      P.problem.bigM = real 1000 := by
  obtain ⟨P, hsource, -, hconfig, hwaits, hfeastol, hbigM, -⟩ := exists_problem .default rfl op
  refine ⟨P, hsource, hconfig, hwaits, hfeastol.trans ?_, hbigM.trans (Exact.nat_eq 1000)⟩
  change real ((1 : ℕ) * 10 ^ (-6 : ℤ)) = _
  rw [Nat.cast_one]

end Waiting

namespace Problem.Waits

variable {op : Comparison} {p : Problem Exact} (h : p.Waits op)
include h

theorem grows {q : Problem Exact} (hpq : p.Grows q) : q.Waits op := by
  obtain ⟨a, rfl, hle, -⟩ := hpq
  obtain ⟨c, hc, hcompares⟩ := h.temporal
  exact ⟨h.vars, h.dt, h.initials, h.instantaneous, h.goals, h.transitions, ⟨c, hc, hcompares.mono hle⟩,
    hle h.reward⟩

theorem exists_duration : ∃ v, p.domain.vars = [v] ∧ p.domain.declared? "Dt" = some v ∧
    v.name.text = "Dt" ∧ v.kind = .continuous ∧ v.role = .action ∧ v.isGlobal = false := by
  obtain ⟨place, hvars⟩ := h.vars
  refine ⟨_, hvars, ?_, rfl, rfl, rfl, rfl⟩
  rw [Domain.declared?, hvars]
  rfl

/-- The resolved constraint compares the time with three too. -/
theorem exists_temporal (hp : p.Resolved) : ∃ e, p.temporal = [e] ∧ ∀ {Ω : Type}
    {ops : ArithOp → Exact → Exact → Exact} (J : Judgement Ω), ArithOp.Lawful ops →
      ∀ (s : Stage Exact) (t : ℝ),
        p.arena.Judges ops J (s.valuation p (real t)) e (J.compare op t 3) := by
  obtain ⟨c, hc, hcompares⟩ := h.temporal
  have hresolved := hp.temporal
  rw [hc, List.forall₂_cons_left_iff] at hresolved
  obtain ⟨e, es, hresolves, hes, htemporal⟩ := hresolved
  rw [List.forall₂_nil_left_iff.1 hes] at htemporal
  refine ⟨e, htemporal, fun {Ω ops} J hops s t => ?_⟩
  have hreplaces : Replaces ops p.arena (s.valuation p (real t)) (s.valuation p (real t))
      (Problem.nextValues p.transitions) := by
    rw [h.transitions]
    exact ⟨fun _ _ hs => (by cases hs), fun _ _ _ hs => (by cases hs), fun _ _ _ hu => hu⟩
  refine (hresolves hops _ (le_refl _) _ _ hreplaces).judges J _ (hcompares.judges J ?_)
  rw [Stage.valuation, if_pos h.dt.symm]

/-- The residual of the constraint at a time. -/
theorem exists_residual (hp : p.Resolved) : ∃ e, p.temporal = [e] ∧
    ∀ (s : Stage Exact) (t : ℝ), s.residualAt p e (real t) = .ok (real (op.excess t 3)) := by
  obtain ⟨e, htemporal, hjudges⟩ := h.exists_temporal hp
  refine ⟨e, htemporal, fun s t => Stage.residualAt_eq_ok.2 ⟨_, rfl, ?_⟩⟩
  have he : e ∈ p.temporal := htemporal ▸ List.mem_singleton_self e
  exact (Arena.residual_eq_ok hp.made.domain.arena (hp.made.temporal e he)).2
    (hjudges .residual ArithOp.lawful_apply s t)

/-- What the constraint says about a time. -/
theorem exists_holds (hp : p.Resolved) : ∃ e, p.temporal = [e] ∧
    ∀ (s : Stage Exact) (t : ℝ), p.arena.Holds (s.valuation p (real t)) e ↔ op.Holds t 3 := by
  obtain ⟨e, htemporal, hjudges⟩ := h.exists_temporal hp
  refine ⟨e, htemporal, fun s t => ⟨?_, fun hholds => ?_⟩⟩
  · rintro ⟨truth, htruth, htrue⟩
    rwa [htruth.unique (hjudges _ ArithOp.lawful_strictly s t)] at htrue
  · exact ⟨_, hjudges _ ArithOp.lawful_strictly s t, hholds⟩

/-- A violation begins where the comparison first fails by too much, and lasts as long as it does. -/
theorem exists_violation (hp : p.Resolved) {plan : Plan Exact} {s : Stage Exact}
    (hs : s ∈ plan.stages) {d τ : ℝ} (hd : 0 < d) (hdt : s.dt = real d)
    {params : SimulationParams Exact} (hparams : params.tolerance = real τ)
    {before during after : List ℝ} {o : ℝ} (hsamples : sampleOffsets params.epsilon (real d) =
      (before ++ o :: (during ++ after)).map real)
    (hbefore : ∀ t ∈ before, op.excess t 3 ≤ τ) (ho : τ < op.excess o 3)
    (hduring : ∀ t ∈ during, τ < op.excess t 3) (hafter : ∀ t ∈ after.head?, op.excess t 3 ≤ τ) :
    ∃ v ∈ plan.violations p params, v.stage = s.index ∧ v.constraint = 0 ∧ v.duration = real d ∧
      v.offset = real o ∧ v.intervalEnd = real (during.getLast?.getD o) ∧
      v.residual = real (op.excess o 3) := by
  obtain ⟨e, htemporal, hresidual⟩ := h.exists_residual hp
  have hexceeds (t : ℝ) :
      Stage.exceeds params (real (op.excess t 3)) = true ↔ τ < op.excess t 3 := by
    rw [Stage.exceeds, hparams, Exact.lt_real]
  obtain ⟨residual, hreal⟩ : ∃ residual : Exact → Exact, ∀ t, residual (real t) = real (op.excess t 3) :=
    ⟨Function.extend real (fun t => real (op.excess t 3)) id,
      Function.Injective.extend_apply (fun _ _ h => Exact.real.inj h) _ _⟩
  have hsamples' : sampleOffsets params.epsilon s.dt =
      before.map real ++ real o :: (during.map real ++ after.map real) := by
    rw [hdt, hsamples]
    simp
  have hresiduals : ∀ u ∈ sampleOffsets params.epsilon s.dt,
      s.residualAt p e u = .ok (residual u) := by
    rw [hdt, hsamples]
    rintro _ hmem
    obtain ⟨t, -, rfl⟩ := List.mem_map.1 hmem
    rw [hreal]
    exact hresidual s t
  have hpositive : Scalar.lt Scalar.zero s.dt = true := by
    rw [hdt, Exact.zero_eq, Exact.lt_real]
    exact hd
  have hbefore' : ∀ u ∈ before.map real, Stage.exceeds params (residual u) = false := by
    simpa [hreal, ← Bool.not_eq_true, hexceeds] using hbefore
  have hduring' : ∀ u ∈ during.map real, Stage.exceeds params (residual u) = true := by
    simpa [hreal, hexceeds] using hduring
  have hafter' : ∀ u ∈ (after.map real).head?, Stage.exceeds params (residual u) = false := by
    rw [List.head?_map]
    simpa [hreal, ← Bool.not_eq_true, hexceeds] using hafter
  obtain ⟨v, hv, hstage, hconstraint, hduration, hoffset, hend, hvresidual⟩ :=
    Plan.exists_violation hs hpositive (htemporal ▸ rfl : p.temporal[0]? = some e) hsamples'
      hresiduals hbefore' (hreal o ▸ (hexceeds o).2 ho) hduring' hafter'
  refine ⟨v, hv, hstage, hconstraint, hduration.trans hdt, hoffset, hend.trans ?_,
    hvresidual.trans (hreal o)⟩
  rw [List.getLast?_map]
  cases during.getLast? <;> rfl

end Problem.Waits

namespace Waiting

/-- A simulation that looks at every other unit of time. -/
noncomputable def params : SimulationParams Exact := ⟨real (2 : ℕ), real 0, 32⟩

/-- The stage that waits for so long. -/
noncomputable def stage (d : ℝ) : Stage Exact where
  index := 0
  actions := []
  auxiliaries := []
  dt := real d
  start := []
  finish := []

/-- The plan to wait for four units of time. -/
noncomputable def plan : Plan Exact where
  horizon := 1
  stages := [stage 4]
  reward := real 4
  dt := "Dt"

theorem dt_stage (d : ℝ) : (stage d).dt = real d := rfl

theorem mem_plan {s : Stage Exact} : s ∈ plan.stages ↔ s = stage 4 := List.mem_singleton

theorem exists_dt : ∀ s ∈ plan.stages, ∃ d, s.dt = real d := fun _ hs =>
  ⟨4, mem_plan.1 hs ▸ dt_stage 4⟩

theorem sampleOffsets_params :
    sampleOffsets params.epsilon (real 4) = ([2, 4] : List ℝ).map real := by
  have hcount : sampleCount? (real 2) (real 4) = some 1 :=
    sampleCount?_eq_some (by norm_num) (by decide) (by norm_num) (by norm_num)
  have hpositive : Scalar.lt Scalar.zero (real 2) = true := by
    rw [Exact.zero_eq, Exact.lt_real]
    norm_num
  change (List.range' 1 (if Scalar.lt Scalar.zero (real 2) = true then
    (sampleCount? (real 2) (real 4)).getD 0 else 0)).map (sampleTime (real 2)) ++ [real 4] = _
  rw [if_pos hpositive, hcount]
  simp [sampleTime]

end Waiting

end HybridPlan
