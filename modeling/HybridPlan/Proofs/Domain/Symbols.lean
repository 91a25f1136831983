import HybridPlan.Proofs.Domain.WellFormed
import HybridPlan.Proofs.Text.Bytes

set_option autoImplicit false

/-! # Names as symbols

A name is declared in one place of a text and used in others. For this it has to be a symbol where it
is read as an expression, and the symbol has to be found again as what was declared. Three notions of a
name meet here: that of the declarations, that of the tokens, and that of the checks. The tokens know
two words that the checks do not reserve. -/

namespace HybridPlan

variable {α : Type} [Scalar α]

/-! ## Words -/

section

variable {name : String}

omit [Scalar α] in
/-- An identifier is a symbol if it is no connective. -/
theorem isName_of_isIdentifier (h : isIdentifier name.toList) (hword : ∀ c : Connective, name ≠ c.word) :
    Vocabulary.IsName name := by
  refine ⟨h, ?_⟩
  have hand : name ≠ "and" := hword .and
  have hor : name ≠ "or" := hword .or
  simp [Token.ofWord, hand, hor]

/-- An identifier stays one with the ending for the next value. -/
theorem isIdentifier_nextName (h : isIdentifier name.toList) : isIdentifier (nextName name).toList := by
  rw [nextName, String.toList_append]
  cases hname : name.toList with
  | nil =>
    rw [hname] at h
    cases h
  | cons c r =>
    rw [hname] at h
    obtain ⟨hc, hr⟩ := Bool.and_eq_true_iff.1 h
    rw [List.cons_append, isIdentifier, hc, List.all_append, hr]
    decide

/-- No connective ends like a next value. -/
theorem nextName_ne_word (c : Connective) : nextName name ≠ c.word := by
  intro h
  have hlast : (nextName name).toList.getLast? = c.word.toList.getLast? := by rw [h]
  rw [nextName, String.toList_append, List.getLast?_append_of_ne_nil _ (by decide)] at hlast
  cases c <;> exact absurd hlast (by decide)

end

namespace Build

variable {name : String} {a : Arena α}

/-- Alone, the text is read as the symbol with this name, whatever was read before it. -/
def IsSymbol (α : Type) [Scalar α] (name : String) : Prop :=
  ∀ a : Arena α, a.WellFormed → (parse name).Leads a fun b e => b.node e = .sym name

/-- An identifier is a token of its own. -/
theorem run_parse_identifier (h : isIdentifier name.toList) :
    (parse name : Attempt α ParseError ExprId).run.run a =
      (parseTokens (Parser.whole ⟨⟨name, none⟩, 0, name.utf8ByteSize⟩)
        [⟨Token.ofWord name, 0, name.utf8ByteSize⟩]).run.run a := by
  have hword : Lexeme.Scans 0 name.toList [] _ := .word h Token.delimits_nil
  have hscan := hword.scan_eq
  rw [Nat.zero_add, ← Text.utf8ByteSize_eq] at hscan
  unfold parse parseRange
  dsimp only
  rw [Text.slice_whole, hscan]
  rfl

theorem isSymbol_of_isName (h : Vocabulary.IsName name) : IsSymbol α name := by
  intro a ha
  have hrun := run_parse_identifier (a := a) h.1
  rw [h.2, parseTokens_symbol] at hrun
  refine .of_build hrun ((leads_sym ha _).imp fun b e he => ?_)
  exact Arena.node_eq_of_getElem? he

/-- Where a connective stands alone, an expression is expected instead. -/
theorem run_parse_connective (c : Connective) (a : Arena α) :
    (parse c.word).run.run a = (.error ⟨.expected .expression, 0, c.word.utf8ByteSize⟩, a) := by
  have hidentifier : isIdentifier c.word.toList := by cases c <;> decide
  rw [run_parse_identifier hidentifier]
  cases c <;> rfl

/-- Of the identifiers all are symbols but the connectives. -/
theorem isSymbol_iff (h : isIdentifier name.toList) :
    IsSymbol α name ↔ ∀ c : Connective, name ≠ c.word := by
  constructor
  · rintro hsymbol c rfl
    obtain ⟨e, b, hrun, -⟩ := hsymbol {} Arena.wellFormed_empty
    rw [run_parse_connective] at hrun
    cases hrun
  · intro hword
    exact isSymbol_of_isName (isName_of_isIdentifier h hword)

end Build

/-! ## Declarations -/

namespace Domain

open Build

variable {d : Domain α} {name : String} {r : Reference α}

/-- The name is declared as this. -/
def Declares (d : Domain α) (name : String) (r : Reference α) : Prop :=
  (∃ c ∈ d.constants, c.name.text = name ∧ r = .constant c.value) ∨
    ∃ v ∈ d.vars, v.name.text = name ∧ r = .var v

theorem Declares.mem_names (h : d.Declares name r) : name ∈ d.names := by
  rcases h with ⟨c, hc, rfl, -⟩ | ⟨v, hv, rfl, -⟩
  · exact List.mem_append_left _ (List.mem_map_of_mem hc)
  · exact List.mem_append_right _ (List.mem_map_of_mem hv)

/-- A declared name is found as what it was declared as. -/
theorem WellFormed.resolve?_of_declares (hd : d.WellFormed) (h : d.Declares name r) :
    d.resolve? name = some r := by
  obtain ⟨hconstants, hvars, hdisjoint⟩ := List.nodup_append.1 hd.nodup
  rcases h with ⟨c, hc, rfl, rfl⟩ | ⟨v, hv, rfl, rfl⟩
  · -- a variable of the same name would be found first
    have hdeclared : d.declared? c.name.text = none := by
      rw [declared?, List.find?_eq_none]
      intro v hv hname
      have hname : v.name.text = c.name.text := by simpa using hname
      exact hdisjoint _ (List.mem_map_of_mem hc) _ (List.mem_map_of_mem hv) hname.symm
    have hconstant : d.constant? c.name.text = some c.value := by
      have hfind := find?_key (f := fun k : Constant α => k.name.text) hc
        fun _ hk hname => List.inj_on_of_nodup_map hconstants hk hc hname
      rw [constant?, hfind]
      rfl
    rw [resolve?, hdeclared]
    dsimp only
    rw [hconstant]
  · have hfind := find?_key (f := fun w : Variable => w.name.text) hv
      fun _ hw hname => List.inj_on_of_nodup_map hvars hw hv hname
    exact resolve?_eq_var.2 hfind

theorem isIdentifier_of_read {source : Source} {settings : ReadSettings α}
    (h : read source settings = .ok d) (hname : name ∈ d.names) : isIdentifier name.toList := by
  obtain ⟨sections, d₀, entries, b, -, hparts, hvalid⟩ := read_eq_ok_iff.1 h
  obtain ⟨-, equations, -, -, -, rfl⟩ := validate_eq_ok_iff.1 hvalid
  obtain ⟨hconstants, hvars⟩ := isIdentifier_of_readParts hparts
  rcases List.mem_append.1 hname with hmem | hmem
  · obtain ⟨c, hc, rfl⟩ := List.mem_map.1 hmem
    exact hconstants c hc
  · obtain ⟨v, hv, rfl⟩ := List.mem_map.1 hmem
    exact hvars v hv

/-- Whatever text is read as a domain, each of its names is found as what it is declared as. All of them
are symbols but the words of the connectives, which the checks do not reserve: no name that is such
a word can be written in an expression. The name of the next value of a state is always a symbol. It
is declared as nothing else, and no other name stands for the next value of the state. -/
theorem names_of_read {source : Source} {settings : ReadSettings α} (h : read source settings = .ok d) :
    (∀ name r, d.Declares name r → d.resolve? name = some r ∧
      (IsSymbol α name ↔ ∀ c : Connective, name ≠ c.word)) ∧
    (∀ (c : Connective) (a : Arena α), (parse c.word).run.run a =
      (.error ⟨.expected .expression, 0, c.word.utf8ByteSize⟩, a)) ∧
    ∀ v ∈ d.vars, v.role = .state → IsSymbol α (nextName v.name.text) ∧
      (∀ name, d.resolve? name = some (.next v) ↔ name = nextName v.name.text) ∧
      ∀ r, ¬d.Declares (nextName v.name.text) r := by
  have hd := wellFormed_of_read h
  have hnamed := named_of_read h
  refine ⟨?_, run_parse_connective, ?_⟩
  · intro name r hr
    exact ⟨hd.resolve?_of_declares hr, isSymbol_iff (isIdentifier_of_read h hr.mem_names)⟩
  · intro v hv hrole
    have hname : v.name.text ∈ d.names := List.mem_append_right _ (List.mem_map_of_mem hv)
    have hidentifier := isIdentifier_nextName (isIdentifier_of_read h hname)
    refine ⟨(isSymbol_iff hidentifier).2 nextName_ne_word, ?_, ?_⟩
    · intro name
      constructor
      · intro hnext
        exact (resolve?_eq_next hnext).2.1
      · rintro rfl
        exact hnamed.resolve?_nextName hv hrole
    · -- such names are reserved
      intro r hr
      exact (hd.free _ hr.mem_names).next _ (hnamed.nonempty v hv) rfl

/-! ### A state that is named like a connective -/

namespace Unspeakable

/-- The state can be declared and has an equation, for which its own name is not needed. -/
def source : Source where
  text := "pvariables:\naction_continuous: Dt\nglobal_action_continuous: g\nstate_continuous: and\n" ++
    "---\ntransitions:\nand_dash == g\n---\nreward:\nDt"

def equation : Span := ⟨source, 101, 114⟩

def earning : Span := ⟨source, 127, 129⟩

def declarations : List Span := [⟨source, 12, 33⟩, ⟨source, 34, 61⟩, ⟨source, 62, 83⟩]

def sections : List FileSection :=
  [⟨.declarations, ⟨source, 0, 11⟩, declarations⟩,
   ⟨.transitions, ⟨source, 88, 100⟩, [equation]⟩,
   ⟨.reward, ⟨source, 119, 126⟩, [earning]⟩]

def duration : Variable := ⟨⟨"Dt", some ⟨source, 31, 33⟩⟩, .continuous, .action, false⟩

def speed : Variable := ⟨⟨"g", some ⟨source, 60, 61⟩⟩, .continuous, .action, true⟩

def state : Variable := ⟨⟨"and", some ⟨source, 80, 83⟩⟩, .continuous, .state, false⟩

def settings : ReadSettings Binary64 := ⟨Scalar.one, Scalar.one, Scalar.one, "Dt", .solutions⟩

set_option maxRecDepth 2000 in
theorem split_source : FileSection.split source = .ok sections := (rfl)

set_option maxRecDepth 2000 in
theorem readVariables : declarations.mapM Declaration.readVariable = .ok [duration, speed, state] := (rfl)

set_option maxRecDepth 2000 in
theorem scan_equation : Lexeme.scan equation.start
    (Text.slice equation.source.text.toList equation.start equation.stop) =
      .ok [⟨.ident "and_dash", 101, 109⟩, ⟨.compare .eq, 110, 112⟩, ⟨.ident "g", 113, 114⟩] := by
  have hslice : Text.slice equation.source.text.toList equation.start equation.stop =
      "and_dash == g".toList := rfl
  rw [hslice]
  simp [Lexeme.scan, Token.isSpace, Token.first, Token.isNumberChar, Token.isWordStart, Token.isWordChar,
    Token.ofWord]
  decide

set_option maxRecDepth 2000 in
theorem scan_earning : Lexeme.scan earning.start
    (Text.slice earning.source.text.toList earning.start earning.stop) = .ok [⟨.ident "Dt", 127, 129⟩] := by
  have hslice : Text.slice earning.source.text.toList earning.start earning.stop = "Dt".toList := rfl
  have hscan : Lexeme.Scans 127 "Dt".toList [] _ := .word rfl Token.delimits_nil
  rw [hslice]
  exact hscan.scan_eq

/-- The domain with the given equations and reward. -/
def domain (a : Arena Binary64) (qs : List Equation) (r : Constraint) : Domain Binary64 where
  arena := a
  constants := withDefaults settings []
  vars := [duration, speed, state]
  dt := "Dt"
  mode := .solutions
  equations := qs
  initials := []
  instantaneous := []
  temporal := []
  goals := []
  reward := r

theorem exists_readParts : ∃ a c r x y, (readParts settings sections).run.run {} = (.ok (domain a [] r, [c]), a) ∧
    a.table.items[c.expr]? = some (.compare .eq x y) ∧ a.table.items[x]? = some (.sym "and_dash") ∧
    a.table.items[y]? = some (.sym "g") ∧ a.table.items[r.expr]? = some (.sym "Dt") := by
  obtain ⟨c, a₁, hrun₁, ha₁, -, x, y, hc, hx, hy⟩ :=
    leads_readEntry_equation (α := Binary64) Arena.wellFormed_empty equation scan_equation
  obtain ⟨r, a, hrun, -, hle, hr⟩ := leads_readEntry (P := fun b e => b.table.items[e]? = some (.sym "Dt"))
    scan_earning (.of_build (parseTokens_symbol _ _ _ _) (leads_sym (α := Binary64) ha₁ _))
  have hmissing (kind : SectionKind) (h : entries sections kind = []) (a : Arena Binary64) :
      (readEntries sections kind).run.run a = (.ok [], a) := by
    rw [readEntries, h]
    rfl
  have hequations : (readEntries sections .transitions).run.run {} = (.ok [c], a₁) :=
    Attempt.run_mapM_cons_eq_ok.2 ⟨c, [], a₁, hrun₁, rfl, rfl⟩
  have hreward : (readEntries sections .reward).run.run a₁ = (.ok [r], a) :=
    Attempt.run_mapM_cons_eq_ok.2 ⟨r, [], a, hrun, rfl, rfl⟩
  -- all other kinds of sections are missing
  refine ⟨a, c, r, x, y, readParts_eq_ok_iff.2 ⟨[], ⟨.declarations, ⟨source, 0, 11⟩, _⟩, [duration, speed, state],
    [], [], [], [], [r], r, rfl, rfl, readVariables, rfl, ?_, rfl, rfl⟩, hle hc, hle hx, hle hy, hr⟩
  simp only [expressionKinds, Attempt.run_mapM_cons_eq_ok]
  exact ⟨_, _, _, hequations, ⟨_, _, _, hmissing _ rfl _, ⟨_, _, _, hmissing _ rfl _,
    ⟨_, _, _, hmissing _ rfl _, ⟨_, _, _, hmissing _ rfl _, ⟨_, _, _, hreward, rfl, rfl⟩, rfl⟩, rfl⟩, rfl⟩, rfl⟩,
    rfl⟩

theorem checkDeclarations_domain (a : Arena Binary64) (r : Constraint) :
    (domain a [] r).checkDeclarations = .ok () := by
  refine Except.bind_eq_ok.2 ⟨(), ?_, rfl⟩
  change checkNames [] [⟨"bigM", none⟩, ⟨"Epsilon", none⟩, ⟨"Dt", _⟩, ⟨"g", _⟩, ⟨"and", _⟩] = _
  have hbigM : isReserved "bigM" = false := by decide
  have hepsilon : isReserved "Epsilon" = false := by decide
  have hduration : isReserved "Dt" = false := by decide
  have hglobal : isReserved "g" = false := by decide
  have hstate : isReserved "and" = false := by decide
  simp [checkNames, hbigM, hepsilon, hduration, hglobal, hstate]

theorem exists_domain : ∃ a q r, read source settings = .ok (domain a [q] r) ∧ q.state.text = "and" := by
  obtain ⟨a, c, r, x, y, hparts, hc, hx, hy, hr⟩ := exists_readParts
  have hequation : ∃ q, q.state.text = "and" ∧ q.rhs = y ∧ (domain a [] r).equation c = .ok q := by
    unfold Domain.equation equationState
    rw [show (domain a [] r).arena = a from rfl, Arena.node_eq_of_getElem? hc]
    dsimp only
    rw [Arena.node_eq_of_getElem? hx]
    exact ⟨_, rfl, rfl, rfl⟩
  obtain ⟨q, hstate, rfl, hequation⟩ := hequation
  have hformula (position : Position) {e : ExprId} {s : String} (he : a.table.items[e]? = some (.sym s))
      (hs : s = "Dt" ∨ s = "g") (span : Span) :
      (domain a [q] r).checkFormula position e span = .ok () := by
    have huses : a.Uses (.formulas Binary64 (· = s)) e := .node he rfl (by simp [Node.operands])
    have hplain : a.MadeOf (fun n => isBoolean n = false) e := .node he rfl (by simp [Node.operands])
    refine Except.bind_eq_ok.2 ⟨(), checkSymbols_eq_ok huses ?_, checkArithmetic_eq_ok hplain⟩
    rintro _ rfl
    rcases hs with rfl | rfl
    · rfl
    · rfl
  have hequations : (domain a [q] r).checkEquations = .ok () := by
    refine Except.bind_eq_ok.2 ⟨(), rfl, ?_⟩
    simp [domain, states, duration, speed, state, equation?, hstate, pure, Except.pure]
  have hexpressions : (domain a [q] r).checkExpressions = .ok () := by
    refine Except.bind_eq_ok.2 ⟨(), rfl, Except.bind_eq_ok.2 ⟨(), rfl, ?_⟩⟩
    refine Except.bind_eq_ok.2 ⟨(), Except.forM_eq_ok.2 fun q' hq' => ?_, hformula _ hr (.inl rfl) _⟩
    obtain rfl := List.mem_singleton.1 hq'
    exact hformula _ hy (.inr rfl) _
  have hvalid : (domain a [] r).validate [c] = .ok (domain a [q] r) := by
    refine validate_eq_ok_iff.2 ⟨checkDeclarations_domain a r, [q], ?_, hequations, hexpressions, rfl⟩
    rw [List.mapM_cons, hequation]
    rfl
  exact ⟨a, q, r, read_eq_ok_iff.2 ⟨sections, _, _, a, split_source, hparts, hvalid⟩, hstate⟩

end Unspeakable

theorem names_of_read_unspeakable : ∃ d, read Unspeakable.source Unspeakable.settings = .ok d ∧
    d.resolve? "and" = some (.var Unspeakable.state) ∧ ¬IsSymbol Binary64 "and" ∧
    IsSymbol Binary64 "and_dash" ∧ d.resolve? "and_dash" = some (.next Unspeakable.state) := by
  obtain ⟨a, q, r, hread, -⟩ := Unspeakable.exists_domain
  obtain ⟨hdeclared, -, hnext⟩ := names_of_read hread
  have hstate : Unspeakable.state ∈ (Unspeakable.domain a [q] r).vars := by simp [Unspeakable.domain]
  obtain ⟨hresolve, hsymbol⟩ := hdeclared "and" _ (.inr ⟨_, hstate, rfl, rfl⟩)
  obtain ⟨hdash, hresolves, -⟩ := hnext _ hstate rfl
  exact ⟨_, hread, hresolve, fun h => hsymbol.1 h .and rfl, hdash, (hresolves _).2 rfl⟩

end Domain

end HybridPlan
