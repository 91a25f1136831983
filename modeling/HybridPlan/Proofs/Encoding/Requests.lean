import HybridPlan.Proofs.Encoding.Freshness
import HybridPlan.Proofs.Encoding.Labels
import HybridPlan.Scalar.Binary64

set_option autoImplicit false

/-! # Names that an encoding asks for

An encoding asks for names one after the other: for those of its variables and switches, and for those
of its rows. It goes on as long as it is given them, so that a run that succeeds gives the whole list
of names, and a run that is refused a name was given all of the list before it. As no name of a row is
in the list twice, none is ever refused; and as no name of a switch is in the list twice, a switch is
refused only for a declared variable. -/

namespace HybridPlan

variable {α : Type} [Scalar α]

namespace Encoding

/-- The names of the variables, or of the rows, of the program in their order. -/
def NameKind.given (K : NameKind) (s : State α) : List String :=
  match K with
  | .var => s.program.vars.toList.map (·.name)
  | .row => s.program.rows.toList.map (·.name)

/-- The names that are taken are those of the variables and rows. -/
def State.Indexed (s : State α) : Prop := ∀ (K : NameKind) (x : String), K.Taken s x ↔ x ∈ K.given s

theorem State.indexed_begin (horizon : ℕ) : (State.begin α horizon).Indexed := by
  intro K x
  cases K <;> simp [NameKind.Taken, NameKind.given, State.begin]

/-- The step asks for the names of a list. If it succeeds, all of them were given. If it is refused
one, those before it were given, and it was taken by then. -/
def Requests {ι : Type} (K : NameKind) (L : List String) (m : Encode α ι) : Prop :=
  ∀ s : State α, s.Indexed →
    (∀ i s', m.run s = .ok (i, s') → s'.Indexed ∧ K.given s' = K.given s ++ L) ∧
      ∀ x, m.run s = .error (K.refused x) → ∃ P, P ++ [x] <+: L ∧ x ∈ K.given s ++ P

namespace Requests

variable {ι κ : Type} {K : NameKind} {L L' : List String} {m : Encode α ι} {f : ι → Encode α κ}

theorem of_silent (h : Silent m) : Requests K [] m := by
  intro s hs
  constructor
  · intro i s' hrun
    have hsame := h.same s i s' hrun
    refine ⟨fun K x => ?_, ?_⟩
    · cases K with
      | var => simpa [NameKind.Taken, NameKind.given, hsame.varIndex, hsame.vars] using hs .var x
      | row => simpa [NameKind.Taken, NameKind.given, hsame.rowNames, hsame.rows] using hs .row x
    · cases K <;> simp [NameKind.given, hsame.vars, hsame.rows]
  · intro x hrun
    cases K <;> exact absurd hrun (h.error s _)

theorem throw {e : EncodingError α} (he : ∀ e', e ≠ .program e') :
    Requests K L (throw e : Encode α ι) := by
  refine fun s _ => ⟨fun i s' h => (not_run_throw h).elim, fun x h => ?_⟩
  cases K with
  | var | row =>
    cases h
    exact absurd rfl (he _)

/-- First the names of one step, then those of another. -/
theorem bind (hm : Requests K L m) (hf : ∀ i, Requests K L' (f i)) :
    Requests K (L ++ L') (m >>= f) := by
  intro s hs
  obtain ⟨hok, herror⟩ := hm s hs
  rw [run_bind]
  cases hresult : m.run s with
  | error e =>
    refine ⟨fun i s' h => (by cases h), fun x h => ?_⟩
    have he : m.run s = .error (K.refused x) := by
      cases h
      exact hresult
    obtain ⟨P, hP, hx⟩ := herror x he
    exact ⟨P, hP.trans (List.prefix_append L L'), hx⟩
  | ok r =>
    obtain ⟨i, s₁⟩ := r
    obtain ⟨hs₁, hgiven⟩ := hok i s₁ hresult
    obtain ⟨hok', herror'⟩ := hf i s₁ hs₁
    constructor
    · intro k s' h
      obtain ⟨hs', hgiven'⟩ := hok' k s' h
      exact ⟨hs', by rw [hgiven', hgiven, List.append_assoc]⟩
    · intro x h
      obtain ⟨P, hP, hx⟩ := herror' x h
      refine ⟨L ++ P, ?_, by rwa [hgiven, List.append_assoc] at hx⟩
      rwa [List.append_assoc, List.prefix_append_right_inj]

/-- A step that gives no names comes before one that does. -/
theorem after (hm : Silent m) (hf : ∀ i, Requests K L (f i)) : Requests K L (m >>= f) :=
  bind (of_silent hm) hf

/-- A step that gives no names comes behind one that does. -/
theorem before (hm : Requests K L m) (hf : ∀ i, Silent (f i)) : Requests K L (m >>= f) := by
  have h := hm.bind fun i => of_silent (hf i)
  rwa [List.append_nil] at h

/-! ## Variables and rows -/

theorem addVar (name : String) (domain : VarDomain) (lower upper : α) :
    Requests K (K.ofVar name) (extend (Program.addVar name domain lower upper)) := by
  intro s hs
  constructor
  · intro v s' h
    obtain ⟨-, -, -, rfl⟩ := addVar_eq_ok.1 h
    refine ⟨fun K x => ?_, ?_⟩
    · have hx := hs K x
      cases K with
      | row => exact hx
      | var =>
        rw [NameKind.Taken, NameKind.given, Std.HashMap.contains_iff_mem] at hx
        simp [NameKind.Taken, NameKind.given, State.withVar, Program.withVar, Program.newVar, hx,
          or_comm, eq_comm (a := x)]
    · cases K <;>
        simp [NameKind.given, NameKind.ofVar, State.withVar, Program.withVar, Program.newVar]
  · intro x h
    obtain ⟨e, q, he, heq⟩ := extend_eq_error h
    rcases Program.addVar_eq_error he with ⟨rfl, htaken⟩ | ⟨l, u, rfl⟩
    · cases K with
      | row => cases heq
      | var =>
        cases heq
        exact ⟨[], List.prefix_refl _, by simpa using (hs .var name).1 htaken⟩
    · cases K <;> cases heq

theorem addRow (name : String) (lower : α) (body : TermId) (upper : α) :
    Requests K (K.ofRow name) (extend (Program.addRow name lower body upper)) := by
  intro s hs
  constructor
  · intro v s' h
    obtain rfl := addRow_eq_ok h
    refine ⟨fun K x => ?_, ?_⟩
    · have hx := hs K x
      cases K with
      | var => exact hx
      | row =>
        rw [NameKind.Taken, NameKind.given, Std.HashSet.contains_iff_mem] at hx
        simp [NameKind.Taken, NameKind.given, State.withRow, Program.withRow, hx, or_comm,
          eq_comm (a := x)]
    · cases K <;> simp [NameKind.given, NameKind.ofRow, State.withRow, Program.withRow]
  · intro x h
    obtain ⟨e, q, he, heq⟩ := extend_eq_error h
    obtain ⟨rfl, htaken⟩ := Program.addRow_eq_error he
    cases K with
    | var => cases heq
    | row =>
      cases heq
      exact ⟨[], List.prefix_refl _, by simpa using (hs .row name).1 htaken⟩

/-! ## Loops -/

theorem loop {L : ι → List String} (l : List ι) (hf : ∀ i, Requests K (L i) (f i)) :
    Requests K (l.flatMap L) (forIn l PUnit.unit fun i _ => do
      let _ ← f i
      Pure.pure (ForInStep.yield PUnit.unit)) := by
  induction l with
  | nil => exact of_silent (Silent.pure PUnit.unit)
  | cons i l ih =>
    rw [List.forIn_cons, bind_assoc, List.flatMap_cons]
    exact bind (hf i) fun _ => ih

theorem mapM {L : ι → List String} (l : List ι) (hf : ∀ i, Requests K (L i) (f i)) :
    Requests K (l.flatMap L) (l.mapM f) := by
  induction l with
  | nil => exact of_silent (Silent.pure [])
  | cons i l ih =>
    rw [List.mapM_cons, List.flatMap_cons]
    exact bind (hf i) fun k => before ih fun ks => Silent.pure _

theorem labelled {f : String → ι → Encode α Unit} {label : String} {L : ι × ℕ → List String}
    (hf : ∀ x, Requests K (L x) (f s!"{label}_{x.2}" x.1)) (items : List ι) (n : ℕ) :
    Requests K ((items.zipIdx n).flatMap L) (labelled f label n items) := by
  induction items generalizing n with
  | nil => exact of_silent (Silent.pure ())
  | cons item items ih =>
    rw [List.zipIdx_cons, List.flatMap_cons]
    exact bind (hf (item, n)) fun _ => ih (n + 1)

/-! ## Constraints -/

section

variable {p : Problem α} {scope : Scope} {label : String}

theorem comparison (op : Comparison) (x y : ExprId) :
    Requests K (K.ofRow label) (comparison p scope label op x y) :=
  after Silent.term fun _ => after Silent.term fun _ => after (Silent.make _) fun body =>
    addRow label _ body _

theorem disjunct (position : ℕ) (item : ExprId) :
    Requests K (K.ofDisjunct label position) (disjunct p scope label position item) := by
  unfold Encoding.disjunct
  split
  · split
    · exact throw fun e h => by cases h
    · refine bind (addVar _ _ _ _) fun z => after (Silent.make _) fun z => ?_
      refine after Silent.term fun x => after Silent.term fun y => after (Silent.make _) fun d => ?_
      refine after (Silent.make _) fun bigM => after (Silent.make _) fun lift => ?_
      exact after (Silent.make _) fun body => before (addRow _ _ _ _) fun _ => Silent.pure z
  · exact throw fun e h => by cases h

theorem disjuncts (items : List ExprId) (n : ℕ) :
    Requests K ((List.range' n items.length).flatMap (K.ofDisjunct label))
      (disjuncts p scope label n items) := by
  induction items generalizing n with
  | nil => exact of_silent (Silent.pure [])
  | cons item items ih =>
    rw [List.length_cons, List.range'_succ, List.flatMap_cons]
    exact bind (disjunct n item) fun z => before (ih (n + 1)) fun zs => Silent.pure _

theorem disjunction (items : List ExprId) :
    Requests K ((List.range' 0 items.length).flatMap (K.ofDisjunct label) ++ K.ofRow s!"{label}_or")
      (disjunction p scope label items) :=
  bind (disjuncts items 0) fun _ => after (Silent.make _) fun body => addRow _ _ body _

theorem constraintBelow (n : ℕ) (label : String) (e : ExprId) :
    Requests K (K.ofConstraint p.arena n label e) (constraintBelow p scope n label e) := by
  induction n generalizing label e with
  | zero => exact of_silent (Silent.pure ())
  | succ n ih =>
    unfold Encoding.constraintBelow NameKind.ofConstraint
    cases hnode : p.arena.node e with
    | join c items =>
      cases c with
      | and => exact labelled (fun x => ih _ x.1) items 0
      | or => exact disjunction items
    | compare op x y => exact comparison op x y
    | num | sym | neg | arith | call => exact throw fun e h => by cases h

/-- The constraints of a kind, each in the part of its number. -/
theorem constraints {kind ending : String} {q : ℕ → Part}
    (hq : ∀ i e, (q i).given K p.arena e = K.ofConstraint p.arena (e + 1) (q i).title e)
    (htitle : ∀ i, (q i).title = s!"{kind}_{i}" ++ ending) (cs : List Constraint) :
    Requests K ((numbered q cs).flatMap fun c => c.1.given K p.arena c.2)
      (constraints p scope kind ending cs) := by
  rw [numbered, List.flatMap_map]
  refine labelled (fun c => ?_) cs 0
  rw [hq, htitle]
  exact constraintBelow _ _ _

end

/-! ## Programs -/

section

variable {p : Problem α}

theorem transition (t : ℕ) (x : String × ExprId) :
    Requests K ((Part.transition x.1 t).given K p.arena x.2) (transition p t x.1 x.2) :=
  after (Silent.var _) fun _ => after (Silent.make _) fun _ => after Silent.term fun _ =>
    after (Silent.make _) fun body => addRow _ _ body _

theorem reward (t : ℕ) :
    Requests K ((Part.reward t).given K p.arena p.domain.reward.expr) (reward p t) :=
  after (Silent.var _) fun _ => after (Silent.make _) fun _ => after Silent.term fun _ =>
    after (Silent.make _) fun body => addRow _ _ body _

theorem stage (t : ℕ) :
    Requests K ((stageContents p t).flatMap fun c => c.1.given K p.arena c.2) (stage p t) := by
  have hstaged (word : String) (i : ℕ) : s!"{word}_{i}_{t}" = s!"{word}_{i}" ++ s!"_{t}" := by
    have hname : s!"{word}_{i}_{t}" = s!"{word}_{i}" ++ "_" ++ toString t := rfl
    rw [hname, String.append_assoc]
    rfl
  simp only [stageContents, List.flatMap_append, List.flatMap_singleton, List.flatMap_map]
  exact bind (constraints (fun _ _ => rfl) (hstaged _) _) fun _ =>
    bind (constraints (fun _ _ => rfl) (hstaged _) _) fun _ =>
      bind (loop p.transitions (transition t)) fun _ => reward t

theorem cuts (horizon : ℕ) (cs : List (Cut α)) (k : ℕ) :
    Requests K ((cutContents horizon k cs).flatMap fun c => c.1.given K p.arena c.2)
      (cuts p horizon k cs) := by
  induction cs generalizing k with
  | nil => exact of_silent (Silent.pure ())
  | cons c cs ih =>
    unfold Encoding.cuts cutContents
    rw [List.zipIdx_cons]
    by_cases hstage : c.stage < horizon
    · rw [if_pos hstage, List.filter_cons_of_pos (by simpa using hstage), List.map_cons,
        List.flatMap_cons]
      exact bind (constraintBelow _ _ _) fun _ => ih (k + 1)
    · rw [if_neg hstage, List.filter_cons_of_neg (by simpa using hstage)]
      exact ih (k + 1)

/-- The rows of a program, and their switches. -/
theorem rows (horizon : ℕ) (store : CutStore α) :
    Requests K (givenNames K p horizon store) (rows p horizon store) := by
  have hplain (word : String) (i : ℕ) : s!"{word}_{i}" = s!"{word}_{i}" ++ "" :=
    String.append_empty.symm
  have hgoals : Requests K
      ((numbered .goal p.domain.goals).flatMap fun c => c.1.given K p.arena c.2)
      (Encoding.constraints p (.goal horizon) "goal" "" p.domain.goals) :=
    constraints (fun _ _ => rfl) (hplain _) _
  have hinitials : Requests K
      ((numbered .initial p.domain.initials).flatMap fun c => c.1.given K p.arena c.2)
      (Encoding.constraints p (.stage 0) "initial" "" p.domain.initials) :=
    constraints (fun _ _ => rfl) (hplain _) _
  unfold givenNames contents Encoding.rows
  rw [List.flatMap_append, List.flatMap_append, List.flatMap_append, List.flatMap_assoc]
  refine bind hinitials fun _ => bind (loop _ stage) fun _ => ?_
  split
  · exact bind hgoals fun _ => cuts horizon _ 0
  · exact cuts horizon _ 0

theorem declareVars (l : List Variable) (name : Variable → String) :
    Requests K ((l.map fun v => declared p v (name v)).flatMap fun v => K.ofVar v.name)
      (forIn l PUnit.unit fun v _ => do
        let _ ← Encoding.declare p v (name v)
        Pure.pure (ForInStep.yield PUnit.unit)) := by
  rw [List.flatMap_map]
  exact loop l fun v => addVar (name v) _ _ _

theorem declareAll (horizon : ℕ) :
    Requests K ((planVars p horizon).flatMap fun v => K.ofVar v.name) (declareAll p horizon) := by
  have hstage (t : ℕ) : Requests K ((stageVars p t).flatMap fun v => K.ofVar v.name)
      (declareStage p t) := by
    unfold stageVars
    rw [List.flatMap_append, List.flatMap_singleton]
    exact bind (declareVars _ _) fun _ => before (addVar _ _ _ _) fun _ => Silent.pure _
  unfold planVars
  rw [List.append_assoc, List.flatMap_append, List.flatMap_append, List.flatMap_assoc,
    List.flatMap_assoc]
  exact bind (declareVars _ _) fun _ => bind (loop _ fun t => declareVars _ _) fun _ =>
    mapM _ hstage

/-- First the variables of the plan, then the rows with their switches. -/
theorem build (horizon : ℕ) (store : CutStore α) :
    Requests K (((planVars p horizon).flatMap fun v => K.ofVar v.name) ++
      givenNames K p horizon store) (build p horizon store) := by
  have hobjective (objective : List (VarId × α)) : Silent (modify fun s : State α =>
      { s with program := s.program.setObjective .maximize objective }) := by
    refine ⟨fun s i s' h => ?_, fun s e h => by cases h⟩
    cases h
    exact ⟨rfl, rfl, rfl, rfl⟩
  exact bind (declareAll horizon) fun objective => after (hobjective objective) fun _ =>
    rows horizon store

end

/-- A name that is refused to a program from its beginning on is twice in the list. -/
theorem two_le_count (h : Requests K L m) {horizon : ℕ} {x : String}
    (hrun : m.run (State.begin α horizon) = .error (K.refused x)) : 2 ≤ L.count x := by
  obtain ⟨-, herror⟩ := h _ (State.indexed_begin horizon)
  obtain ⟨P, hP, hx⟩ := herror x hrun
  have hempty : K.given (State.begin α horizon) = [] := by cases K <;> rfl
  rw [hempty, List.nil_append] at hx
  calc 2 ≤ P.count x + 1 := Nat.succ_le_succ (List.one_le_count_iff.2 hx)
    _ = (P ++ [x]).count x := by simp
    _ ≤ L.count x := hP.sublist.count_le x

end Requests

end Encoding

open Encoding

/-- The run of an encoding behind its result. -/
theorem Encoding.run_build_of_error {p : Problem α} {horizon : ℕ} {store : CutStore α}
    {e : EncodingError α} (h : encode p horizon store = .error e) :
    (build p horizon store).run (.begin α horizon) = .error e := by
  have hrun : encode p horizon store = ((build p horizon store).run (.begin α horizon) >>= fun r =>
      .ok ⟨r.2.program, horizon⟩) := rfl
  rw [hrun] at h
  cases hbuild : (build p horizon store).run (.begin α horizon) with
  | ok r =>
    rw [hbuild] at h
    cases h
  | error e' =>
    rw [hbuild] at h
    cases h
    rfl

theorem Encoding.run_build_of_ok {p : Problem α} {horizon : ℕ} {store : CutStore α}
    {e : EncodedProgram α} (h : encode p horizon store = .ok e) :
    ∃ s, (build p horizon store).run (.begin α horizon) = .ok ((), s) ∧ e.program = s.program := by
  obtain ⟨⟨⟨⟩, s⟩, hrun, h⟩ := Except.bind_eq_ok.1 h
  cases h
  exact ⟨s, hrun, rfl⟩

/-- In a problem whose states have different names, the names that an encoding gives to its rows all
differ, and so do those that it gives to its switches. So it is never refused the name of a row, and
that of a variable only if a declared variable has it; a program that is returned has the rows and the
switches of these names. -/
theorem Problem.encode_distinguishes {p : Problem α} (hstates : (p.transitions.map (·.1)).Nodup)
    (horizon : ℕ) (store : CutStore α) :
    (givenNames .row p horizon store).Nodup ∧ (givenNames .var p horizon store).Nodup ∧
      (∀ x, encode p horizon store ≠ .error (.program (.duplicateRow x))) ∧
      (∀ x, encode p horizon store = .error (.program (.duplicateVariable x)) →
        x ∈ (planVars p horizon).map (·.name)) ∧
      ∀ e, encode p horizon store = .ok e →
        e.program.rows.toList.map (·.name) = givenNames .row p horizon store ∧
        e.program.vars.toList.map (·.name) =
          (planVars p horizon).map (·.name) ++ givenNames .var p horizon store := by
  have hrows := nodup_givenNames hstates .row horizon store
  have hswitches := nodup_givenNames hstates .var horizon store
  have hplanRows : ((planVars p horizon).flatMap fun v => NameKind.row.ofVar v.name) = [] := by
    simp [NameKind.ofVar]
  have hplanVars : ((planVars p horizon).flatMap fun v => NameKind.var.ofVar v.name) =
      (planVars p horizon).map (·.name) := by
    rw [List.map_eq_flatMap]
    rfl
  have hrowRequests := Requests.build (K := .row) (p := p) horizon store
  have hvarRequests := Requests.build (K := .var) (p := p) horizon store
  rw [hplanRows, List.nil_append] at hrowRequests
  rw [hplanVars] at hvarRequests
  refine ⟨hrows, hswitches, fun x h => ?_, fun x h => ?_, fun e h => ?_⟩
  · have htwice := hrowRequests.two_le_count (Encoding.run_build_of_error h)
    exact absurd (List.nodup_iff_count_le_one.1 hrows x) (by omega)
  · have htwice := hvarRequests.two_le_count (Encoding.run_build_of_error h)
    have honce := List.nodup_iff_count_le_one.1 hswitches x
    rw [List.count_append] at htwice
    exact List.count_pos_iff.1 (by omega)
  · obtain ⟨s, hrun, hprogram⟩ := Encoding.run_build_of_ok h
    rw [hprogram]
    have hrows := ((hrowRequests _ (State.indexed_begin horizon)).1 () s hrun).2
    have hvars := ((hvarRequests _ (State.indexed_begin horizon)).1 () s hrun).2
    exact ⟨hrows, hvars⟩

/-- Two states, of which the name of one goes on like that of a variable of the other, and a constraint
with a disjunction in each of two conjunctions. -/
def Nested.problem : Problem Binary64 :=
  let place := Span.whole ""
  let items : Array (Node Binary64) := #[.num Scalar.zero, .sym "x", .sym "x_0", .compare .ge 1 0,
    .compare .le 1 0, .compare .lt 2 0, .join .or [4, 5], .join .and [3, 6], .join .and [6, 7]]
  { domain :=
      { arena := { table := ⟨items, .ofList (items.toList.zipIdx)⟩ }
        constants := []
        vars := [⟨⟨"x", none⟩, .continuous, .state, false⟩, ⟨⟨"x_0", none⟩, .continuous, .state, false⟩,
          ⟨⟨"Dt", none⟩, .continuous, .action, false⟩]
        dt := "Dt"
        mode := .solutions
        equations := [⟨⟨"x", none⟩, 1, place⟩, ⟨⟨"x_0", none⟩, 2, place⟩]
        initials := [⟨8, place⟩]
        instantaneous := []
        temporal := [⟨7, place⟩]
        goals := []
        reward := ⟨0, place⟩ }
    transitions := [("x", 1), ("x_0", 2)]
    temporal := [7]
    feastol := Scalar.zero
    bigM := Scalar.one
    epsilon := Scalar.one }

/-- The names of the rows and switches of this problem for a plan of one stage. -/
theorem Nested.names_distinct :
    (Nested.problem.transitions.map (·.1)).Nodup ∧
      givenNames .row Nested.problem 1 {} =
        ["initial_0_0_or_0", "initial_0_0_or_1", "initial_0_0_or", "initial_0_1_0",
          "initial_0_1_1_or_0", "initial_0_1_1_or_1", "initial_0_1_1_or", "temporal_0_0_0",
          "temporal_0_0_1_or_0", "temporal_0_0_1_or_1", "temporal_0_0_1_or", "transition_x_0",
          "transition_x_0_0", "reward_0"] ∧
      givenNames .var Nested.problem 1 {} =
        ["Aux_initial_0_0_0", "Aux_initial_0_0_1", "Aux_initial_0_1_1_0", "Aux_initial_0_1_1_1",
          "Aux_temporal_0_0_1_0", "Aux_temporal_0_0_1_1"] ∧
      (givenNames .row Nested.problem 1 {}).Nodup ∧
      (givenNames .var Nested.problem 1 {}).Nodup ∧
      ∀ x, encode Nested.problem 1 {} ≠ .error (.program (.duplicateRow x)) := by
  have hstates : (Nested.problem.transitions.map (·.1)).Nodup := by decide
  obtain ⟨hrows, hswitches, hrefused, -⟩ := Nested.problem.encode_distinguishes hstates 1 {}
  exact ⟨hstates, by decide, by decide, hrows, hswitches, hrefused⟩

end HybridPlan
