import HybridPlan.Proofs.Encoding.Freshness
import HybridPlan.Proofs.Encoding.Validation

set_option autoImplicit false

/-! # Names that do not clash

A program has one space of names for all of its variables. The names of a plan are made from those that
the domain declares, so two of them are the same only if the declared names are chosen for it: a global
variable that is called like a variable of a stage, a variable called `Obj`, or one whose name begins
like that of a switch. No check excludes such names. In a domain without them all names differ,
whatever the number of stages and the cuts are. -/

namespace HybridPlan

variable {α : Type} [Scalar α]

open Encoding

/-- The names that a domain declares are apart from those that are made of them. -/
structure Domain.Apart (d : Domain α) : Prop where
  globals : ∀ v ∈ d.vars, v.isGlobal → ∀ w ∈ d.vars, ¬w.isGlobal →
    ∀ t, v.name.text ≠ stageVar w.name.text t
  rewards : ∀ v ∈ d.vars, ¬v.isGlobal → v.name.text ≠ "Obj"
  globalRewards : ∀ v ∈ d.vars, v.isGlobal → ∀ t, v.name.text ≠ rewardVar t
  switches : ∀ v ∈ d.vars, ∀ ending, v.name.text ≠ "Aux_" ++ ending

/-- The names of the variables that a condition holds of. -/
def Domain.namesWith (d : Domain α) (P : Variable → Prop) : Set String :=
  {x | ∃ v ∈ d.vars, P v ∧ v.name.text = x}

namespace Encoding

/-! ## Names of declared variables -/

/-- Names of variables. -/
def NameKind.vars (K : NameKind) (N : Set String) : Set String := {x | K = .var ∧ x ∈ N}

theorem disjoint_vars {K : NameKind} {N M : Set String} (h : K = .var → Disjoint N M) :
    Disjoint (K.vars N) (K.vars M) := by
  refine Set.disjoint_left.2 ?_
  rintro x ⟨hK, hx⟩ ⟨-, hx'⟩
  exact Set.disjoint_left.1 (h hK) hx hx'

variable {d : Domain α} {p : Problem α} {K : NameKind}

/-- What begins with the tokens of a switch begins like one. -/
theorem eq_append_of_tokens {x : String} {l : List Char} {ls : List (List Char)}
    (h : tokens x = "Aux".toList :: l :: ls) : ∃ ending, x = "Aux_" ++ ending := by
  refine ⟨.ofList (List.intercalate ['_'] (l :: ls)), ?_⟩
  have hx : List.intercalate ['_'] (tokens x) = x.toList := List.intercalate_splitOn '_'
  rw [← String.toList_inj, ← hx, h, String.toList_append]
  simp [List.intercalate]

/-- A name that does not begin like that of a switch is none, at whatever time. -/
theorem not_mem_names {name : String} (h : ∀ ending, name ≠ "Aux_" ++ ending) (q : Part) :
    name ∉ q.names .var ∧ ∀ t, stageVar name t ∉ q.names .var := by
  constructor
  · intro hx
    obtain ⟨l, l', ls, htokens⟩ := Part.exists_tokens hx
    obtain ⟨ending, hname⟩ := eq_append_of_tokens htokens
    exact h ending hname
  · intro t hx
    obtain ⟨l, l', ls, htokens⟩ := Part.exists_tokens hx
    rw [stageVar, tokens_numbered] at htokens
    -- the time is the last token, so that two of the others are left
    have hname := congrArg List.dropLast htokens
    rw [List.dropLast_concat] at hname
    obtain ⟨ending, hname⟩ := eq_append_of_tokens hname
    exact h ending hname

theorem rewardVar_ne_switch (ending : String) : "Obj" ≠ "Aux_" ++ ending := by
  intro h
  have hhead := congrArg (fun s => s.toList.head?) h
  rw [String.toList_append] at hhead
  cases hhead

/-- The names of variables for names `N` at times `T`. -/
def staged (N : Set String) (T : Set ℕ) : Set String := {x | ∃ n ∈ N, ∃ t ∈ T, x = stageVar n t}

theorem disjoint_staged {N M : Set String} {T U : Set ℕ} (h : Disjoint N M ∨ Disjoint T U) :
    Disjoint (staged N T) (staged M U) := by
  refine Set.disjoint_left.2 ?_
  rintro x ⟨n, hn, t, ht, rfl⟩ ⟨m, hm, u, hu, heq⟩
  obtain ⟨rfl, rfl⟩ := stageVar_injective heq
  rcases h with h | h
  · exact Set.disjoint_left.1 h hn hm
  · exact Set.disjoint_left.1 h ht hu

/-- The variable is decided in each stage. -/
def IsDecision (v : Variable) : Prop := v.role ≠ .state ∧ ¬v.isGlobal

/-- The names of the variables of all plans. -/
def variableNames (d : Domain α) : Set String :=
  d.namesWith (·.isGlobal) ∪ (staged (d.namesWith (·.role = .state)) Set.univ ∪
    staged (insert "Obj" (d.namesWith IsDecision)) Set.univ)

namespace Fresh

theorem declare (v : Variable) (name : String) : Fresh K (K.vars {name}) (declare p v name) := by
  have hname (h : K = .var) : name ∈ K.vars {name} := ⟨h, rfl⟩
  exact addVar hname _ _ _

/-- The declarations of variables at a time. -/
theorem declare_staged {P : Variable → Prop} {l : List Variable}
    (hnodup : (l.map (·.name.text)).Nodup) (hl : ∀ v ∈ l, v ∈ p.domain.vars ∧ P v) (t : ℕ) :
    Fresh K (K.vars (staged (p.domain.namesWith P) {t})) (forIn l PUnit.unit fun v _ => do
      let _ ← Encoding.declare p v (stageVar v.name.text t)
      Pure.pure (ForInStep.yield PUnit.unit)) := by
  have hpairwise : l.Pairwise fun v w => Disjoint (K.vars {stageVar v.name.text t})
      (K.vars {stageVar w.name.text t}) := by
    refine (List.pairwise_map.1 hnodup).imp fun {v w} hne => disjoint_vars fun _ => ?_
    exact Set.disjoint_singleton.2 fun h => hne (stageVar_injective h).1
  refine (loop hpairwise fun v _ => declare v _).mono ?_
  rintro x ⟨v, hv, hK, rfl⟩
  exact ⟨hK, _, ⟨v, (hl v hv).1, (hl v hv).2, rfl⟩, t, rfl, rfl⟩

section

variable (hnamed : p.domain.Named) (hapart : K = .var → p.domain.Apart)
include hnamed

theorem declareGlobals : Fresh K (K.vars (p.domain.namesWith (·.isGlobal)))
    (forIn (p.domain.vars.filter (·.isGlobal)) PUnit.unit fun v _ => do
      let _ ← Encoding.declare p v v.name.text
      Pure.pure (ForInStep.yield PUnit.unit)) := by
  have hpairwise : (p.domain.vars.filter (·.isGlobal)).Pairwise fun v w =>
      Disjoint (K.vars {v.name.text}) (K.vars {w.name.text}) := by
    refine ((List.pairwise_map.1 hnamed.nodup).filter _).imp fun {v w} hne => ?_
    exact disjoint_vars fun _ => Set.disjoint_singleton.2 hne
  refine (loop hpairwise fun v _ => declare v _).mono ?_
  rintro x ⟨v, hv, hK, rfl⟩
  obtain ⟨hv, hglobal⟩ := List.mem_filter.1 hv
  exact ⟨hK, v, hv, hglobal, rfl⟩

theorem declareStates (t : ℕ) : Fresh K (K.vars (staged (p.domain.namesWith (·.role = .state)) {t}))
    (forIn p.domain.states PUnit.unit fun v _ => do
      let _ ← Encoding.declare p v (stageVar v.name.text t)
      Pure.pure (ForInStep.yield PUnit.unit)) := by
  refine declare_staged (hnamed.nodup.sublist (List.filter_sublist.map _)) (fun v hv => ?_) t
  obtain ⟨hv, hrole⟩ := List.mem_filter.1 hv
  exact ⟨hv, by simpa using hrole⟩

include hapart

/-- The declarations of a stage: those of the decisions, and of what it earns. -/
theorem declareStage (t : ℕ) :
    Fresh K (K.vars (staged (insert "Obj" (p.domain.namesWith IsDecision)) {t}))
      (declareStage p t) := by
  have hdecisions : Fresh K (K.vars (staged (p.domain.namesWith IsDecision) {t}))
      (forIn (p.domain.decisions.filter (!·.isGlobal)) PUnit.unit fun v _ => do
        let _ ← Encoding.declare p v (stageVar v.name.text t)
        Pure.pure (ForInStep.yield PUnit.unit)) := by
    refine declare_staged (hnamed.nodup.sublist
      ((List.filter_sublist.trans List.filter_sublist).map _)) (fun v hv => ?_) t
    obtain ⟨hv, hglobal⟩ := List.mem_filter.1 hv
    obtain ⟨hv, hrole⟩ := List.mem_filter.1 hv
    exact ⟨hv, by simpa using hrole, by simpa using hglobal⟩
  have hreward : Fresh K (K.vars (staged {"Obj"} {t})) (extend (α := α) (Program.addVar (rewardVar t)
      .continuous (-Scalar.infinity) Scalar.infinity)) := by
    have hname (h : K = .var) : rewardVar t ∈ K.vars (staged {"Obj"} {t}) :=
      ⟨h, _, rfl, t, rfl, rfl⟩
    exact addVar hname _ _ _
  refine (bind hdecisions (fun _ => before hreward fun _ => pure _)
    (disjoint_vars fun hK => disjoint_staged (.inl ?_))).mono ?_
  · refine Set.disjoint_singleton_right.2 ?_
    rintro ⟨v, hv, ⟨-, hglobal⟩, hname⟩
    exact (hapart hK).rewards v hv hglobal hname
  · rintro x (⟨hK, n, hn, ht⟩ | ⟨hK, n, hn, ht⟩)
    · exact ⟨hK, n, .inr hn, ht⟩
    · exact ⟨hK, n, .inl hn, ht⟩

/-- The names of the variables of a plan differ, whatever the number of its stages is. -/
theorem declareAll (horizon : ℕ) : Fresh K (K.vars (variableNames p.domain)) (declareAll p horizon) := by
  -- variables of different times have different names
  have hpairwise (N : Set String) (n : ℕ) : (List.range n).Pairwise fun t u =>
      Disjoint (K.vars (staged N {t})) (K.vars (staged N {u})) :=
    List.nodup_range.imp fun hne =>
      disjoint_vars fun _ => disjoint_staged (.inr (Set.disjoint_singleton.2 hne))
  have hboundaries : Fresh K (K.vars (staged (p.domain.namesWith (·.role = .state)) Set.univ))
      (forIn (List.range (horizon + 1)) PUnit.unit fun t _ => do
        let _ ← forIn p.domain.states PUnit.unit fun v _ => do
          let _ ← Encoding.declare p v (stageVar v.name.text t)
          Pure.pure (ForInStep.yield PUnit.unit)
        Pure.pure (ForInStep.yield PUnit.unit)) := by
    refine (loop (hpairwise _ _) fun t _ => declareStates hnamed t).mono ?_
    rintro x ⟨t, -, hK, n, hn, u, -, rfl⟩
    exact ⟨hK, n, hn, u, trivial, rfl⟩
  have hstages : Fresh K (K.vars (staged (insert "Obj" (p.domain.namesWith IsDecision)) Set.univ))
      ((List.range horizon).mapM (Encoding.declareStage p)) := by
    refine (mapM (hpairwise _ _) fun t _ => declareStage hnamed hapart t).mono ?_
    rintro x ⟨t, -, hK, n, hn, u, -, rfl⟩
    exact ⟨hK, n, hn, u, trivial, rfl⟩
  have hlater : Disjoint (K.vars (staged (p.domain.namesWith (·.role = .state)) Set.univ))
      (K.vars (staged (insert "Obj" (p.domain.namesWith IsDecision)) Set.univ)) := by
    refine disjoint_vars fun hK => disjoint_staged (.inl (Set.disjoint_left.2 ?_))
    rintro x ⟨v, hv, hrole, rfl⟩ (hObj | ⟨w, hw, hdecision, hname⟩)
    · exact (hapart hK).rewards v hv (hnamed.states v hv hrole) hObj
    · exact hdecision.1 (hnamed.eq_of_name hw hv hname ▸ hrole)
  have hglobals : Disjoint (K.vars (p.domain.namesWith (·.isGlobal)))
      (K.vars (staged (p.domain.namesWith (·.role = .state)) Set.univ) ∪
        K.vars (staged (insert "Obj" (p.domain.namesWith IsDecision)) Set.univ)) := by
    refine Set.disjoint_left.2 ?_
    rintro x ⟨hK, v, hv, hglobal, rfl⟩ (⟨-, n, ⟨w, hw, hrole, rfl⟩, t, -, hname⟩ |
      ⟨-, n, hn, t, -, hname⟩)
    · exact (hapart hK).globals v hv hglobal w hw (hnamed.states w hw hrole) t hname
    · rcases hn with rfl | ⟨w, hw, hdecision, rfl⟩
      · exact (hapart hK).globalRewards v hv hglobal t hname
      · exact (hapart hK).globals v hv hglobal w hw hdecision.2 t hname
  refine (bind (declareGlobals hnamed) (fun _ => bind hboundaries (fun _ => hstages) hlater)
    hglobals).mono ?_
  rintro x (⟨hK, hx⟩ | ⟨hK, hx⟩ | ⟨hK, hx⟩)
  · exact ⟨hK, .inl hx⟩
  · exact ⟨hK, .inr (.inl hx)⟩
  · exact ⟨hK, .inr (.inr hx)⟩

omit hnamed in
/-- Declared variables and switches have different names. -/
theorem disjoint_parts : Disjoint (K.vars (variableNames p.domain)) (Part.namesOf K Set.univ) := by
  refine Set.disjoint_left.2 ?_
  rintro x ⟨rfl, hx⟩ ⟨q, -, hq⟩
  have hd := hapart rfl
  rcases hx with ⟨v, hv, -, rfl⟩ | ⟨n, ⟨v, hv, -, rfl⟩, t, -, rfl⟩ | ⟨n, hn, t, -, rfl⟩
  · exact (not_mem_names (hd.switches v hv) q).1 hq
  · exact (not_mem_names (hd.switches v hv) q).2 t hq
  · rcases hn with rfl | ⟨v, hv, -, rfl⟩
    · exact (not_mem_names rewardVar_ne_switch q).2 t hq
    · exact (not_mem_names (hd.switches v hv) q).2 t hq

theorem build (hnodup : (p.transitions.map (·.1)).Nodup) (horizon : ℕ) (store : CutStore α) :
    Fresh K (K.vars (variableNames p.domain) ∪ Part.namesOf K Set.univ) (build p horizon store) := by
  refine bind (declareAll hnamed hapart horizon) (fun objective => ?_) (disjoint_parts hapart)
  refine after (of_keepsNames (fun s i s' h => ?_) fun s e h => by cases h)
    fun _ => rows hnodup horizon store
  cases h
  exact ⟨rfl, rfl⟩

end

end Fresh

end Encoding

/-- An encoding fails for no name that is taken: for that of a variable if the declared names are apart
from others, and for that of a row in any case. -/
theorem Problem.encode_ne_refused {p : Problem α} {K : NameKind} (hnamed : p.domain.Named)
    (hapart : K = .var → p.domain.Apart) (hnodup : (p.transitions.map (·.1)).Nodup) (horizon : ℕ)
    (store : CutStore α) (x : String) : encode p horizon store ≠ .error (K.refused x) := by
  have hbegin : ∀ x, ¬K.Taken (State.begin α horizon) x := by
    intro x
    cases K with
    | var | row => simp [NameKind.Taken, State.begin]
  obtain ⟨-, herror⟩ := Fresh.build hnamed hapart hnodup horizon store (State.begin α horizon)
    fun x _ => hbegin x
  have hrun : encode p horizon store = ((Encoding.build p horizon store).run (.begin α horizon) >>= fun r =>
      .ok ⟨r.2.program, horizon⟩) := rfl
  rw [hrun]
  cases hbuild : (Encoding.build p horizon store).run (.begin α horizon) with
  | ok r =>
    intro h
    cases h
  | error e =>
    intro h
    cases h
    exact herror x hbuild

/-! ## Names that clash -/

/-- The variables of a program that is returned have different names. -/
theorem Problem.nodup_planVars {p : Problem α} (hp : p.arena.WellFormed) {horizon : ℕ}
    {store : CutStore α} {e : EncodedProgram α} (h : encode p horizon store = .ok e) :
    ((planVars p horizon).map (·.name)).Nodup := by
  obtain ⟨-, objective, s, s', hdeclares, -⟩ := encode_eq_rows hp h
  have hvars : s.program.vars.toList = planVars p horizon := hdeclares.vars
  exact hvars ▸ hdeclares.wellFormed.program.nodup_names

/-- If a global variable has the name of the value of a state, no plan that reaches this time can be
encoded. -/
theorem Problem.encode_ne_ok {p : Problem α} (hp : p.arena.WellFormed) {v w : Variable}
    (hv : v ∈ p.domain.vars) (hglobal : v.isGlobal) (hw : w ∈ p.domain.states) {t horizon : ℕ}
    (ht : t ≤ horizon) (hname : v.name.text = stageVar w.name.text t) (store : CutStore α)
    (e : EncodedProgram α) : encode p horizon store ≠ .ok e := by
  intro h
  have hnodup := nodup_planVars hp h
  rw [planVars, List.append_assoc, List.map_append, List.nodup_append] at hnodup
  have hglobals : v.name.text ∈ (globalVars p).map (·.name) :=
    List.mem_map.2 ⟨_, List.mem_map_of_mem (List.mem_filter.2 ⟨hv, hglobal⟩), rfl⟩
  have hboundary : declared p w (stageVar w.name.text t) ∈ boundaryVars p t := List.mem_map_of_mem hw
  have hboundaries : declared p w (stageVar w.name.text t) ∈
      (List.range (horizon + 1)).flatMap (boundaryVars p) :=
    List.mem_flatMap.2 ⟨t, List.mem_range.2 (Nat.lt_succ_of_le ht), hboundary⟩
  exact hnodup.2.2 _ hglobals _ (List.mem_map_of_mem (List.mem_append_left _ hboundaries)) hname

/-! ## Domains that were read -/

theorem Domain.Apart.withArena {d : Domain α} (h : d.Apart) (a : Arena α) :
    Domain.Apart { d with arena := a } :=
  ⟨h.globals, h.rewards, h.globalRewards, h.switches⟩

/-- A domain that was read, and whose names are apart from those that are made of them, gives all
variables different names, whatever the horizon and the cuts are: the encoding never fails for a
variable that is declared twice. -/
theorem ReadProblem.encode_ne_duplicateVariable (P : ReadProblem α) (hapart : P.domain.Apart)
    (vs : List (Violation α × OffsetMode × ℕ)) (horizon : ℕ) (x : String) :
    encode (CutStore.fill P.problem vs).2 horizon (CutStore.fill P.problem vs).1 ≠
      .error (.program (.duplicateVariable x)) := by
  obtain ⟨-, hdomain, -⟩ := Problem.ofDomain_eq_ok Vocabulary.closed_all P.derived
    (Domain.read_eq_ok Vocabulary.complete_all P.read).1 trivial fun _ _ => trivial
  have hproblem : P.problem.domain.Apart := hdomain ▸ hapart.withArena P.problem.arena
  obtain ⟨hgrows, -⟩ := CutStore.fill_grows P.madeOf vs
  have hvalid := P.valid.grows hgrows
  have hnodup : ((CutStore.fill P.problem vs).2.transitions.map (·.1)).Nodup := by
    rw [hvalid.made.names]
    exact hvalid.named.nodup.sublist (List.filter_sublist.map _)
  refine Problem.encode_ne_refused (K := .var) hvalid.named (fun _ => ?_) hnodup horizon _ x
  obtain ⟨a, hfill, -⟩ := hgrows
  rw [hfill]
  exact hproblem.withArena a

/-- The name of the duration alone is apart from others. -/
theorem Domain.apart_of_vars_eq {d : Domain α} {place : Option Span}
    (hvars : d.vars = [⟨⟨"Dt", place⟩, .continuous, .action, false⟩]) : d.Apart := by
  have hdt : ∀ v ∈ d.vars, v.name.text = "Dt" ∧ ¬v.isGlobal := by
    rw [hvars]
    intro v hv
    rw [List.mem_singleton.1 hv]
    exact ⟨rfl, Bool.false_ne_true⟩
  refine ⟨fun v hv hglobal => absurd hglobal (hdt v hv).2, fun v hv _ => ?_,
    fun v hv hglobal => absurd hglobal (hdt v hv).2, fun v hv ending h => ?_⟩
  · rw [(hdt v hv).1]
    decide
  · have hhead := congrArg (fun s => s.toList.head?) ((hdt v hv).1.symm.trans h)
    rw [String.toList_append] at hhead
    cases hhead

/-- In the domain of waiting, the only name is that of the duration. -/
theorem ReadProblem.encode_ne_duplicateVariable_waiting : ∃ P : ReadProblem Exact,
    P.source = Waiting.source .le ∧ P.domain.Apart ∧
      ∀ x, encode (CutStore.fill P.problem []).2 1 (CutStore.fill P.problem []).1 ≠
        .error (.program (.duplicateVariable x)) := by
  obtain ⟨P, hsource, -, hwaits, -⟩ := Waiting.exists_default .le
  obtain ⟨-, hdomain, -⟩ := Problem.ofDomain_eq_ok Vocabulary.closed_all P.derived
    (Domain.read_eq_ok Vocabulary.complete_all P.read).1 trivial fun _ _ => trivial
  obtain ⟨place, hvars⟩ := hwaits.vars
  have hvars : P.domain.vars = [⟨⟨"Dt", place⟩, .continuous, .action, false⟩] := by
    rw [← hvars, hdomain]
  have hapart := Domain.apart_of_vars_eq hvars
  exact ⟨P, hsource, hapart, P.encode_ne_duplicateVariable hapart [] 1⟩

end HybridPlan
