import HybridPlan.Proofs.Domain.Symbols
import HybridPlan.Proofs.Encoding.Bounds
import HybridPlan.Proofs.Encoding.Extraction
import HybridPlan.Report

set_option autoImplicit false

/-! # Rows of a plan

The rows are made from what the stages of a plan list, by name. A stage lists all variables, the
duration last and the states as they are at its start, and the end of the plan lists the states once
more. So a global variable is listed again in each stage, where only its first row is kept, and each
other variable has a row of its own wherever it has a value. -/

namespace HybridPlan

variable {α : Type} [Scalar α]

/-! ## Repeated rows -/

namespace ResultRow

/-- What a row is about: a name, and a stage or boundary. -/
def key (r : ResultRow α) : String × Option Nat := (r.name, r.stage)

variable {r : ResultRow α} {rs : List (ResultRow α)} {seen : List String}

omit [Scalar α] in
theorem mem_of_mem_withoutRepeats (h : r ∈ withoutRepeats seen rs) :
    r ∈ rs ∧ (r.stage = none → r.name ∉ seen) := by
  induction rs generalizing seen with
  | nil => cases h
  | cons x rs ih =>
    rw [withoutRepeats] at h
    split at h
    · next hstage =>
      rcases List.mem_cons.1 h with rfl | h
      · exact ⟨List.mem_cons_self, fun hnone => by simp [hnone] at hstage⟩
      · obtain ⟨hmem, hseen⟩ := ih h
        exact ⟨List.mem_cons_of_mem _ hmem, hseen⟩
    · split at h
      · obtain ⟨hmem, hseen⟩ := ih h
        exact ⟨List.mem_cons_of_mem _ hmem, hseen⟩
      · next hfresh =>
        rcases List.mem_cons.1 h with rfl | h
        · exact ⟨List.mem_cons_self, fun _ => hfresh⟩
        · obtain ⟨hmem, hseen⟩ := ih h
          exact ⟨List.mem_cons_of_mem _ hmem, fun hnone hname =>
            hseen hnone (List.mem_cons_of_mem _ hname)⟩

omit [Scalar α] in
/-- Of the rows that are left out another one about the same is kept. -/
theorem exists_mem_withoutRepeats (hr : r ∈ rs) (hseen : r.stage = none → r.name ∉ seen) :
    ∃ x ∈ withoutRepeats seen rs, x.key = r.key := by
  induction rs generalizing seen with
  | nil => cases hr
  | cons x rs ih =>
    rw [withoutRepeats]
    rcases List.mem_cons.1 hr with rfl | hr
    · split
      · exact ⟨r, List.mem_cons_self, rfl⟩
      · next hstage =>
        rw [if_neg (hseen (by simpa using hstage))]
        exact ⟨r, List.mem_cons_self, rfl⟩
    · split
      · obtain ⟨y, hy, hkey⟩ := ih hr hseen
        exact ⟨y, List.mem_cons_of_mem _ hy, hkey⟩
      · next hstage =>
        split
        · exact ih hr hseen
        · by_cases hname : r.stage = none ∧ r.name = x.name
          · refine ⟨x, List.mem_cons_self, ?_⟩
            rw [key, key, hname.1, hname.2, show x.stage = none by simpa using hstage]
          · -- the row is about something else, so it is not left out because of this one
            have hseen' : r.stage = none → r.name ∉ x.name :: seen := by
              intro hnone hmem
              rcases List.mem_cons.1 hmem with h | h
              · exact hname ⟨hnone, h⟩
              · exact hseen hnone h
            obtain ⟨y, hy, hkey⟩ := ih hr hseen'
            exact ⟨y, List.mem_cons_of_mem _ hy, hkey⟩

omit [Scalar α] in
/-- If only rows of global variables are repeated, no row is. -/
theorem nodup_withoutRepeats (h : rs.Pairwise fun r x => r.stage.isSome → r.key ≠ x.key) :
    ((withoutRepeats seen rs).map key).Nodup := by
  induction rs generalizing seen with
  | nil => exact List.nodup_nil
  | cons x rs ih =>
    obtain ⟨hx, hrs⟩ := List.pairwise_cons.1 h
    rw [withoutRepeats]
    split
    · next hstage =>
      rw [List.map_cons, List.nodup_cons]
      refine ⟨?_, ih hrs⟩
      intro hmem
      obtain ⟨y, hy, hkey⟩ := List.mem_map.1 hmem
      exact hx y (mem_of_mem_withoutRepeats hy).1 hstage hkey.symm
    · next hstage =>
      split
      · exact ih hrs
      · rw [List.map_cons, List.nodup_cons]
        refine ⟨?_, ih hrs⟩
        -- a later row without a stage has another name
        intro hmem
        obtain ⟨y, hy, hkey⟩ := List.mem_map.1 hmem
        obtain ⟨hname, hnone⟩ := Prod.mk.inj hkey
        have hnone : y.stage = none := hnone.trans (by simpa using hstage)
        exact (mem_of_mem_withoutRepeats hy).2 hnone (hname ▸ List.mem_cons_self)

end ResultRow

/-! ## Listed values -/

/-- The row of a variable in a stage or at a boundary. -/
def Variable.row (v : Variable) (value : String → α) (iteration horizon t : Nat) : ResultRow α where
  name := v.name.text
  kind := v.kind
  role := v.role
  stage := if v.isGlobal then none else some t
  value := value (Encoding.varName v (.stage t))
  iteration := iteration
  horizon := horizon

namespace Domain.Named

variable {d : Domain α} (hd : d.Named) {v w : Variable} {value : String → α}
  {iteration horizon t u : Nat}
include hd

/-- Rows about the same are those of the same variable and, if it is not global, at the same time. -/
theorem eq_of_key_row (hv : v ∈ d.vars) (hw : w ∈ d.vars)
    (h : (v.row value iteration horizon t).key = (w.row value iteration horizon u).key) :
    v = w ∧ (¬v.isGlobal → t = u) := by
  obtain ⟨hname, hstage⟩ := Prod.mk.inj h
  obtain rfl := hd.eq_of_name hv hw hname
  refine ⟨rfl, fun hlocal => ?_⟩
  simpa [Variable.row, hlocal] using hstage

theorem of?_eq_row (hv : v ∈ d.vars) :
    ResultRow.of? d iteration horizon v.name.text t (value (Encoding.varName v (.stage t))) =
      some (v.row value iteration horizon t) := by
  rw [ResultRow.of?, hd.declared? hv]
  rfl

theorem filterMap_of? {vs : List Variable} (hvs : ∀ v ∈ vs, v ∈ d.vars) :
    (vs.map fun v => (v.name.text, t, value (Encoding.varName v (.stage t)))).filterMap
        (fun (name, stage, x) => ResultRow.of? d iteration horizon name stage x) =
      vs.map (·.row value iteration horizon t) := by
  rw [List.filterMap_map, ← List.filterMap_eq_map]
  exact List.filterMap_congr fun v hv => hd.of?_eq_row (hvs v hv)

/-- With the duration, every variable is listed, and none twice. -/
theorem nodup_listed (hw : d.declared? d.dt = some w) :
    (d.listed ++ [w]).Nodup ∧ ∀ v, v ∈ d.listed ++ [w] ↔ v ∈ d.vars := by
  have hvars : d.vars.Nodup := .of_map _ hd.nodup
  have hname := name_of_declared? hw
  constructor
  · -- the parts of the list differ in the roles of their variables
    rw [listed, List.nodup_append, List.nodup_append, List.nodup_append]
    refine ⟨⟨⟨hvars.filter _, (hvars.filter _).filter _, ?_⟩, (hvars.filter _).filter _, ?_⟩,
      List.nodup_singleton w, ?_⟩
    · rintro v hv _ hv' rfl
      simp only [Domain.states, decisions, List.mem_filter, decide_eq_true_eq] at hv hv'
      exact hv'.1.2 hv.2
    · rintro v hv _ hv' rfl
      simp only [Domain.states, decisions, List.mem_append, List.mem_filter, decide_eq_true_eq,
        Bool.and_eq_true] at hv hv'
      rcases hv with hv | hv
      · exact hv'.1.2 hv.2
      · cases hv.2.1.symm.trans hv'.2
    · rintro v hv _ hv' rfl
      rw [List.mem_singleton.1 hv'] at hv
      exact ((mem_listed hd).1 hv).2 hname
  · intro v
    rw [List.mem_append, List.mem_singleton, mem_listed hd]
    constructor
    · rintro (⟨hv, -⟩ | rfl)
      · exact hv
      · exact mem_of_declared? hw
    · intro hv
      by_cases hdt : v.name.text = d.dt
      · exact .inr (hd.eq_of_name hv (mem_of_declared? hw) (hdt.trans hname.symm))
      · exact .inl ⟨hv, hdt⟩

end Domain.Named

/-! ## Extracted plans -/

/-- Where a variable has a value in a plan of so many stages: a state at each boundary, any other variable
in each stage; a global variable has one value, and no stage. -/
def Variable.Due (v : Variable) (horizon : Nat) : Option Nat → Prop
  | none => v.isGlobal
  | some t => ¬v.isGlobal ∧ if v.role = .state then t ≤ horizon else t < horizon

/-- The name of the variable of a program for the value of a variable there. -/
def Variable.programName (v : Variable) : Option Nat → String
  | none => v.name.text
  | some t => stageVar v.name.text t

namespace EncodedProgram

open Encoding

variable {p : Problem α} {e : EncodedProgram α} {s : Solution α} {w : Variable} {iteration : Nat}

/-- The rows before repeated ones are left out. -/
def listedRows (e : EncodedProgram α) (p : Problem α) (s : Solution α) (w : Variable) (iteration : Nat) :
    List (ResultRow α) :=
  (List.range e.horizon).flatMap (fun t =>
      (p.domain.listed ++ [w]).map (·.row (e.valueOf s) iteration e.horizon t)) ++
    p.domain.states.map (·.row (e.valueOf s) iteration e.horizon e.horizon)

theorem entries_stageAt (hd : p.domain.Named) (hw : p.domain.declared? p.domain.dt = some w) (t : Nat) :
    (e.stageAt p s t).entries p.domain.dt = (p.domain.listed ++ [w]).map fun v =>
      (v.name.text, t, e.valueOf s (varName v (.stage t))) := by
  have hreads := e.reads_stageAt (s := s) (t := t) hd
  rw [Stage.entries, hreads.values, hreads.dt w hw, valuesIn, List.map_map, List.map_append,
    List.map_singleton, Domain.name_of_declared? hw]
  rfl

theorem finalEntries_stageAt (hd : p.domain.Named) (t : Nat) :
    (e.stageAt p s t).finalEntries = p.domain.states.map fun v =>
      (v.name.text, t + 1, e.valueOf s (varName v (.stage (t + 1)))) := by
  have hfinish : (e.stageAt p s t).finish = p.domain.states.map fun v =>
      (v.name.text, e.valueOf s (stageVar v.name.text (t + 1))) := rfl
  rw [Stage.finalEntries, hfinish, List.map_map]
  refine List.map_congr_left fun v hv => ?_
  have hlocal := hd.states v (List.mem_of_mem_filter hv) (by simpa using List.of_mem_filter hv)
  rw [varName, if_neg hlocal]
  rfl

theorem rows_eq (hd : p.domain.Named) (hw : p.domain.declared? p.domain.dt = some w)
    (hhorizon : 0 < e.horizon) : (e.extract p s).rows p.domain iteration =
      ResultRow.withoutRepeats [] (e.listedRows p s w iteration) := by
  -- the end of the plan is that of its last stage
  obtain ⟨n, hn⟩ := Nat.exists_eq_add_one.2 hhorizon
  have hlast : (e.extract p s).stages.getLast? = some (e.stageAt p s n) := by
    rw [stages_extract, hn, List.range_succ, List.map_append, List.map_singleton, List.getLast?_concat]
  have hlisted := (hd.nodup_listed hw).2
  have hstates : ∀ v ∈ p.domain.states, v ∈ p.domain.vars := fun v hv => List.mem_of_mem_filter hv
  rw [Plan.rows, Plan.entries, hlast, stages_extract, List.flatMap_map, Option.map_some, Option.getD_some,
    finalEntries_stageAt hd, List.filterMap_append, List.filterMap_flatMap, listedRows]
  congr 2
  · refine List.flatMap_congr fun t _ => ?_
    rw [show (e.extract p s).dt = p.domain.dt from rfl, entries_stageAt hd hw]
    exact hd.filterMap_of? fun v hv => (hlisted v).1 hv
  · rw [← hn]
    exact hd.filterMap_of? hstates

theorem mem_listedRows (hd : p.domain.Named) (hw : p.domain.declared? p.domain.dt = some w)
    {r : ResultRow α} : r ∈ e.listedRows p s w iteration ↔ ∃ v ∈ p.domain.vars, ∃ t,
      (if v.role = .state then t ≤ e.horizon else t < e.horizon) ∧
        v.row (e.valueOf s) iteration e.horizon t = r := by
  have hlisted := (hd.nodup_listed hw).2
  simp only [listedRows, List.mem_append, List.mem_flatMap, List.mem_map, List.mem_range]
  constructor
  · rintro (⟨t, ht, v, hv, rfl⟩ | ⟨v, hv, rfl⟩)
    · refine ⟨v, (hlisted v).1 (by simpa using hv), t, ?_, rfl⟩
      split
      · exact ht.le
      · exact ht
    · have hrole : v.role = .state := by simpa using List.of_mem_filter hv
      exact ⟨v, List.mem_of_mem_filter hv, e.horizon, by rw [if_pos hrole], rfl⟩
  · rintro ⟨v, hv, t, ht, rfl⟩
    by_cases hlt : t < e.horizon
    · exact .inl ⟨t, hlt, v, by simpa using (hlisted v).2 hv, rfl⟩
    · by_cases hrole : v.role = .state
      · rw [if_pos hrole] at ht
        obtain rfl : t = e.horizon := by omega
        exact .inr ⟨v, List.mem_filter.2 ⟨hv, by simpa using hrole⟩, rfl⟩
      · rw [if_neg hrole] at ht
        exact absurd ht hlt

/-- Only the rows of global variables are repeated. -/
theorem pairwise_listedRows (hd : p.domain.Named) (hw : p.domain.declared? p.domain.dt = some w) :
    (e.listedRows p s w iteration).Pairwise fun r x => r.stage.isSome → r.key ≠ x.key := by
  obtain ⟨hnodup, hlisted⟩ := hd.nodup_listed hw
  -- at one time the names differ, and rows of different times have different stages
  have hrows {vs : List Variable} (hvs : vs.Nodup) (hmem : ∀ v ∈ vs, v ∈ p.domain.vars) (t : Nat) :
      (vs.map (·.row (e.valueOf s) iteration e.horizon t)).Pairwise
        fun r x => r.stage.isSome → r.key ≠ x.key := by
    rw [List.pairwise_map]
    refine hvs.imp_of_mem fun hv hv' hne _ hkey => ?_
    exact hne (hd.eq_of_key_row (hmem _ hv) (hmem _ hv') hkey).1
  have htimes {v v' : Variable} (hv : v ∈ p.domain.vars) (hv' : v' ∈ p.domain.vars) {t u : Nat} (hne : t ≠ u)
      (hstage : (v.row (e.valueOf s) iteration e.horizon t).stage.isSome) :
      (v.row (e.valueOf s) iteration e.horizon t).key ≠ (v'.row (e.valueOf s) iteration e.horizon u).key := by
    intro hkey
    refine hne ((hd.eq_of_key_row hv hv' hkey).2 fun hglobal => ?_)
    simp [Variable.row, hglobal] at hstage
  have hlocal : ∀ v ∈ p.domain.listed ++ [w], v ∈ p.domain.vars := fun v hv => (hlisted v).1 hv
  have hstates : ∀ v ∈ p.domain.states, v ∈ p.domain.vars := fun v hv => List.mem_of_mem_filter hv
  rw [listedRows, List.pairwise_append, List.pairwise_flatMap]
  refine ⟨⟨fun t _ => hrows hnodup hlocal t, ?_⟩, hrows ((List.Nodup.of_map _ hd.nodup).filter _) hstates _, ?_⟩
  · refine List.nodup_range.imp fun hne r hr x hx => ?_
    obtain ⟨v, hv, rfl⟩ := List.mem_map.1 hr
    obtain ⟨v', hv', rfl⟩ := List.mem_map.1 hx
    exact htimes (hlocal v hv) (hlocal v' hv') hne
  · intro r hr x hx
    obtain ⟨t, ht, hr⟩ := List.mem_flatMap.1 hr
    obtain ⟨v, hv, rfl⟩ := List.mem_map.1 hr
    obtain ⟨v', hv', rfl⟩ := List.mem_map.1 hx
    exact htimes (hlocal v hv) (hstates v' hv') (List.mem_range.1 ht).ne

/-- What the rows are about. -/
theorem mem_keys_rows (hd : p.domain.Named) (hhorizon : 0 < e.horizon) {name : String} {stage : Option Nat} :
    (name, stage) ∈ ((e.extract p s).rows p.domain iteration).map ResultRow.key ↔
      ∃ v ∈ p.domain.vars, v.name.text = name ∧ v.Due e.horizon stage := by
  obtain ⟨w, hw, -⟩ := hd.duration
  rw [rows_eq hd hw hhorizon, List.mem_map]
  constructor
  · rintro ⟨r, hr, hkey⟩
    obtain ⟨v, hv, t, ht, rfl⟩ := (mem_listedRows hd hw).1 (ResultRow.mem_of_mem_withoutRepeats hr).1
    obtain ⟨rfl, rfl⟩ := Prod.mk.inj hkey
    refine ⟨v, hv, rfl, ?_⟩
    by_cases hglobal : v.isGlobal
    · simp [Variable.row, Variable.Due, hglobal]
    · simpa [Variable.row, Variable.Due, hglobal] using ht
  · rintro ⟨v, hv, rfl, hdue⟩
    have hexists (t : Nat) (ht : if v.role = .state then t ≤ e.horizon else t < e.horizon) :
        ∃ r ∈ ResultRow.withoutRepeats [] (e.listedRows p s w iteration),
          r.key = (v.row (e.valueOf s) iteration e.horizon t).key := by
      refine ResultRow.exists_mem_withoutRepeats ?_ fun _ => List.not_mem_nil
      exact (mem_listedRows hd hw).2 ⟨v, hv, t, ht, rfl⟩
    cases stage with
    | none =>
      -- a global variable is listed in the first stage
      have hglobal : v.isGlobal := hdue
      have hrole : v.role ≠ .state := fun hrole => hd.states v hv hrole hglobal
      obtain ⟨r, hr, hkey⟩ := hexists 0 (by rwa [if_neg hrole])
      exact ⟨r, hr, by simpa [ResultRow.key, Variable.row, hglobal] using hkey⟩
    | some t =>
      obtain ⟨hlocal, ht⟩ := hdue
      obtain ⟨r, hr, hkey⟩ := hexists t ht
      exact ⟨r, hr, by simpa [ResultRow.key, Variable.row, hlocal] using hkey⟩

/-- Each row says what its variable is and which value the solution gives to it. -/
theorem eq_of_mem_rows (hp : p.arena.WellFormed) (hd : p.domain.Named) {store : CutStore α} {horizon : Nat}
    (hhorizon : 0 < horizon) (h : encode p horizon store = .ok e) {r : ResultRow α}
    (hr : r ∈ (e.extract p s).rows p.domain iteration) : ∃ v ∈ p.domain.vars, ∃ x,
      e.program.varOf? (v.programName r.stage) = some x ∧
        r = ⟨v.name.text, v.kind, v.role, r.stage, s.value x, iteration, horizon⟩ := by
  obtain ⟨rfl, -⟩ := encode_eq_rows hp h
  obtain ⟨w, hw, -⟩ := hd.duration
  rw [rows_eq hd hw hhorizon] at hr
  obtain ⟨v, hv, t, ht, rfl⟩ := (mem_listedRows hd hw).1 (ResultRow.mem_of_mem_withoutRepeats hr).1
  have hname : varName v (.stage t) ∈ planNames p e.horizon := by
    apply varName_mem_planNames hv
    · intro hrole
      rwa [if_pos hrole] at ht
    · intro hrole
      rwa [if_neg hrole] at ht
  obtain ⟨y, hy, hyname⟩ := hname
  obtain ⟨x, hx⟩ := exists_varOf? hp h hy
  rw [hyname] at hx
  have hprogram : v.programName (v.row (e.valueOf s) iteration e.horizon t).stage = varName v (.stage t) := by
    by_cases hglobal : v.isGlobal <;> simp [Variable.row, Variable.programName, varName, hglobal, Scope.time]
  refine ⟨v, hv, x, hprogram ▸ hx, ?_⟩
  simp only [Variable.row, valueOf, Solution.valueOf?, hx, Option.map_some, Option.getD_some]

end EncodedProgram

/-! ## A state, the duration and a global variable -/

namespace Domain.Unspeakable

theorem exists_problem : ∃ P : ReadProblem Binary64, P.source = source ∧
    P.domain.vars = [duration, speed, state] ∧ P.problem.Roomy := by
  obtain ⟨a, q, r, hread, hstate⟩ := exists_domain
  have hsystem : Transitions.system (domain a [q] r) = .ok [⟨"and", q.rhs⟩] := by
    simp [Transitions.system, stateNames, states, equation?, domain, duration, speed, state, hstate]
  have hderive : (Problem.derive (domain a [q] r)).run.run a = (.ok ([("and", q.rhs)], []), a) := by
    unfold Problem.derive Transitions.resolve
    rw [hsystem]
    rfl
  have hderived : Problem.ofDomain (domain a [q] r) .default = .ok
      ⟨domain a [q] r, [("and", q.rhs)], [], Config.default.feastol, Scalar.one, Scalar.one⟩ := by
    unfold Problem.ofDomain
    rw [show (domain a [q] r).arena = a from rfl, hderive]
    rfl
  have hbigM : Scalar.lt (Scalar.one : Binary64) Scalar.zero = false := by decide +kernel
  exact ⟨⟨source, settings, _, .default, _, hread, hderived⟩, rfl, rfl, hbigM, by decide +kernel,
    by decide +kernel⟩

/-- The names begin with other letters than those that are made of other names. -/
theorem apart_of_vars_eq {d : Domain Binary64} (hvars : d.vars = [duration, speed, state]) : d.Apart := by
  have hcases {v : Variable} (hv : v ∈ d.vars) : v = duration ∨ v = speed ∨ v = state := by
    simpa [hvars] using hv
  have hne {x y : String} (h : x.toList.head? ≠ y.toList.head?) : x ≠ y := fun hxy => h (hxy ▸ rfl)
  refine ⟨fun v hv hglobal w hw hlocal t => hne ?_, fun v hv _ => hne ?_, fun v hv _ t => hne ?_,
    fun v hv ending => hne ?_⟩
  · obtain rfl : v = speed := by
      rcases hcases hv with rfl | rfl | rfl
      · cases hglobal
      · rfl
      · cases hglobal
    rw [stageVar]
    rcases hcases hw with rfl | rfl | rfl
    · simp [duration, speed, toString]
    · exact absurd rfl hlocal
    · simp [state, speed, toString]
  · rcases hcases hv with rfl | rfl | rfl <;> decide
  · rcases hcases hv with rfl | rfl | rfl <;> simp [duration, speed, state, rewardVar, toString]
  · rcases hcases hv with rfl | rfl | rfl <;> simp [duration, speed, state]

end Domain.Unspeakable

/-! ## Plans of a problem -/

/-- However much its arena grows, a problem has the variables of the domain that was read. -/
theorem ReadProblem.vars_of_grows (P : ReadProblem α) {q : Problem α} (hq : P.problem.Grows q) :
    q.domain.vars = P.domain.vars := by
  obtain ⟨hd, -⟩ := Domain.read_eq_ok Vocabulary.complete_all P.read
  obtain ⟨-, hdomain, -⟩ := Problem.ofDomain_eq_ok Vocabulary.closed_all P.derived hd trivial fun _ _ => trivial
  obtain ⟨a, rfl, -⟩ := hq
  change P.problem.domain.vars = P.domain.vars
  rw [hdomain]

/-- The rows of a plan cover it once: in the plan that any solution of a program describes, each state has
exactly one row for each boundary, each other variable that is not global, the duration included, one
for each stage, and each global variable one without a stage. There are no other rows, and each has the
value that the solution gives to the variable of the program for this name and stage. -/
theorem ReadProblem.rows_cover (P : ReadProblem α) {q : Problem α} (hq : P.problem.Grows q)
    {store : CutStore α} {horizon : Nat} (hhorizon : 0 < horizon) {e : EncodedProgram α}
    (h : encode q horizon store = .ok e) (s : Solution α) (iteration : Nat) :
    (((e.extract q s).rows q.domain iteration).map ResultRow.key).Nodup ∧
    (∀ name stage, (name, stage) ∈ ((e.extract q s).rows q.domain iteration).map ResultRow.key ↔
      ∃ v ∈ P.domain.vars, v.name.text = name ∧ v.Due horizon stage) ∧
    ∀ r ∈ (e.extract q s).rows q.domain iteration, ∃ v ∈ P.domain.vars, ∃ x,
      e.program.varOf? (v.programName r.stage) = some x ∧
        r = ⟨v.name.text, v.kind, v.role, r.stage, s.value x, iteration, horizon⟩ := by
  have hvalid := P.valid.grows hq
  have hp := hvalid.made.domain.arena
  have hnamed := hvalid.named
  obtain ⟨rfl, -⟩ := encode_eq_rows hp h
  obtain ⟨w, hw, -⟩ := hnamed.duration
  rw [← P.vars_of_grows hq]
  refine ⟨?_, ?_, ?_⟩
  · rw [EncodedProgram.rows_eq hnamed hw hhorizon]
    exact ResultRow.nodup_withoutRepeats (EncodedProgram.pairwise_listedRows hnamed hw)
  · intro name stage
    exact EncodedProgram.mem_keys_rows hnamed hhorizon
  · intro r hr
    exact EncodedProgram.eq_of_mem_rows hp hnamed hhorizon h hr

/-- Two stages with a state, the duration and a global variable, whose values are all one. -/
theorem ReadProblem.rows_cover_unspeakable : ∃ (P : ReadProblem Binary64) (e : EncodedProgram Binary64)
    (s : Solution Binary64), P.source = Domain.Unspeakable.source ∧ encode P.problem 2 {} = .ok e ∧
      (((e.extract P.problem s).rows P.problem.domain 7).map ResultRow.key).Perm
        [("Dt", some 0), ("Dt", some 1), ("g", none), ("and", some 0), ("and", some 1), ("and", some 2)] ∧
      ∀ r ∈ (e.extract P.problem s).rows P.problem.domain 7,
        r.value = Scalar.one ∧ r.iteration = 7 ∧ r.horizon = 2 := by
  obtain ⟨P, hsource, hvars, hroomy⟩ := Domain.Unspeakable.exists_problem
  have hgrows := Problem.Grows.refl P.problem
  have hapart := Domain.Unspeakable.apart_of_vars_eq ((P.vars_of_grows hgrows).trans hvars)
  have hstore : CutStore.Valid {} P.problem := by
    intro c hc
    cases hc
  obtain ⟨e, he⟩ := P.valid.encode_succeeds hapart hroomy hstore Nat.two_pos
  let s : Solution Binary64 := ⟨.replicate e.program.vars.size Scalar.one, Scalar.zero⟩
  obtain ⟨hnodup, hkeys, hrows⟩ := P.rows_cover hgrows Nat.two_pos he s 7
  refine ⟨P, e, s, hsource, he, (List.perm_ext_iff_of_nodup hnodup (by decide)).2 ?_, ?_⟩
  · rintro ⟨name, stage⟩
    rw [hkeys, hvars]
    cases stage with
    | none => simp [Variable.Due, Domain.Unspeakable.duration, Domain.Unspeakable.speed,
        Domain.Unspeakable.state, @eq_comm _ name]
    | some t =>
      have hlt : t < 2 ↔ t = 0 ∨ t = 1 := by omega
      have hle : t ≤ 2 ↔ t = 0 ∨ t = 1 ∨ t = 2 := by omega
      simp [Variable.Due, Domain.Unspeakable.duration, Domain.Unspeakable.speed,
        Domain.Unspeakable.state, hlt, hle, and_or_left, or_assoc, @eq_comm _ name]
  · intro r hr
    obtain ⟨v, -, x, hx, hrow⟩ := hrows r hr
    obtain ⟨w, hw, -⟩ := ((EncodedProgram.wellFormed P.valid.made.domain.arena he).index _ x).1 hx
    obtain ⟨hsize, -⟩ := Array.getElem?_eq_some_iff.1 hw
    have hone : s.value x = Scalar.one := by simp [Solution.value, s, hsize]
    rw [hrow, hone]
    exact ⟨rfl, rfl, rfl⟩

end HybridPlan
