import HybridPlan.Proofs.Domain.Names
import HybridPlan.Proofs.Encoding.Step
import HybridPlan.Simulation

set_option autoImplicit false

/-! # The values of a stage

What a stage of an extracted plan says about a name is what the solution says about the variable that
the name stands for in the stage: the start of the stage is read with the scope of the stage, and its
end with that of the end of the plan. -/

namespace HybridPlan

/-! ## Values by name -/

namespace Values

variable {α : Type} {vs : List Variable} {f : Variable → α} {v : Variable} {name : String}

theorem get?_map (hvs : ∀ w ∈ vs, w.name.text = v.name.text → w = v) (hv : v ∈ vs) :
    Values.get? (vs.map fun w => (w.name.text, f w)) v.name.text = some (f v) := by
  have hfind := Domain.find?_key (f := fun w : Variable => w.name.text) hv hvs
  rw [get?, List.find?_map, Option.map_map]
  exact congrArg (Option.map _) hfind

theorem get?_map_eq_none (hvs : ∀ w ∈ vs, w.name.text ≠ name) :
    Values.get? (vs.map fun w => (w.name.text, f w)) name = none := by
  rw [get?, List.find?_map, Option.map_map, Option.map_eq_none_iff, List.find?_eq_none]
  intro w hw
  simpa using hvs w hw

end Values

variable {α : Type} [Scalar α]

/-! ## The variables of a stage -/

namespace Domain

variable {d : Domain α} {v : Variable} {name : String}

/-- The variables that a stage lists: all but the duration. -/
def listed (d : Domain α) : List Variable :=
  d.states ++ d.decisions.filter (fun v => v.role = .action && v.name.text ≠ d.dt) ++
    d.decisions.filter (·.role = .auxiliary)

theorem mem_listed (hd : d.Named) : v ∈ d.listed ↔ v ∈ d.vars ∧ v.name.text ≠ d.dt := by
  obtain ⟨w, hw, hrole, -⟩ := hd.duration
  have hdt (hv : v ∈ d.vars) (hname : v.name.text = d.dt) : v.role = .action := by
    rw [hd.eq_of_name hv (mem_of_declared? hw) (hname.trans (name_of_declared? hw).symm), hrole]
  simp only [listed, states, decisions, List.mem_append, List.mem_filter, decide_eq_true_eq,
    Bool.and_eq_true]
  constructor
  · rintro ((⟨hv, hstate⟩ | ⟨⟨hv, -⟩, -, hname⟩) | ⟨⟨hv, -⟩, hauxiliary⟩)
    · exact ⟨hv, fun hname => by rw [hdt hv hname] at hstate; cases hstate⟩
    · exact ⟨hv, hname⟩
    · exact ⟨hv, fun hname => by rw [hdt hv hname] at hauxiliary; cases hauxiliary⟩
  · rintro ⟨hv, hname⟩
    cases h : v.role with
    | state => simp [hv]
    | action => simp [hv, hname]
    | auxiliary => simp [hv]

end Domain

/-- The values of the listed variables in a scope. -/
def valuesIn (value : String → α) (d : Domain α) (scope : Scope) : Values α :=
  d.listed.map fun v => (v.name.text, value (Encoding.varName v scope))

/-! ## Valuations -/

namespace Stage

/-- The values of names in a stage that is over: those at its start and, by the names of next values,
the states at its end. -/
def completed (p : Problem α) (s : Stage α) : Valuation α := fun name =>
  match s.valuation p s.dt name with
  | some x => some x
  | none => match p.domain.resolve? name with
    | some (.next v) => s.finish.get? v.name.text
    | _ => none

/-- The end of a stage: its last states, and its decisions. -/
def ended (s : Stage α) : Stage α := { s with start := s.finish }

/-- The values of the stage are those of the variables in a scope. -/
structure Reads (s : Stage α) (p : Problem α) (value : String → α) (scope : Scope) : Prop where
  values : s.values = valuesIn value p.domain scope
  dt : ∀ v, p.domain.declared? p.domain.dt = some v → s.dt = value (Encoding.varName v scope)

variable {p : Problem α} {s : Stage α} {value : String → α} {scope : Scope} {name : String}
  {v : Variable}

theorem Reads.value?_eq_none (hs : s.Reads p value scope) (hd : p.domain.Named)
    (h : p.domain.declared? name = none) : s.value? name = none := by
  rw [value?, hs.values]
  refine Values.get?_map_eq_none fun w hw hname => ?_
  rw [← hname, hd.declared? ((Domain.mem_listed hd).1 hw).1] at h
  cases h

theorem Reads.valuation_declared (hs : s.Reads p value scope) (hd : p.domain.Named)
    (h : p.domain.declared? name = some v) :
    s.valuation p s.dt name = some (value (Encoding.varName v scope)) := by
  have hv := Domain.mem_of_declared? h
  obtain rfl := Domain.name_of_declared? h
  unfold valuation
  by_cases hdt : v.name.text = p.domain.dt
  · rw [if_pos hdt, hs.dt v (hdt ▸ h)]
  · have hvalue : s.value? v.name.text = some (value (Encoding.varName v scope)) := by
      rw [value?, hs.values]
      refine Values.get?_map (fun w hw hname => ?_) ((Domain.mem_listed hd).2 ⟨hv, hdt⟩)
      exact hd.eq_of_name ((Domain.mem_listed hd).1 hw).1 hv hname
    rw [if_neg hdt, hvalue]

theorem Reads.valuation_undeclared (hs : s.Reads p value scope) (hd : p.domain.Named)
    (h : p.domain.declared? name = none) :
    s.valuation p s.dt name = match p.domain.resolve? name with
      | some (.constant x) => some x
      | some .tolerance => some p.feastol
      | _ => none := by
  obtain ⟨w, hw, -⟩ := hd.duration
  have hdt : name ≠ p.domain.dt := by
    rintro rfl
    rw [hw] at h
    cases h
  have hvaluation : s.valuation p s.dt name = (s.value? name).or
      (match p.domain.resolve? name with
        | some (.constant x) => some x
        | some .tolerance => some p.feastol
        | _ => none) := by
    refine (if_neg hdt).trans ?_
    cases s.value? name <;> rfl
  rw [hvaluation, hs.value?_eq_none hd h, Option.none_or]

/-- What a symbol stands for in a scope has its value in the stage, next values left aside. -/
theorem Reads.valuation_eq (hs : s.Reads p value scope) (hd : p.domain.Named)
    (hnext : ∀ v, p.domain.resolve? name ≠ some (.next v)) {r : α ⊕ String}
    (h : Encoding.reading? p scope name = some r) :
    s.valuation p s.dt name = some (r.elim id value) := by
  unfold Encoding.reading? at h
  cases hresolve : p.domain.resolve? name with
  | none => rw [hresolve] at h; cases h
  | some reference =>
    rw [hresolve] at h
    cases reference with
    | constant x =>
      cases h
      rw [hs.valuation_undeclared hd (Domain.declared?_eq_none (.inl hresolve)), hresolve]
      rfl
    | tolerance =>
      cases h
      rw [hs.valuation_undeclared hd (Domain.declared?_eq_none (x := p.feastol) (.inr hresolve)), hresolve]
      rfl
    | var v =>
      cases h
      exact hs.valuation_declared hd (Domain.resolve?_eq_var.1 hresolve)
    | next v => exact absurd hresolve (hnext v)

/-- A name that has a value in the stage stands for it in the scope. -/
theorem Reads.exists_reading (hs : s.Reads p value scope) (hd : p.domain.Named) {u : α}
    (h : s.valuation p s.dt name = some u) :
    ∃ r, Encoding.reading? p scope name = some r ∧ r.elim id value = u := by
  have hnext : ∀ v, p.domain.resolve? name ≠ some (.next v) := by
    intro v hv
    rw [hs.valuation_undeclared hd (Domain.resolve?_eq_next hv).1, hv] at h
    cases h
  cases hr : Encoding.reading? p scope name with
  | some r => exact ⟨r, rfl, Option.some.inj ((hs.valuation_eq hd hnext hr).symm.trans h)⟩
  | none =>
    unfold Encoding.reading? at hr
    cases hdeclared : p.domain.declared? name with
    | some v =>
      rw [Domain.resolve?_eq_var.2 hdeclared] at hr
      cases hr
    | none =>
      rw [hs.valuation_undeclared hd hdeclared] at h
      cases hresolve : p.domain.resolve? name with
      | none =>
        rw [hresolve] at h
        cases h
      | some reference =>
        rw [hresolve] at hr
        cases reference with
        | constant | tolerance | var => cases hr
        | next v => exact absurd hresolve (hnext v)

/-- What a symbol stands for in a stage has its value in the completed stage. -/
theorem Reads.completed_eq {t : Nat} (hs : s.Reads p value (.stage t)) (hd : p.domain.Named)
    (hfinish : s.finish = p.domain.states.map fun v =>
      (v.name.text, value (stageVar v.name.text (t + 1)))) {r : α ⊕ String}
    (h : Encoding.reading? p (.stage t) name = some r) :
    s.completed p name = some (r.elim id value) := by
  unfold completed
  by_cases hnext : ∃ v, p.domain.resolve? name = some (.next v)
  · obtain ⟨v, hv⟩ := hnext
    obtain ⟨hdeclared, -, hmem, hrole⟩ := Domain.resolve?_eq_next hv
    have hr : r = .inr (stageVar v.name.text (t + 1)) := by
      rw [Encoding.reading?, hv] at h
      exact (Option.some.inj h).symm
    rw [hs.valuation_undeclared hd hdeclared, hv, hr]
    have hstate : v ∈ p.domain.states := List.mem_filter.2 ⟨hmem, decide_eq_true hrole⟩
    change s.finish.get? v.name.text = some _
    rw [hfinish]
    exact Values.get?_map (fun w hw => hd.eq_of_name (List.mem_of_mem_filter hw) hmem) hstate
  · rw [hs.valuation_eq hd (fun v hv => hnext ⟨v, hv⟩) h]

end Stage

end HybridPlan
