import HybridPlan.Proofs.Domain.Declaration
import HybridPlan.Proofs.Domain.Reader
import Mathlib.Data.List.Nodup

set_option autoImplicit false

/-! # Names of a domain

A domain that was read declares every variable once, under a name that is neither empty nor reserved,
and its duration is a continuous action of each stage. So what a name refers to is the same whichever
way it is found. -/

namespace HybridPlan

variable {α : Type} [Scalar α]

/-! ## Next values -/

theorem stateOfNext?_eq_some {name state : String} :
    stateOfNext? name = some state ↔ name = nextName state ∧ state ≠ "" := by
  unfold stateOfNext? nextName
  split
  · next h =>
    rw [Text.beforeEnd?_eq_some_iff] at h
    constructor
    · rintro ⟨⟩
    · rintro ⟨rfl, hne⟩
      rw [String.toList_append, List.append_cancel_right_eq, String.toList_eq_nil_iff] at h
      exact absurd h hne
  · next h =>
    constructor
    · rintro ⟨⟩
    · rintro ⟨rfl, -⟩
      rw [String.toList_append, Text.beforeEnd?_eq_some_iff.2 rfl] at h
      cases h
  · next base hbase h =>
    rw [Text.beforeEnd?_eq_some_iff] at h
    rw [Option.some.injEq]
    constructor
    · rintro rfl
      refine ⟨?_, fun hempty => ?_⟩
      · rw [← String.toList_inj, String.toList_append, String.toList_ofList, h]
      · rw [← String.toList_eq_nil_iff, String.toList_ofList] at hempty
        exact hbase hempty
    · rintro ⟨rfl, -⟩
      rw [String.toList_append, List.append_cancel_right_eq] at h
      rw [← h, String.ofList_toList]

namespace Domain

variable {d : Domain α} {name : String} {v : Variable}

/-! ## What names refer to -/

/-- An item whose key no other one has is found by it. -/
theorem find?_key {β : Type} {l : List β} {f : β → String} {x : β} (hx : x ∈ l)
    (hl : ∀ y ∈ l, f y = f x → y = x) : l.find? (fun y => f y = f x) = some x := by
  obtain ⟨y, hy⟩ : ∃ y, l.find? (fun y => f y = f x) = some y := by
    rw [← Option.isSome_iff_exists, List.find?_isSome]
    exact ⟨x, hx, by simp⟩
  rw [hy, hl y (List.mem_of_find?_eq_some hy) (by simpa using List.find?_some hy)]

theorem name_of_declared? (h : d.declared? name = some v) : v.name.text = name := by
  simpa using List.find?_some h

theorem mem_of_declared? (h : d.declared? name = some v) : v ∈ d.vars :=
  List.mem_of_find?_eq_some h

theorem resolve?_eq_var : d.resolve? name = some (.var v) ↔ d.declared? name = some v := by
  unfold resolve?
  split
  · next w hw => rw [hw]; simp
  · next hnone =>
    rw [hnone]
    simp only [reduceCtorEq, iff_false]
    split
    · simp
    · split
      · simp
      · simp only [Option.bind_eq_bind, Option.bind_eq_some_iff, not_exists, not_and]
        intro state _ w _ h
        split at h <;> cases h

/-- What is found as a next value is not declared under the name, and belongs to a state. -/
theorem resolve?_eq_next (h : d.resolve? name = some (.next v)) :
    d.declared? name = none ∧ name = nextName v.name.text ∧ v ∈ d.vars ∧ v.role = .state := by
  unfold resolve? at h
  split at h
  · cases h
  · next hnone =>
    refine ⟨hnone, ?_⟩
    split at h
    · cases h
    · split at h
      · cases h
      · obtain ⟨state, hstate, h⟩ := Option.bind_eq_some_iff.1 h
        obtain ⟨w, hw, h⟩ := Option.bind_eq_some_iff.1 h
        split at h
        · next hrole =>
          cases h
          refine ⟨?_, mem_of_declared? hw, hrole⟩
          rw [name_of_declared? hw]
          exact (stateOfNext?_eq_some.1 hstate).1
        · cases h

/-- A number is found by a name that is not declared. -/
theorem declared?_eq_none {x : α}
    (h : d.resolve? name = some (.constant x) ∨ d.resolve? name = some .tolerance) :
    d.declared? name = none := by
  cases hdeclared : d.declared? name with
  | none => rfl
  | some v =>
    rw [resolve?_eq_var.2 hdeclared] at h
    rcases h with h | h <;> cases h

/-! ## Names in order -/

/-- What the checks ensure about the names of a domain. -/
structure Named (d : Domain α) : Prop where
  nodup : (d.vars.map (·.name.text)).Nodup
  nonempty : ∀ v ∈ d.vars, v.name.text ≠ ""
  unreserved : ∀ v ∈ d.vars, ¬isReserved v.name.text
  constants : ∀ c ∈ d.constants, ¬isReserved c.name.text
  states : ∀ v ∈ d.vars, v.role = .state → ¬v.isGlobal
  duration : ∃ v, d.declared? d.dt = some v ∧ v.role = .action ∧ v.kind = .continuous ∧ ¬v.isGlobal

/-- The names do not depend on the arena. -/
theorem Named.withArena (h : d.Named) (a : Arena α) : Named { d with arena := a } :=
  ⟨h.nodup, h.nonempty, h.unreserved, h.constants, h.states, h.duration⟩

theorem checkNames_eq_ok {seen : List String} {ns : List Name} (h : checkNames seen ns = .ok ()) :
    (ns.map (·.text)).Nodup ∧ ∀ n ∈ ns, n.text ∉ seen ∧ ¬isReserved n.text := by
  induction ns generalizing seen with
  | nil => simp
  | cons n ns ih =>
    unfold checkNames at h
    split at h
    · cases h
    · next hseen =>
      split at h
      · cases h
      · next hreserved =>
        obtain ⟨hnodup, hall⟩ := ih h
        refine ⟨?_, List.forall_mem_cons.2 ⟨⟨by simpa using hseen, hreserved⟩, fun m hm => ?_⟩⟩
        · rw [List.map_cons, List.nodup_cons]
          refine ⟨fun hmem => ?_, hnodup⟩
          obtain ⟨m, hm, hname⟩ := List.mem_map.1 hmem
          exact (hall m hm).1 (hname ▸ List.mem_cons_self)
        · exact ⟨fun hmem => (hall m hm).1 (List.mem_cons_of_mem _ hmem), (hall m hm).2⟩

theorem checkDuration_eq_ok (h : d.checkDuration = .ok ()) :
    ∃ v, d.declared? d.dt = some v ∧ v.role = .action ∧ v.kind = .continuous ∧ ¬v.isGlobal := by
  unfold checkDuration at h
  split at h
  · next v hv =>
    split at h
    · next hcheck => exact ⟨v, hv, by simpa [and_assoc] using hcheck⟩
    · cases h
  · cases h

theorem named_of_checkDeclarations (h : d.checkDeclarations = .ok ())
    (hnonempty : ∀ v ∈ d.vars, v.name.text ≠ "") : d.Named := by
  obtain ⟨⟨⟩, hnames, h⟩ := Except.bind_eq_ok.1 h
  obtain ⟨hnodup, hall⟩ := checkNames_eq_ok hnames
  rw [List.map_append, List.nodup_append, List.map_map, List.map_map] at hnodup
  split at h
  · cases h
  · next hglobal =>
    refine ⟨hnodup.2.1, hnonempty, fun v hv => ?_, fun c hc => ?_, fun v hv hrole hisGlobal => ?_,
      checkDuration_eq_ok h⟩
    · exact (hall _ (List.mem_append_right _ (List.mem_map_of_mem hv))).2
    · exact (hall _ (List.mem_append_left _ (List.mem_map_of_mem hc))).2
    · have hnone := List.find?_eq_none.1 hglobal v hv
      simp [hrole, hisGlobal] at hnone

namespace Named

variable {w : Variable}

/-- Variables with the same name are the same. -/
theorem eq_of_name (hd : d.Named) (hv : v ∈ d.vars) (hw : w ∈ d.vars)
    (h : v.name.text = w.name.text) : v = w :=
  List.inj_on_of_nodup_map hd.nodup hv hw h

theorem declared? (hd : d.Named) (hv : v ∈ d.vars) : d.declared? v.name.text = some v :=
  find?_key (f := fun w : Variable => w.name.text) hv fun _ hw h => hd.eq_of_name hw hv h

theorem stateOfNext?_nextName (hd : d.Named) (hv : v ∈ d.vars) :
    stateOfNext? (nextName v.name.text) = some v.name.text :=
  stateOfNext?_eq_some.2 ⟨rfl, hd.nonempty v hv⟩

/-- The next value of a state is found by its name. -/
theorem resolve?_nextName (hd : d.Named) (hv : v ∈ d.vars) (hrole : v.role = .state) :
    d.resolve? (nextName v.name.text) = some (.next v) := by
  have hstate := hd.stateOfNext?_nextName hv
  have hreserved : isReserved (nextName v.name.text) := by simp [isReserved, hstate]
  have hdeclared : d.declared? (nextName v.name.text) = none := by
    rw [Domain.declared?, List.find?_eq_none]
    intro w hw hname
    have hname : w.name.text = nextName v.name.text := by simpa using hname
    exact hd.unreserved w hw (hname ▸ hreserved)
  have hconstant : d.constant? (nextName v.name.text) = none := by
    rw [constant?, Option.map_eq_none_iff, List.find?_eq_none]
    intro c hc hname
    have hname : c.name.text = nextName v.name.text := by simpa using hname
    exact hd.constants c hc (hname ▸ hreserved)
  have htolerance : nextName v.name.text ≠ toleranceName := by
    intro h
    have h : stateOfNext? toleranceName = some v.name.text := h ▸ hstate
    cases h
  simp [resolve?, hdeclared, hconstant, htolerance, hstate, hd.declared? hv, hrole]

end Named

/-! ## Domains that were read -/

omit [Scalar α] in
theorem mem_withDefaults {settings : ReadSettings α} {constants : List (Constant α)} {c : Constant α}
    (h : c ∈ withDefaults settings constants) :
    c ∈ constants ∨ c.name.text = bigMName ∨ c.name.text = epsilonName := by
  rcases List.mem_append.1 h with h | h
  · exact .inl h
  · rcases List.mem_pair.1 (List.mem_of_mem_filter h) with rfl | rfl
    · exact .inr (.inl rfl)
    · exact .inr (.inr rfl)

/-- What is read is declared under names. -/
theorem isIdentifier_of_readParts {settings : ReadSettings α} {sections : List FileSection} {a b : Arena α}
    {entries : List Constraint} (h : (readParts settings sections).run.run a = (.ok (d, entries), b)) :
    (∀ c ∈ d.constants, isIdentifier c.name.text.toList) ∧ ∀ v ∈ d.vars, isIdentifier v.name.text.toList := by
  obtain ⟨constants, declared, vars, -, -, -, -, -, -, hconstants, -, hvars, -, -, -, rfl⟩ :=
    readParts_eq_ok_iff.1 h
  refine ⟨fun c hc => ?_, fun v hv => ?_⟩
  · rcases mem_withDefaults hc with hc | hc | hc
    · obtain ⟨line, -, hline⟩ := Except.exists_of_mem_mapM hconstants hc
      exact Declaration.isIdentifier_of_readConstant hline
    · rw [hc]
      decide
    · rw [hc]
      decide
  · obtain ⟨line, -, hline⟩ := Except.exists_of_mem_mapM hvars hv
    exact Declaration.isIdentifier_of_readVariable hline

theorem named_of_read {source : Source} {settings : ReadSettings α}
    (h : read source settings = .ok d) : d.Named := by
  obtain ⟨sections, d₀, entries, b, -, hparts, hvalid⟩ := read_eq_ok_iff.1 h
  obtain ⟨hdeclarations, equations, -, -, -, rfl⟩ := validate_eq_ok_iff.1 hvalid
  refine named_of_checkDeclarations hdeclarations fun v hv => ?_
  simpa using ne_nil_of_isIdentifier ((isIdentifier_of_readParts hparts).2 v hv)

end Domain

end HybridPlan
