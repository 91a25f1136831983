import HybridPlan.Program.Basic
import HybridPlan.Proofs.Program.Term

set_option autoImplicit false

/-! # Growth of programs

A program is built by additions only: variables, terms and rows that are there stay as they are.
Every assignment that satisfies the larger program satisfies the smaller one. -/

namespace HybridPlan

variable {α : Type} [Scalar α]

/-! ## Satisfaction -/

/-- The row holds: its body has a finite value, which lies between its bounds. -/
def Row.Holds (ts : Terms α) (x : VarId → α) (r : Row α) : Prop :=
  Scalar.isFinite (ts.eval x r.body) ∧
    Scalar.le r.lower (ts.eval x r.body) ∧ Scalar.le (ts.eval x r.body) r.upper

/-- The value of a variable: within its bounds, and zero or one if it is binary. -/
structure ProgramVar.Admits (v : ProgramVar α) (x : α) : Prop where
  lower : Scalar.le v.lower x
  upper : Scalar.le x v.upper
  binary : v.domain = .binary → Scalar.eq x Scalar.zero ∨ Scalar.eq x Scalar.one

namespace Program

/-- An assignment that respects all variables and all rows. Whether integer variables have integer
values is left open. -/
structure Satisfies (p : Program α) (x : VarId → α) : Prop where
  vars : ∀ ⦃i : VarId⦄ ⦃v : ProgramVar α⦄, p.vars[i]? = some v → v.Admits (x i)
  rows : ∀ r ∈ p.rows.toList, r.Holds p.terms x

/-- A point of the feasible set. -/
structure Feasible (p : Program α) (x : VarId → α) : Prop extends p.Satisfies x where
  integer : ∀ ⦃i : VarId⦄ ⦃v : ProgramVar α⦄, p.vars[i]? = some v → v.domain = .integer →
    (Scalar.toInt? (x i)).isSome

/-! ## Well-formed programs -/

/-- A name finds the variable that has it, and no other one. -/
def Indexed (p : Program α) : Prop :=
  ∀ name v, p.varOf? name = some v ↔ ∃ x, p.vars[v]? = some x ∧ x.name = name

theorem indexed_empty (name : String) : Indexed ({ name } : Program α) := by
  intro name v
  simp [varOf?]

theorem Indexed.nodup_names {p : Program α} (h : p.Indexed) : (p.vars.toList.map (·.name)).Nodup := by
  rw [List.Nodup, List.pairwise_map, List.pairwise_iff_getElem]
  intro i j hi hj hij hname
  have hindex {k : ℕ} (hk : k < p.vars.toList.length) :
      p.varOf? p.vars.toList[k].name = some k := by
    refine (h _ k).2 ⟨p.vars.toList[k], ?_, rfl⟩
    rw [← Array.getElem?_toList, List.getElem?_eq_getElem hk]
  have heq : some i = some j := (hindex hi).symm.trans (hname ▸ hindex hj)
  exact hij.ne (Option.some.inj heq)

/-- Variables are found by their names, and the bodies of rows are terms of the program. -/
structure WellFormed (p : Program α) : Prop where
  terms : p.terms.WellFormed p.vars.size
  index : ∀ name v, p.varOf? name = some v ↔ ∃ x, p.vars[v]? = some x ∧ x.name = name
  bodies : ∀ r ∈ p.rows.toList, r.body < p.terms.size

theorem wellFormed_empty (name : String) : WellFormed ({ name } : Program α) where
  terms := Terms.wellFormed_empty
  index := indexed_empty name
  bodies _ hr := absurd hr List.not_mem_nil

theorem WellFormed.indexed {p : Program α} (h : p.WellFormed) : p.Indexed := h.index

theorem WellFormed.nodup_names {p : Program α} (h : p.WellFormed) :
    (p.vars.toList.map (·.name)).Nodup :=
  h.indexed.nodup_names

theorem WellFormed.lt_size {p : Program α} (h : p.WellFormed) {name : String} {v : VarId}
    (hv : p.varOf? name = some v) : v < p.vars.size := by
  obtain ⟨x, hx, -⟩ := (h.index name v).1 hv
  exact (Array.getElem?_eq_some_iff.1 hx).1

/-! ## Larger programs -/

/-- `q` has the variables and the terms of `p` under their numbers, and further ones behind them. -/
structure Extends (p q : Program α) : Prop where
  vars : p.vars.toList <+: q.vars.toList
  terms : p.terms ≤ q.terms

/-- `q` has what `p` has, and behind it variables with names in `N` and rows with names in `M`. -/
structure Adds (N M : Set String) (p q : Program α) : Prop where
  vars : ∃ vs, q.vars.toList = p.vars.toList ++ vs ∧ ∀ v ∈ vs, v.name ∈ N
  terms : p.terms ≤ q.terms
  rows : ∃ rs, q.rows.toList = p.rows.toList ++ rs ∧ ∀ r ∈ rs, r.name ∈ M
  objective : q.objective = p.objective
  sense : q.sense = p.sense

variable {N N' M M' : Set String} {p q r : Program α}

namespace Extends

theorem refl (p : Program α) : p.Extends p := ⟨List.prefix_refl _, le_refl _⟩

theorem trans (h : p.Extends q) (h' : q.Extends r) : p.Extends r :=
  ⟨List.IsPrefix.trans h.vars h'.vars, le_trans h.terms h'.terms⟩

theorem getElem?_vars (h : p.Extends q) {i : VarId} {v : ProgramVar α} (hi : p.vars[i]? = some v) :
    q.vars[i]? = some v := by
  obtain ⟨vs, hvs⟩ := h.vars
  rw [← Array.getElem?_toList] at hi ⊢
  rw [← hvs, List.getElem?_append_left (List.getElem?_eq_some_iff.1 hi).1, hi]

/-- Names keep their variables. -/
theorem varOf? (h : p.Extends q) (hp : p.WellFormed) (hq : q.WellFormed) {name : String} {v : VarId}
    (hv : p.varOf? name = some v) : q.varOf? name = some v := by
  obtain ⟨x, hx, hname⟩ := (hp.index name v).1 hv
  exact (hq.index name v).2 ⟨x, h.getElem?_vars hx, hname⟩

end Extends

namespace Adds

theorem refl (p : Program α) : Adds N M p p where
  vars := ⟨[], by simp, fun _ h => absurd h List.not_mem_nil⟩
  terms := le_refl p.terms
  rows := ⟨[], by simp, fun _ h => absurd h List.not_mem_nil⟩
  objective := rfl
  sense := rfl

theorem trans (hpq : Adds N M p q) (hqr : Adds N M q r) : Adds N M p r := by
  obtain ⟨vs, hvs, hN⟩ := hpq.vars
  obtain ⟨vs', hvs', hN'⟩ := hqr.vars
  obtain ⟨rs, hrs, hM⟩ := hpq.rows
  obtain ⟨rs', hrs', hM'⟩ := hqr.rows
  refine ⟨⟨vs ++ vs', by rw [hvs', hvs, List.append_assoc], ?_⟩, le_trans hpq.terms hqr.terms,
    ⟨rs ++ rs', by rw [hrs', hrs, List.append_assoc], ?_⟩, hqr.objective.trans hpq.objective,
    hqr.sense.trans hpq.sense⟩
  · exact List.forall_mem_append.2 ⟨hN, hN'⟩
  · exact List.forall_mem_append.2 ⟨hM, hM'⟩

theorem mono (h : Adds N M p q) (hN : N ⊆ N') (hM : M ⊆ M') : Adds N' M' p q := by
  obtain ⟨vs, hvs, hvsN⟩ := h.vars
  obtain ⟨rs, hrs, hrsM⟩ := h.rows
  exact ⟨⟨vs, hvs, fun v hv => hN (hvsN v hv)⟩, h.terms, ⟨rs, hrs, fun r hr => hM (hrsM r hr)⟩,
    h.objective, h.sense⟩

theorem isPrefix_vars (h : Adds N M p q) : p.vars.toList <+: q.vars.toList := by
  obtain ⟨vs, hvs, -⟩ := h.vars
  exact ⟨vs, hvs.symm⟩

theorem toExtends (h : Adds N M p q) : p.Extends q := ⟨h.isPrefix_vars, h.terms⟩

theorem isPrefix_rows (h : Adds N M p q) : p.rows.toList <+: q.rows.toList := by
  obtain ⟨rs, hrs, -⟩ := h.rows
  exact ⟨rs, hrs.symm⟩

theorem size_le (h : Adds N M p q) : p.vars.size ≤ q.vars.size := h.isPrefix_vars.length_le

theorem getElem?_vars (h : Adds N M p q) {i : VarId} {v : ProgramVar α}
    (hi : p.vars[i]? = some v) : q.vars[i]? = some v :=
  h.toExtends.getElem?_vars hi

theorem mem_rows (h : Adds N M p q) {r : Row α} (hr : r ∈ p.rows.toList) : r ∈ q.rows.toList :=
  h.isPrefix_rows.subset hr

/-- Names keep their variables. -/
theorem varOf? (h : Adds N M p q) (hp : p.WellFormed) (hq : q.WellFormed) {name : String}
    {v : VarId} (hv : p.varOf? name = some v) : q.varOf? name = some v :=
  h.toExtends.varOf? hp hq hv

/-- Terms keep their values. -/
theorem eval (h : Adds N M p q) (hp : p.WellFormed) (hq : q.WellFormed) {x y : VarId → α}
    (hxy : ∀ v < p.vars.size, y v = x v) {t : TermId} (ht : t < p.terms.size) :
    q.terms.eval y t = p.terms.eval x t :=
  Terms.eval_mono hp.terms hq.terms h.terms hxy ht

theorem holds (h : Adds N M p q) (hp : p.WellFormed) (hq : q.WellFormed) {x y : VarId → α}
    (hxy : ∀ v < p.vars.size, y v = x v) {r : Row α} (hr : r ∈ p.rows.toList) :
    r.Holds q.terms y ↔ r.Holds p.terms x := by
  unfold Row.Holds
  rw [h.eval hp hq hxy (hp.bodies r hr)]

end Adds

/-- Additions rule assignments out and let no new ones in, up to the values of new variables. -/
theorem Satisfies.of_adds (h : Adds N M p q) (hp : p.WellFormed) (hq : q.WellFormed)
    {x y : VarId → α} (hxy : ∀ v < p.vars.size, y v = x v) (hy : q.Satisfies y) :
    p.Satisfies x where
  vars i v hv := by
    rw [← hxy i (Array.getElem?_eq_some_iff.1 hv).1]
    exact hy.vars (h.getElem?_vars hv)
  rows r hr := (h.holds hp hq hxy hr).1 (hy.rows r (h.mem_rows hr))

theorem Feasible.of_adds (h : Adds N M p q) (hp : p.WellFormed) (hq : q.WellFormed)
    {x y : VarId → α} (hxy : ∀ v < p.vars.size, y v = x v) (hy : q.Feasible y) :
    p.Feasible x where
  toSatisfies := .of_adds h hp hq hxy hy.toSatisfies
  integer i v hv hdomain := by
    rw [← hxy i (Array.getElem?_eq_some_iff.1 hv).1]
    exact hy.integer (h.getElem?_vars hv) hdomain

/-- An assignment that respects what `q` has beyond `p`. -/
structure SatisfiesBeyond (p q : Program α) (x : VarId → α) : Prop where
  vars : ∀ ⦃i : VarId⦄ ⦃v : ProgramVar α⦄, p.vars.size ≤ i → q.vars[i]? = some v → v.Admits (x i)
  rows : ∀ r ∈ q.rows.toList.drop p.rows.size, r.Holds q.terms x

theorem Satisfies.beyond {x : VarId → α} (h : q.Satisfies x) : p.SatisfiesBeyond q x where
  vars _ _ _ hv := h.vars hv
  rows r hr := h.rows r (List.mem_of_mem_drop hr)

/-- What comes first among additions is respected. -/
theorem SatisfiesBeyond.left {x : VarId → α} (h : p.SatisfiesBeyond r x) (hqr : Adds N M q r)
    (hq : q.WellFormed) (hr : r.WellFormed) : p.SatisfiesBeyond q x where
  vars _ _ hi hv := h.vars hi (hqr.getElem?_vars hv)
  rows y hy := by
    refine (hqr.holds hq hr (fun _ _ => rfl) (List.mem_of_mem_drop hy)).1 (h.rows y ?_)
    obtain ⟨rs, hrs, -⟩ := hqr.rows
    rw [hrs, List.drop_append]
    exact List.mem_append_left _ hy

/-- What comes last among additions is respected. -/
theorem SatisfiesBeyond.right {x : VarId → α} (h : p.SatisfiesBeyond r x) (hpq : Adds N M p q) :
    q.SatisfiesBeyond r x where
  vars _ _ hi hv := h.vars (Nat.le_trans hpq.size_le hi) hv
  rows y hy := by
    refine h.rows y ((List.drop_subset_drop_left _ ?_) hy)
    exact hpq.isPrefix_rows.length_le

theorem SatisfiesBeyond.trans {x y : VarId → α} (h : p.SatisfiesBeyond q x)
    (h' : q.SatisfiesBeyond r y) (hpq : Adds N M p q) (hqr : Adds N' M' q r) (hq : q.WellFormed)
    (hr : r.WellFormed) (hxy : ∀ v < q.vars.size, y v = x v) : p.SatisfiesBeyond r y where
  vars i v hi hv := by
    by_cases hlt : i < q.vars.size
    · have hold : q.vars[i]? = some q.vars[i] := Array.getElem?_eq_getElem hlt
      obtain rfl := Option.some.inj (hv.symm.trans (hqr.getElem?_vars hold))
      rw [hxy i hlt]
      exact h.vars hi hold
    · exact h'.vars (Nat.le_of_not_lt hlt) hv
  rows y hy := by
    obtain ⟨rs, hrs, -⟩ := hqr.rows
    have hle : p.rows.size ≤ q.rows.toList.length := hpq.isPrefix_rows.length_le
    rw [hrs, List.drop_append_of_le_length hle] at hy
    rcases List.mem_append.1 hy with hy | hy
    · exact (hqr.holds hq hr hxy (List.mem_of_mem_drop hy)).2 (h.rows y hy)
    · refine h'.rows y ?_
      rw [hrs, List.drop_append]
      refine List.mem_append_right _ ?_
      rwa [Array.length_toList, Nat.sub_self]

/-- Additions of terms alone ask for nothing. -/
theorem Adds.satisfiesBeyond (h : Adds ∅ ∅ p q) (x : VarId → α) : p.SatisfiesBeyond q x := by
  obtain ⟨vs, hvs, hnone⟩ := h.vars
  obtain ⟨rs, hrs, hnone'⟩ := h.rows
  obtain rfl := List.eq_nil_iff_forall_not_mem.2 fun v hv => (hnone v hv).elim
  obtain rfl := List.eq_nil_iff_forall_not_mem.2 fun r hr => (hnone' r hr).elim
  rw [List.append_nil] at hvs hrs
  refine ⟨fun i v hi hv => ?_, fun r hr => ?_⟩
  · rw [← Array.getElem?_toList, hvs, Array.getElem?_toList] at hv
    exact absurd (Array.getElem?_eq_some_iff.1 hv).1 (Nat.not_lt.2 hi)
  · rw [hrs, List.drop_eq_nil_of_le (Nat.le_of_eq Array.length_toList)] at hr
    exact absurd hr List.not_mem_nil

/-- Whoever respects a program and what another one has beyond it respects the other one, if the
variables of the first one keep their values. -/
theorem SatisfiesBeyond.satisfies {x y : VarId → α} (h : p.SatisfiesBeyond q y)
    (hpq : Adds N M p q) (hp : p.WellFormed) (hq : q.WellFormed)
    (hxy : ∀ v < p.vars.size, y v = x v) (hx : p.Satisfies x) : q.Satisfies y where
  vars i v hv := by
    by_cases hi : i < p.vars.size
    · have hold : p.vars[i]? = some p.vars[i] := Array.getElem?_eq_getElem hi
      obtain rfl := Option.some.inj (hv.symm.trans (hpq.getElem?_vars hold))
      rw [hxy i hi]
      exact hx.vars hold
    · exact h.vars (Nat.le_of_not_lt hi) hv
  rows r hr := by
    obtain ⟨rs, hrs, -⟩ := hpq.rows
    rw [hrs, List.mem_append] at hr
    rcases hr with hr | hr
    · exact (hpq.holds hp hq hxy hr).2 (hx.rows r hr)
    · refine h.rows r ?_
      rw [hrs, List.drop_append]
      refine List.mem_append_right _ ?_
      rwa [Array.length_toList, Nat.sub_self]

/-! ## Additions -/

/-- The variable that an addition makes. -/
def newVar (name : String) (domain : VarDomain) (lower upper : α) : ProgramVar α where
  name := name
  domain := domain
  lower := (bounds domain lower upper).1
  upper := (bounds domain lower upper).2

/-- The program with one more variable. -/
def withVar (p : Program α) (v : ProgramVar α) : Program α :=
  { p with vars := p.vars.push v, varIndex := p.varIndex.insert v.name p.vars.size }

/-- The program with one more row. -/
def withRow (p : Program α) (r : Row α) : Program α :=
  { p with rows := p.rows.push r, rowNames := p.rowNames.insert r.name }

theorem addVar_eq_ok {name : String} {domain : VarDomain} {lower upper : α} {v : VarId} :
    (addVar name domain lower upper).run.run p = (.ok v, q) ↔
      p.varOf? name = none ∧
        ¬Scalar.lt (newVar name domain lower upper).upper (newVar name domain lower upper).lower ∧
        v = p.vars.size ∧ q = p.withVar (newVar name domain lower upper) := by
  have hrun (F : Program α → Extend α VarId) : (get >>= F).run.run p = (F p).run.run p := rfl
  have hname : p.varOf? name = none ↔ ¬p.varIndex.contains name := by simp [varOf?]
  unfold addVar
  rw [hrun, hname]
  dsimp only
  split
  · next h =>
    exact ⟨fun heq => (by cases heq), fun hq => absurd h hq.1⟩
  · next h =>
    split
    · next hempty =>
      exact ⟨fun heq => (by cases heq), fun hq => absurd hempty hq.2.1⟩
    · next hempty =>
      constructor
      · intro heq
        cases heq
        exact ⟨h, hempty, rfl, rfl⟩
      · rintro ⟨-, -, rfl, rfl⟩
        rfl

theorem addRow_eq_ok {name : String} {lower : α} {body : TermId} {upper : α} :
    (addRow name lower body upper).run.run p = (.ok (), q) ↔
      ¬p.rowNames.contains name ∧ q = p.withRow ⟨name, lower, body, upper⟩ := by
  have hrun (F : Program α → Extend α Unit) : (get >>= F).run.run p = (F p).run.run p := rfl
  unfold addRow
  rw [hrun]
  dsimp only
  split
  · next h =>
    exact ⟨fun heq => (by cases heq), fun hq => absurd h hq.1⟩
  · next h =>
    constructor
    · intro heq
      cases heq
      exact ⟨h, rfl⟩
    · rintro ⟨-, rfl⟩
      rfl

/-- A variable is refused for its name, or else for its bounds, and then nothing is changed. -/
theorem addVar_eq_error_iff {name : String} {domain : VarDomain} {lower upper : α}
    {e : ProgramError α} :
    (addVar name domain lower upper).run.run p = (.error e, q) ↔ q = p ∧
      (p.varIndex.contains name ∧ e = .duplicateVariable name ∨
        p.varOf? name = none ∧
          Scalar.lt (newVar name domain lower upper).upper (newVar name domain lower upper).lower ∧
          e = .emptyDomain name (newVar name domain lower upper).lower
            (newVar name domain lower upper).upper) := by
  have hrun (F : Program α → Extend α VarId) : (get >>= F).run.run p = (F p).run.run p := rfl
  have hname : p.varOf? name = none ↔ ¬p.varIndex.contains name := by simp [varOf?]
  unfold addVar
  rw [hrun, hname]
  dsimp only
  split
  · next h =>
    constructor
    · intro heq
      cases heq
      exact ⟨rfl, .inl ⟨h, rfl⟩⟩
    · rintro ⟨rfl, ⟨-, rfl⟩ | ⟨hnew, -⟩⟩
      · rfl
      · exact absurd h hnew
  · next h =>
    split
    · next hempty =>
      constructor
      · intro heq
        cases heq
        exact ⟨rfl, .inr ⟨h, hempty, rfl⟩⟩
      · rintro ⟨rfl, ⟨htaken, -⟩ | ⟨-, -, rfl⟩⟩
        · exact absurd htaken h
        · rfl
    · next hempty =>
      constructor
      · intro heq
        cases heq
      · rintro ⟨-, ⟨htaken, -⟩ | ⟨-, hempty', -⟩⟩
        · exact absurd htaken h
        · exact absurd hempty' hempty

theorem addVar_eq_error {name : String} {domain : VarDomain} {lower upper : α} {e : ProgramError α}
    (h : (addVar name domain lower upper).run.run p = (.error e, q)) :
    e = .duplicateVariable name ∧ p.varIndex.contains name ∨ ∃ l u, e = .emptyDomain name l u := by
  obtain ⟨-, ⟨hname, rfl⟩ | ⟨-, -, rfl⟩⟩ := addVar_eq_error_iff.1 h
  · exact .inl ⟨rfl, hname⟩
  · exact .inr ⟨_, _, rfl⟩

/-- A row is refused for its name, and then nothing is changed. -/
theorem addRow_eq_error_iff {name : String} {lower : α} {body : TermId} {upper : α}
    {e : ProgramError α} :
    (addRow name lower body upper).run.run p = (.error e, q) ↔
      q = p ∧ p.rowNames.contains name ∧ e = .duplicateRow name := by
  have hrun (F : Program α → Extend α Unit) : (get >>= F).run.run p = (F p).run.run p := rfl
  unfold addRow
  rw [hrun]
  dsimp only
  split
  · next h =>
    constructor
    · intro heq
      cases heq
      exact ⟨rfl, h, rfl⟩
    · rintro ⟨rfl, -, rfl⟩
      rfl
  · next h =>
    exact ⟨fun heq => (by cases heq), fun hq => absurd hq.2.1 h⟩

theorem addRow_eq_error {name : String} {lower : α} {body : TermId} {upper : α} {e : ProgramError α}
    (h : (addRow name lower body upper).run.run p = (.error e, q)) :
    e = .duplicateRow name ∧ p.rowNames.contains name := by
  obtain ⟨-, hname, rfl⟩ := addRow_eq_error_iff.1 h
  exact ⟨rfl, hname⟩

/-- A name that no variable has yet gets the next one. -/
theorem Indexed.withVar (hp : p.Indexed) {v : ProgramVar α} (hv : p.varOf? v.name = none) :
    (p.withVar v).Indexed := by
  intro name i
  have hindex := hp name i
  have hnone (j : VarId) (x : ProgramVar α) (hx : p.vars[j]? = some x) : x.name ≠ v.name := by
    intro hname
    rw [(hp v.name j).2 ⟨x, hx, hname⟩] at hv
    cases hv
  simp only [varOf?, Program.withVar, Std.HashMap.getElem?_insert, Array.getElem?_push] at hindex ⊢
  by_cases hname : v.name = name
  · subst hname
    by_cases hi : i = p.vars.size
    · simp [hi]
    · simp only [beq_self_eq_true, if_true, hi, if_false]
      constructor
      · intro h
        exact absurd (Option.some.inj h).symm hi
      · rintro ⟨x, hx, hxname⟩
        exact absurd hxname (hnone i x hx)
  · have hbeq : (v.name == name) = false := by simpa using hname
    by_cases hi : i = p.vars.size
    · subst hi
      simpa [hbeq, hname] using hindex
    · simpa [hbeq, hi] using hindex

theorem WellFormed.withVar (hp : p.WellFormed) {v : ProgramVar α} (hv : p.varOf? v.name = none) :
    (p.withVar v).WellFormed where
  terms := by
    refine hp.terms.mono ?_
    simp [Program.withVar]
  index := hp.indexed.withVar hv
  bodies := hp.bodies

theorem WellFormed.withRow (hp : p.WellFormed) {r : Row α} (hr : r.body < p.terms.size) :
    (p.withRow r).WellFormed where
  terms := hp.terms
  index := hp.index
  bodies r' hr' := by
    rw [Program.withRow, Array.toList_push, List.mem_append, List.mem_singleton] at hr'
    rcases hr' with hr' | rfl
    · exact hp.bodies r' hr'
    · exact hr

theorem WellFormed.withTerms (hp : p.WellFormed) {ts : Terms α} (hts : ts.WellFormed p.vars.size)
    (hle : p.terms ≤ ts) : WellFormed { p with terms := ts } where
  terms := hts
  index := hp.index
  bodies r hr := Nat.lt_of_lt_of_le (hp.bodies r hr) (Interner.size_mono hle)

theorem adds_withVar (p : Program α) {v : ProgramVar α} (hv : v.name ∈ N) :
    Adds N M p (p.withVar v) where
  vars := ⟨[v], Array.toList_push, by simpa⟩
  terms := le_refl p.terms
  rows := (Adds.refl (N := N) p).rows
  objective := rfl
  sense := rfl

theorem adds_withRow (p : Program α) {r : Row α} (hr : r.name ∈ M) :
    Adds N M p (p.withRow r) where
  vars := (Adds.refl (M := M) p).vars
  terms := le_refl p.terms
  rows := ⟨[r], Array.toList_push, by simpa⟩
  objective := rfl
  sense := rfl

theorem adds_withTerms (p : Program α) {ts : Terms α} (h : p.terms ≤ ts) :
    Adds N M p { p with terms := ts } where
  vars := (Adds.refl (M := M) p).vars
  terms := h
  rows := (Adds.refl (N := N) p).rows
  objective := rfl
  sense := rfl

end Program

end HybridPlan
