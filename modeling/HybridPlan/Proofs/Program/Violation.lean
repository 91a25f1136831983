import HybridPlan.Program.Basic
import HybridPlan.Proofs.Numbers.Order

set_option autoImplicit false

/-! # The violation of an assignment

The largest violation of a program by an assignment is zero if no bound is exceeded and every row has a
value. Otherwise it is positive, and at least what lies beyond any of the bounds. An undefined number
exceeds no bound, so that variables with undefined values do not count. -/

namespace HybridPlan

namespace Binary64

variable {v w : Binary64}

/-! ## Maxima -/

/-- Zero, or positive. -/
def Nonneg (v : Binary64) : Prop := v = Scalar.zero ∨ Scalar.lt Scalar.zero v = true

theorem isUndefined_zero : Scalar.isUndefined (Scalar.zero : Binary64) = false := by decide

theorem not_lt_self (v : Binary64) : ¬Scalar.lt v v = true := by
  rw [lt_iff]
  rintro ⟨-, -, h⟩
  exact h.false

theorem le_self (hv : Scalar.isUndefined v = false) : Scalar.le v v = true :=
  (le_iff_not_lt hv hv).2 (not_lt_self v)

theorem defined_of_pos (hv : Scalar.lt Scalar.zero v = true) : Scalar.isUndefined v = false :=
  (lt_iff.1 hv).2.1

theorem Nonneg.defined (hv : Nonneg v) : Scalar.isUndefined v = false := by
  rcases hv with rfl | hv
  · exact isUndefined_zero
  · exact defined_of_pos hv

theorem le_trans {u : Binary64} (huv : Scalar.le u v = true) (hvw : Scalar.le v w = true) :
    Scalar.le u w = true := by
  rw [le_iff] at huv hvw ⊢
  exact ⟨huv.1, hvw.2.1, huv.2.2.trans hvw.2.2⟩

theorem le_of_lt (h : Scalar.lt v w = true) : Scalar.le v w = true := by
  rw [lt_iff] at h
  exact le_iff.2 ⟨h.1, h.2.1, h.2.2.le⟩

theorem lt_of_lt_of_le {u : Binary64} (huv : Scalar.lt u v = true) (hvw : Scalar.le v w = true) :
    Scalar.lt u w = true := by
  rw [lt_iff] at huv ⊢
  rw [le_iff] at hvw
  exact ⟨huv.1, hvw.2.1, huv.2.2.trans_le hvw.2.2⟩

theorem max_of_undefined_left (hv : Scalar.isUndefined v = true) : Scalar.max v w = w := by
  simp [Scalar.max, hv]

theorem max_of_undefined_right (hv : Scalar.isUndefined v = false)
    (hw : Scalar.isUndefined w = true) : Scalar.max v w = v := by
  simp [Scalar.max, hv, hw]

theorem max_of_defined (hv : Scalar.isUndefined v = false) (hw : Scalar.isUndefined w = false) :
    Scalar.max v w = if Scalar.lt w v then v else w := by
  simp [Scalar.max, hv, hw]

theorem le_max_left (hv : Scalar.isUndefined v = false) : Scalar.le v (Scalar.max v w) = true := by
  cases hw : Scalar.isUndefined w with
  | true =>
    rw [max_of_undefined_right hv hw]
    exact le_self hv
  | false =>
    rw [max_of_defined hv hw]
    split
    · exact le_self hv
    · next h => exact (le_iff_not_lt hv hw).2 h

theorem le_max_right (hw : Scalar.isUndefined w = false) : Scalar.le w (Scalar.max v w) = true := by
  cases hv : Scalar.isUndefined v with
  | true =>
    rw [max_of_undefined_left hv]
    exact le_self hw
  | false =>
    rw [max_of_defined hv hw]
    split
    · next h => exact le_of_lt h
    · exact le_self hw

/-- A maximum is one of the two numbers. -/
theorem max_eq (v w : Binary64) : Scalar.max v w = v ∨ Scalar.max v w = w := by
  unfold Scalar.max
  split
  · exact .inr rfl
  · split
    · exact .inl rfl
    · split
      · exact .inl rfl
      · exact .inr rfl

/-- A maximum is positive if one of the numbers is; undefined ones do not count. -/
theorem lt_zero_max : Scalar.lt Scalar.zero (Scalar.max v w) = true ↔
    Scalar.lt Scalar.zero v = true ∨ Scalar.lt Scalar.zero w = true := by
  constructor
  · intro h
    rcases max_eq v w with heq | heq
    · exact .inl (heq ▸ h)
    · exact .inr (heq ▸ h)
  · rintro (h | h)
    · exact lt_of_lt_of_le h (le_max_left (defined_of_pos h))
    · exact lt_of_lt_of_le h (le_max_right (defined_of_pos h))

theorem nonneg_max_zero (v : Binary64) : Nonneg (Scalar.max v Scalar.zero) := by
  cases hv : Scalar.isUndefined v with
  | true => exact .inl (max_of_undefined_left hv)
  | false =>
    rw [max_of_defined hv isUndefined_zero]
    split
    · next h => exact .inr h
    · exact .inl rfl

theorem Nonneg.eq_zero_iff (hv : Nonneg v) :
    v = Scalar.zero ↔ ¬Scalar.lt Scalar.zero v = true := by
  constructor
  · rintro rfl
    exact not_lt_self _
  · exact hv.resolve_right

theorem Nonneg.max (hv : Nonneg v) (hw : Nonneg w) : Nonneg (Scalar.max v w) := by
  rcases max_eq v w with heq | heq
  · rwa [heq]
  · rwa [heq]

/-- The largest of some violations: zero if all of them are, and at least each of them. -/
theorem foldl_max {vs : List Binary64} (hvs : ∀ v ∈ vs, Nonneg v) (hv : Nonneg v) :
    Nonneg (vs.foldl Scalar.max v) ∧
      (Scalar.lt Scalar.zero (vs.foldl Scalar.max v) = true ↔
        Scalar.lt Scalar.zero v = true ∨ ∃ w ∈ vs, Scalar.lt Scalar.zero w = true) ∧
      Scalar.le v (vs.foldl Scalar.max v) = true ∧
      ∀ w ∈ vs, Scalar.le w (vs.foldl Scalar.max v) = true := by
  induction vs generalizing v with
  | nil => simp [hv, le_self hv.defined]
  | cons w vs ih =>
    have hw := hvs w List.mem_cons_self
    obtain ⟨hnonneg, hpos, hfirst, hall⟩ :=
      ih (fun u hu => hvs u (List.mem_cons_of_mem w hu)) (hv.max hw)
    rw [List.foldl_cons]
    refine ⟨hnonneg, ?_, le_trans (le_max_left hv.defined) hfirst, ?_⟩
    · rw [hpos, lt_zero_max, or_assoc]
      simp
    · intro u hu
      rcases List.mem_cons.1 hu with rfl | hu
      · exact le_trans (le_max_right hw.defined) hfirst
      · exact hall u hu

end Binary64

namespace Program

open Binary64 (Nonneg)

/-! ## What lies beyond a bound -/

variable {lower x upper : Binary64}

/-- A bound is exceeded. -/
def Exceeds (lower x upper : Binary64) : Prop :=
  Scalar.lt x lower = true ∨ Scalar.lt upper x = true

/-- A number lies between its bounds. -/
def Within (lower x upper : Binary64) : Prop :=
  Scalar.le lower x = true ∧ Scalar.le x upper = true

/-- A number is at least as large as what lies beyond the bounds. -/
def Covers (m lower x upper : Binary64) : Prop :=
  (Scalar.lt x lower = true → Scalar.le (lower - x) m = true) ∧
    (Scalar.lt upper x = true → Scalar.le (x - upper) m = true)

/-- Numbers that exceed no bound lie between their bounds. -/
theorem not_exceeds_iff (hx : Scalar.isUndefined x = false) (hlower : Scalar.isUndefined lower = false)
    (hupper : Scalar.isUndefined upper = false) : ¬Exceeds lower x upper ↔ Within lower x upper := by
  rw [Exceeds, not_or, Within, Binary64.le_iff_not_lt hlower hx, Binary64.le_iff_not_lt hx hupper]

theorem nonneg_excess (lower x upper : Binary64) : Nonneg (excess lower x upper) :=
  Binary64.nonneg_max_zero _

theorem lt_zero_excess : Scalar.lt Scalar.zero (excess lower x upper) = true ↔
    Exceeds lower x upper := by
  rw [excess, Binary64.lt_zero_max, Binary64.lt_zero_max, Binary64.lt_zero_sub,
    Binary64.lt_zero_sub, or_iff_left (Binary64.not_lt_self _), Exceeds]

theorem covers_excess (lower x upper : Binary64) : Covers (excess lower x upper) lower x upper := by
  have hle {v : Binary64} (h : Scalar.le v (Scalar.max (lower - x) (x - upper)) = true) :
      Scalar.le v (excess lower x upper) = true :=
    Binary64.le_trans h (Binary64.le_max_left (Binary64.le_iff.1 h).2.1)
  constructor
  · intro h
    rw [← Binary64.lt_zero_sub] at h
    exact hle (Binary64.le_max_left (Binary64.defined_of_pos h))
  · intro h
    rw [← Binary64.lt_zero_sub] at h
    exact hle (Binary64.le_max_right (Binary64.defined_of_pos h))

theorem Covers.mono {m m' : Binary64} (h : Covers m lower x upper) (hle : Scalar.le m m' = true) :
    Covers m' lower x upper :=
  ⟨fun hx => Binary64.le_trans (h.1 hx) hle, fun hx => Binary64.le_trans (h.2 hx) hle⟩

/-! ## Rows -/

variable {ts : Terms Binary64} {values : VarId → Binary64} {r : Row Binary64}

theorem nonneg_violation (ts : Terms Binary64) (values : VarId → Binary64) (r : Row Binary64) :
    Nonneg (Row.violation ts values r) := by
  unfold Row.violation
  dsimp only
  split
  · exact .inr (by decide)
  · exact nonneg_excess _ _ _

/-- A row is violated if its body has no value or a value beyond a bound. -/
theorem lt_zero_violation : Scalar.lt Scalar.zero (Row.violation ts values r) = true ↔
    Scalar.isUndefined (ts.eval values r.body) = true ∨
      Exceeds r.lower (ts.eval values r.body) r.upper := by
  unfold Row.violation
  dsimp only
  split
  · next h => exact iff_of_true (by decide) (.inl h)
  · next h => rw [lt_zero_excess, or_iff_right h]

theorem violation_of_undefined (h : Scalar.isUndefined (ts.eval values r.body) = true) :
    Row.violation ts values r = Scalar.infinity := if_pos h

theorem covers_violation (ts : Terms Binary64) (values : VarId → Binary64) (r : Row Binary64) :
    Covers (Row.violation ts values r) r.lower (ts.eval values r.body) r.upper := by
  unfold Row.violation
  dsimp only
  split
  · next h =>
    -- a body without a value is beyond no bound
    constructor
    · intro hlt
      rw [Binary64.lt_iff, h] at hlt
      cases hlt.1
    · intro hlt
      rw [Binary64.lt_iff, h] at hlt
      cases hlt.2.1
  · exact covers_excess _ _ _

/-! ## Programs -/

/-- The variables of a program and the bodies of its rows have values that are related to their
bounds, and the bodies have defined ones. -/
structure Ranges (p : Program Binary64) (values : VarId → Binary64)
    (P : Binary64 → Binary64 → Binary64 → Prop) : Prop where
  vars : ∀ ⦃i : VarId⦄ ⦃v : ProgramVar Binary64⦄, p.vars[i]? = some v →
    P v.lower (values i) v.upper
  rows : ∀ r ∈ p.rows.toList, Scalar.isUndefined (p.terms.eval values r.body) = false ∧
    P r.lower (p.terms.eval values r.body) r.upper

/-- The bounds of a program and the values of its variables are numbers. -/
structure Numeric (p : Program Binary64) (values : VarId → Binary64) : Prop where
  vars : ∀ ⦃i : VarId⦄ ⦃v : ProgramVar Binary64⦄, p.vars[i]? = some v →
    Scalar.isUndefined v.lower = false ∧ Scalar.isUndefined (values i) = false ∧
      Scalar.isUndefined v.upper = false
  rows : ∀ r ∈ p.rows.toList, Scalar.isUndefined r.lower = false ∧
    Scalar.isUndefined r.upper = false

variable {p : Program Binary64}

/-- Among numbers, values that exceed no bound lie between their bounds. -/
theorem Numeric.ranges_iff (h : p.Numeric values) :
    p.Ranges values (fun lower x upper => ¬Exceeds lower x upper) ↔ p.Ranges values Within := by
  have hvars {i : VarId} {v : ProgramVar Binary64} (hv : p.vars[i]? = some v) :
      ¬Exceeds v.lower (values i) v.upper ↔ Within v.lower (values i) v.upper := by
    obtain ⟨hlower, hx, hupper⟩ := h.vars hv
    exact not_exceeds_iff hx hlower hupper
  have hrows {r : Row Binary64} (hr : r ∈ p.rows.toList)
      (hx : Scalar.isUndefined (p.terms.eval values r.body) = false) :
      ¬Exceeds r.lower (p.terms.eval values r.body) r.upper ↔
        Within r.lower (p.terms.eval values r.body) r.upper := by
    obtain ⟨hlower, hupper⟩ := h.rows r hr
    exact not_exceeds_iff hx hlower hupper
  constructor
  · intro hranges
    refine ⟨fun i v hv => (hvars hv).1 (hranges.vars hv), fun r hr => ?_⟩
    obtain ⟨hx, hbounds⟩ := hranges.rows r hr
    exact ⟨hx, (hrows hr hx).1 hbounds⟩
  · intro hranges
    refine ⟨fun i v hv => (hvars hv).2 (hranges.vars hv), fun r hr => ?_⟩
    obtain ⟨hx, hbounds⟩ := hranges.rows r hr
    exact ⟨hx, (hrows hr hx).2 hbounds⟩

/-- The violations of the bounds of the variables and of the rows. -/
def violations (p : Program Binary64) (values : VarId → Binary64) : List Binary64 :=
  p.vars.toList.mapIdx (fun i v => excess v.lower (values i) v.upper) ++
    p.rows.toList.map (Row.violation p.terms values)

theorem mem_violations {w : Binary64} : w ∈ p.violations values ↔
    (∃ i v, p.vars[i]? = some v ∧ excess v.lower (values i) v.upper = w) ∨
      ∃ r ∈ p.rows.toList, Row.violation p.terms values r = w := by
  rw [violations, List.mem_append, List.mem_map, List.mem_mapIdx]
  refine or_congr_left ?_
  constructor
  · rintro ⟨i, hi, rfl⟩
    refine ⟨i, p.vars.toList[i], ?_, rfl⟩
    rw [← Array.getElem?_toList, List.getElem?_eq_getElem hi]
  · rintro ⟨i, v, hv, rfl⟩
    rw [← Array.getElem?_toList] at hv
    obtain ⟨hi, rfl⟩ := List.getElem?_eq_some_iff.1 hv
    exact ⟨i, hi, rfl⟩

theorem nonneg_of_mem_violations {w : Binary64} (hw : w ∈ p.violations values) : Nonneg w := by
  rcases mem_violations.1 hw with ⟨i, v, -, rfl⟩ | ⟨r, -, rfl⟩
  · exact nonneg_excess _ _ _
  · exact nonneg_violation _ _ _

/-- Something is violated unless no bound is exceeded and all rows have values. -/
theorem exists_violation_iff : (∃ w ∈ p.violations values, Scalar.lt Scalar.zero w = true) ↔
    ¬p.Ranges values fun lower x upper => ¬Exceeds lower x upper := by
  constructor
  · rintro ⟨w, hw, hpos⟩ hranges
    rcases mem_violations.1 hw with ⟨i, v, hv, rfl⟩ | ⟨r, hr, rfl⟩
    · exact hranges.vars hv (lt_zero_excess.1 hpos)
    · obtain ⟨hdefined, hbounds⟩ := hranges.rows r hr
      rcases lt_zero_violation.1 hpos with hundefined | hexceeds
      · rw [hdefined] at hundefined
        cases hundefined
      · exact hbounds hexceeds
  · intro hnot
    by_contra hnone
    refine hnot ⟨?_, ?_⟩
    · intro i v hv hexceeds
      exact hnone ⟨_, mem_violations.2 (.inl ⟨i, v, hv, rfl⟩), lt_zero_excess.2 hexceeds⟩
    · intro r hr
      have hzero : ¬Scalar.lt Scalar.zero (Row.violation p.terms values r) = true := by
        intro hpos
        exact hnone ⟨_, mem_violations.2 (.inr ⟨r, hr, rfl⟩), hpos⟩
      rw [lt_zero_violation, not_or, Bool.not_eq_true] at hzero
      exact hzero

/-- The largest violation is zero exactly if no bound is exceeded and all rows have values: if the
values and bounds are numbers, exactly if all of them lie between their bounds. Otherwise it is
positive. It is at least what lies beyond any bound, and infinite if a row has no value. -/
theorem maxViolation_exact (p : Program Binary64) (values : Array Binary64) :
    (p.maxViolation values = Scalar.zero ∨ Scalar.lt Scalar.zero (p.maxViolation values) = true) ∧
      (p.maxViolation values = Scalar.zero ↔
        p.Ranges (assignment values) fun lower x upper => ¬Exceeds lower x upper) ∧
      (p.Numeric (assignment values) →
        (p.maxViolation values = Scalar.zero ↔ p.Ranges (assignment values) Within)) ∧
      (∀ i v, p.vars[i]? = some v →
        Covers (p.maxViolation values) v.lower (assignment values i) v.upper) ∧
      ∀ r ∈ p.rows.toList,
        Covers (p.maxViolation values) r.lower (p.terms.eval (assignment values) r.body) r.upper ∧
        (Scalar.isUndefined (p.terms.eval (assignment values) r.body) = true →
          Scalar.le Scalar.infinity (p.maxViolation values) = true) := by
  have hviolations : ∀ w ∈ p.violations (assignment values), Nonneg w :=
    fun w hw => nonneg_of_mem_violations hw
  -- the program starts from zero and takes the maximum with each violation
  obtain ⟨hnonneg, hpos, -, hall⟩ := Binary64.foldl_max hviolations (.inl rfl)
  change Nonneg (p.maxViolation values) at hnonneg
  change Scalar.lt Scalar.zero (p.maxViolation values) = true ↔ _ at hpos
  change ∀ w ∈ _, Scalar.le w (p.maxViolation values) = true at hall
  have hzero : p.maxViolation values = Scalar.zero ↔
      p.Ranges (assignment values) fun lower x upper => ¬Exceeds lower x upper := by
    rw [hnonneg.eq_zero_iff, hpos, exists_violation_iff, or_iff_right (Binary64.not_lt_self _),
      not_not]
  refine ⟨hnonneg, hzero, fun h => hzero.trans h.ranges_iff, ?_, ?_⟩
  · intro i v hv
    exact (covers_excess _ _ _).mono (hall _ (mem_violations.2 (.inl ⟨i, v, hv, rfl⟩)))
  · intro r hr
    have hle := hall _ (mem_violations.2 (.inr ⟨r, hr, rfl⟩))
    refine ⟨(covers_violation _ _ _).mono hle, ?_⟩
    intro hundefined
    rwa [violation_of_undefined hundefined] at hle

/-- A variable between `0` and `10`. -/
def box : Program Binary64 where
  name := "box"
  vars := #[⟨"x", .continuous, Scalar.zero, Scalar.nat 10⟩]

theorem getElem?_box {i : VarId} {v : ProgramVar Binary64} (h : box.vars[i]? = some v) :
    i = 0 ∧ v = ⟨"x", .continuous, Scalar.zero, Scalar.nat 10⟩ := by
  obtain ⟨hi, hv⟩ := Array.getElem?_eq_some_iff.1 h
  obtain rfl : i = 0 := Nat.lt_one_iff.1 hi
  exact ⟨rfl, hv.symm⟩

/-- The variable violates its bounds at `11`, and not if its value is undefined. -/
theorem maxViolation_exact_box :
    box.Numeric (assignment #[Scalar.nat 11]) ∧
      box.maxViolation #[Scalar.nat 11] ≠ Scalar.zero ∧
      box.maxViolation #[Scalar.undefined] = Scalar.zero ∧
      ¬box.Ranges (assignment #[Scalar.undefined]) Within := by
  have hnumeric : box.Numeric (assignment #[Scalar.nat 11]) := by
    constructor
    · intro i v hv
      obtain ⟨rfl, rfl⟩ := getElem?_box hv
      decide
    · intro r hr
      cases hr
  refine ⟨hnumeric, ?_, ?_, ?_⟩
  · intro hzero
    have hranges := ((maxViolation_exact box #[Scalar.nat 11]).2.2.1 hnumeric).1 hzero
    have hwithin := hranges.vars (i := 0) rfl
    exact absurd hwithin.2 (by decide)
  · refine (maxViolation_exact box #[Scalar.undefined]).2.1.2 ⟨?_, ?_⟩
    · intro i v hv
      obtain ⟨rfl, rfl⟩ := getElem?_box hv
      unfold Exceeds
      decide
    · intro r hr
      cases hr
  · intro hranges
    have hwithin := hranges.vars (i := 0) rfl
    exact absurd hwithin.1 (by decide)

end Program

end HybridPlan
