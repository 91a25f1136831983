import HybridPlan.Proofs.Domain.Reader

set_option autoImplicit false

/-! # Where the reading of a domain stops

Only the step that turns an entry into an equation reports what is wrong with an equation. So a text that is
refused for such a reason has passed everything before this step, and stops at one entry. -/

namespace HybridPlan

/-- The error is about an entry that states no equation of a declared state. -/
def DomainError.OfEquation : DomainError → Bool
  | .notEquation _ | .notDerivative _ | .derivativeOf _ _ | .notNextValue _ | .expectedOde _
  | .expectedSolution _ | .undeclaredState _ => true
  | _ => false

namespace Domain

variable {α ι κ : Type}

/-- The check reports nothing about equations. -/
def Passes (m : Except DomainError ι) : Prop := ∀ e, m = .error e → e.OfEquation = false

theorem passes_ok (i : ι) : Passes (.ok i) := fun _ h => by cases h

theorem passes_error {e : DomainError} (h : e.OfEquation = false) : Passes (.error e : Except DomainError ι) :=
  fun _ he => Except.error.inj he ▸ h

theorem Passes.bind {m : Except DomainError ι} {f : ι → Except DomainError κ} (hm : Passes m)
    (hf : ∀ i, Passes (f i)) : Passes (m >>= f) := by
  intro e h
  rcases Except.bind_eq_error.1 h with h | ⟨i, -, h⟩
  · exact hm e h
  · exact hf i e h

theorem passes_forM {f : ι → Check} {l : List ι} (hf : ∀ i, Passes (f i)) : Passes (l.forM f) := by
  induction l with
  | nil => exact passes_ok ()
  | cons i l ih => exact (hf i).bind fun _ => ih

theorem passes_mapError {ε : Type} {g : ε → DomainError} (hg : ∀ e, (g e).OfEquation = false)
    (m : Except ε ι) : Passes (m.mapError g) := by
  cases m with
  | error e => exact passes_error (hg e)
  | ok i => exact passes_ok i

variable [Scalar α]

/-! ## Checks -/

theorem passes_checkNames (seen : List String) (ns : List Name) : Passes (checkNames seen ns) := by
  induction ns generalizing seen with
  | nil => exact passes_ok ()
  | cons n ns ih =>
    unfold checkNames
    split
    · exact passes_error rfl
    · split
      · exact passes_error rfl
      · exact ih _

theorem passes_checkDeclarations (d : Domain α) : Passes d.checkDeclarations := by
  refine (passes_checkNames _ _).bind fun _ => ?_
  split
  · exact passes_error rfl
  · unfold checkDuration
    split
    · split
      · exact passes_ok ()
      · exact passes_error rfl
    · exact passes_error rfl

theorem passes_checkDistinct (seen qs : List Equation) : Passes (checkDistinct seen qs) := by
  induction qs generalizing seen with
  | nil => exact passes_ok ()
  | cons q qs ih =>
    unfold checkDistinct
    split
    · exact passes_error rfl
    · exact ih _

theorem passes_checkEquations (d : Domain α) : Passes d.checkEquations := by
  refine (passes_checkDistinct _ _).bind fun _ => ?_
  split
  · exact passes_error rfl
  · exact passes_ok ()

theorem passes_checkSymbols (d : Domain α) (p : Position) (e : ExprId) (entry : Span) :
    Passes (d.checkSymbols p e entry) := by
  refine passes_forM fun s => ?_
  unfold checkSymbol
  split
  · exact passes_error rfl
  · split
    · exact passes_ok ()
    · exact passes_error rfl
  · exact passes_ok ()

theorem passes_checkArithmetic (a : Arena α) (entry : Span) (e : ExprId) :
    Passes (checkArithmetic a entry e) := by
  unfold checkArithmetic
  split
  · exact passes_error rfl
  · exact passes_ok ()

theorem passes_checkSides (a : Arena α) (entry : Span) (x y : ExprId) : Passes (checkSides a entry x y) :=
  (passes_checkArithmetic a entry x).bind fun _ => passes_checkArithmetic a entry y

theorem passes_checkDisjunct (a : Arena α) (entry : Span) (e : ExprId) : Passes (checkDisjunct a entry e) := by
  unfold checkDisjunct
  split
  · exact passes_error rfl
  · exact passes_checkSides _ _ _ _
  · exact passes_error rfl

theorem passes_checkShapeBelow (a : Arena α) (entry : Span) (n : Nat) (e : ExprId) :
    Passes (checkShapeBelow a entry n e) := by
  induction n generalizing e with
  | zero => exact passes_ok ()
  | succ n ih =>
    unfold checkShapeBelow
    split
    · exact passes_checkSides _ _ _ _
    · exact passes_forM (passes_checkDisjunct a entry)
    · exact passes_forM ih
    · exact passes_error rfl

theorem passes_checkExpressions (d : Domain α) : Passes d.checkExpressions := by
  have hconstraint (p : Position) (c : Constraint) : Passes (d.checkConstraint p c) :=
    (passes_checkSymbols d p _ _).bind fun _ => passes_checkShapeBelow _ _ _ _
  have hformula (p : Position) (e : ExprId) (entry : Span) : Passes (d.checkFormula p e entry) :=
    (passes_checkSymbols d p _ _).bind fun _ => passes_checkArithmetic _ _ _
  refine (passes_forM (hconstraint _)).bind fun _ => (passes_forM (hconstraint _)).bind fun _ => ?_
  exact (passes_forM fun q => hformula _ _ _).bind fun _ => hformula _ _ _

/-! ## Parts -/

/-- Nor does a step of the reading, in any arena. -/
def AlwaysPasses (m : Reading α ι) : Prop := ∀ a, Passes (m.run.run a).1

theorem AlwaysPasses.pure (i : ι) : AlwaysPasses (Pure.pure i : Reading α ι) := fun _ => passes_ok i

theorem AlwaysPasses.throw {e : DomainError} (h : e.OfEquation = false) :
    AlwaysPasses (MonadExcept.throw e : Reading α ι) := fun _ => passes_error h

theorem AlwaysPasses.lift {m : Except DomainError ι} (h : Passes m) : AlwaysPasses (m : Reading α ι) := by
  cases m with
  | error e => exact .throw (h e rfl)
  | ok i => exact .pure i

theorem AlwaysPasses.bind {m : Reading α ι} {f : ι → Reading α κ} (hm : AlwaysPasses m)
    (hf : ∀ i, AlwaysPasses (f i)) : AlwaysPasses (m >>= f) := by
  intro a
  have hrun : (m >>= f).run.run a = (ExceptT.bindCont f (m.run.run a).1).run (m.run.run a).2 := rfl
  rw [hrun]
  have hfirst := hm a
  cases hr : (m.run.run a).1 with
  | error e => exact passes_error (hfirst e hr)
  | ok i => exact hf i _

theorem AlwaysPasses.mapM {f : ι → Reading α κ} {l : List ι} (hf : ∀ i, AlwaysPasses (f i)) :
    AlwaysPasses (l.mapM f) := by
  induction l with
  | nil =>
    rw [List.mapM_nil]
    exact .pure []
  | cons i l ih =>
    rw [List.mapM_cons]
    exact (hf i).bind fun _ => ih.bind fun _ => .pure _

theorem alwaysPasses_readEntries (sections : List FileSection) (kind : SectionKind) :
    AlwaysPasses (readEntries (α := α) sections kind) := by
  refine .mapM fun entry => .bind (fun a => ?_) fun _ => .pure _
  exact passes_mapError (fun _ => rfl) _

theorem alwaysPasses_readParts (settings : ReadSettings α) (sections : List FileSection) :
    AlwaysPasses (readParts settings sections) := by
  have hdeclarations {β : Type} {f : Span → Except DeclarationError β} (l : List Span) :
      AlwaysPasses (α := α) (l.mapM fun line =>
        ((f line).mapError DomainError.declaration : Except DomainError β)) :=
    .mapM fun line => .lift (passes_mapError (fun _ => rfl) _)
  have hreward (cs : List Constraint) : Passes (onlyReward cs) := by
    unfold onlyReward
    split
    · exact passes_error rfl
    · exact passes_ok _
    · exact passes_error rfl
  unfold readParts
  refine (hdeclarations _).bind fun constants => ?_
  split
  · refine (hdeclarations _).bind fun vars => ?_
    dsimp only
    split
    · exact fun a => passes_error rfl
    · refine (alwaysPasses_readEntries _ _).bind fun _ => (alwaysPasses_readEntries _ _).bind fun _ => ?_
      refine (alwaysPasses_readEntries _ _).bind fun _ => (alwaysPasses_readEntries _ _).bind fun _ => ?_
      refine (alwaysPasses_readEntries _ _).bind fun _ => (alwaysPasses_readEntries _ _).bind fun _ => ?_
      exact .bind (.lift (hreward _)) fun _ a => passes_ok _
  · exact .throw rfl

/-! ## Whole texts -/

/-- Of the entries that have to be equations, those before `c` are, and `c` is none, for the reason `e`. -/
def StopsAt (settings : ReadSettings α) (sections : List FileSection) (before : List Span) (c : Span)
    (e : DomainError) : Prop :=
  ∃ (d : Domain α) (a : Arena α) (front : List Constraint) (x : Constraint) (back : List Constraint),
    (readParts settings sections).run.run {} = (.ok (d, front ++ x :: back), a) ∧
      d.checkDeclarations = .ok () ∧ (∀ y ∈ front, ∃ q, d.equation y = .ok q) ∧ d.equation x = .error e ∧
      front.map (·.span) = before ∧ x.span = c

/-- An error about an equation is one of an entry that has to be an equation. -/
theorem exists_stopsAt {source : Source} {settings : ReadSettings α} {e : DomainError}
    (h : read source settings = .error e) (he : e.OfEquation) :
    ∃ sections before c, FileSection.split source = .ok sections ∧ StopsAt settings sections before c e := by
  have helsewhere {ι : Type} {m : Except DomainError ι} (hm : Passes m) : m ≠ .error e := fun h => by
    rw [hm e h] at he
    cases he
  rcases Except.bind_eq_error.1 h with h | ⟨sections, hsplit, h⟩
  · exact absurd h (helsewhere (passes_mapError (fun _ => rfl) _))
  rcases Except.bind_eq_error.1 h with h | ⟨⟨d, entries⟩, hparts, h⟩
  · exact absurd h (helsewhere (alwaysPasses_readParts settings sections {}))
  rcases Except.bind_eq_error.1 h with h | ⟨⟨⟩, hdeclarations, h⟩
  · exact absurd h (helsewhere (passes_checkDeclarations d))
  rcases Except.bind_eq_error.1 h with h | ⟨equations, -, h⟩
  · obtain ⟨front, x, back, rfl, hfront, hx⟩ := Except.exists_of_mapM_eq_error h
    exact ⟨sections, _, _, Except.mapError_eq_ok.1 hsplit, d, _, front, x, back, Prod.ext hparts rfl,
      hdeclarations, hfront, hx, rfl, rfl⟩
  · rcases Except.bind_eq_error.1 h with h | ⟨⟨⟩, -, h⟩
    · exact absurd h (helsewhere (passes_checkEquations _))
    · rcases Except.bind_eq_error.1 h with h | ⟨⟨⟩, -, h⟩
      · exact absurd h (helsewhere (passes_checkExpressions _))
      · cases h

end Domain

end HybridPlan
