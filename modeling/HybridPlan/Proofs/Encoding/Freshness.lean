import HybridPlan.Proofs.Encoding.Names
import HybridPlan.Proofs.Encoding.Success

set_option autoImplicit false

/-! # Names that are not taken

Each part of an encoding gives names of its own. A part does not fail for a name that is given twice if
none of its names are taken when it begins. As no two parts have names in common, this goes on from one
part to the next. -/

namespace HybridPlan

variable {α : Type} [Scalar α]

namespace Encoding

/-! ## Steps that give no names -/

/-- The same variables and rows, under the same names. -/
structure State.SameNames (s s' : State α) : Prop where
  vars : s'.program.vars = s.program.vars
  varIndex : s'.program.varIndex = s.program.varIndex
  rows : s'.program.rows = s.program.rows
  rowNames : s'.program.rowNames = s.program.rowNames

/-- The step gives no names, and is refused none. -/
structure Silent {ι : Type} (m : Encode α ι) : Prop where
  same : ∀ s i s', m.run s = .ok (i, s') → s.SameNames s'
  error : ∀ (s : State α) (e : ProgramError α), m.run s ≠ .error (.program e)

namespace Silent

variable {ι κ : Type} {m : Encode α ι} {f : ι → Encode α κ}

theorem pure (i : ι) : Silent (Pure.pure i : Encode α ι) := by
  refine ⟨fun s j s' h => ?_, fun s e h => by cases h⟩
  cases h
  exact ⟨rfl, rfl, rfl, rfl⟩

theorem throw {e : EncodingError α} (he : ∀ e', e ≠ .program e') :
    Silent (throw e : Encode α ι) := by
  refine ⟨fun s i s' h => (not_run_throw h).elim, fun s e' h => ?_⟩
  cases h
  exact he e' rfl

theorem bind (hm : Silent m) (hf : ∀ i, Silent (f i)) : Silent (m >>= f) := by
  constructor
  · intro s k s' h
    obtain ⟨i, s₁, hi, hk⟩ := run_bind_eq_ok.1 h
    have h₁ := hm.same s i s₁ hi
    have h₂ := (hf i).same s₁ k s' hk
    exact ⟨h₂.vars.trans h₁.vars, h₂.varIndex.trans h₁.varIndex, h₂.rows.trans h₁.rows,
      h₂.rowNames.trans h₁.rowNames⟩
  · intro s e h
    rw [run_bind] at h
    cases hresult : m.run s with
    | error e' =>
      rw [hresult] at h
      cases h
      exact hm.error s e hresult
    | ok r =>
      rw [hresult] at h
      exact (hf r.1).error r.2 e h

/-- Looking at the state. -/
theorem get {g : State α → Encode α κ} (h : ∀ s, Silent (g s)) : Silent (get >>= g) :=
  ⟨fun s => (h s).same s, fun s => (h s).error s⟩

theorem make (t : Terms.Make α TermId) : Silent (make t) := by
  refine ⟨fun s i s' h => ?_, fun s e h => by cases h⟩
  obtain ⟨-, rfl⟩ := make_eq_ok.1 h
  exact ⟨rfl, rfl, rfl, rfl⟩

theorem var (x : String) : Silent (var x : Encode α VarId) := by
  refine ⟨fun s i s' h => ?_, fun s e h => ?_⟩
  · obtain ⟨-, rfl⟩ := var_eq_ok.1 h
    exact ⟨rfl, rfl, rfl, rfl⟩
  · unfold Encoding.var at h
    rw [run_get] at h
    split at h <;> cases h

/-- Remembering a term. -/
theorem learn (e : ExprId) (scope : Scope) (t : TermId) :
    Silent (modify (fun s : State α => { s with known := s.known.insert (e, scope) t }) >>=
      fun _ => (Pure.pure t : Encode α TermId)) := by
  refine ⟨fun s i s' h => ?_, fun s e h => by cases h⟩
  obtain ⟨-, rfl⟩ := learn_eq_ok.1 h
  exact ⟨rfl, rfl, rfl, rfl⟩

variable {p : Problem α} {scope : Scope} {label : String} {e : ExprId}

theorem symbol (name : String) : Silent (symbol p scope label name) := by
  have hvariable (x : String) :
      Silent (Encoding.var x >>= fun v => Encoding.make (Terms.var v) : Encode α TermId) :=
    bind (var x) fun v => make _
  unfold Encoding.symbol
  split
  · exact make _
  · exact make _
  · exact hvariable _
  · split
    · exact hvariable _
    · exact throw fun e h => by cases h
  · exact throw fun e h => by cases h

theorem termBelow (n : ℕ) : Silent (termBelow p scope label n e) := by
  induction n generalizing e with
  | zero => exact make _
  | succ n ih =>
    unfold Encoding.termBelow
    refine get fun s => ?_
    split
    · exact pure _
    · split
      · exact bind (make _) fun t => learn e scope t
      · exact bind (symbol _) fun t => learn e scope t
      · exact bind ih fun x => bind (make _) fun t => learn e scope t
      · exact bind ih fun x => bind ih fun y => bind (make _) fun t => learn e scope t
      · exact bind ih fun x => bind (make _) fun t => learn e scope t
      all_goals exact throw fun e h => by cases h

theorem term : Silent (term p scope label e) := termBelow (e + 1)

end Silent

/-! ## Steps that find their names free -/

/-- The name is given to a variable, or a row, of the program. -/
def NameKind.Taken (K : NameKind) (s : State α) (x : String) : Prop :=
  match K with
  | .var => s.program.varIndex.contains x
  | .row => s.program.rowNames.contains x

/-- The error for a name that is taken. -/
def NameKind.refused (K : NameKind) (x : String) : EncodingError α :=
  match K with
  | .var => .program (.duplicateVariable x)
  | .row => .program (.duplicateRow x)

/-- If none of the names `A` are taken, the step fails for no name that is taken, and takes no others
than these. -/
def Fresh {ι : Type} (K : NameKind) (A : Set String) (m : Encode α ι) : Prop :=
  ∀ s : State α, (∀ x ∈ A, ¬K.Taken s x) →
    (∀ i s', m.run s = .ok (i, s') → ∀ x, K.Taken s' x → K.Taken s x ∨ x ∈ A) ∧
      ∀ x, m.run s ≠ .error (K.refused x)

namespace Fresh

variable {ι κ : Type} {K : NameKind} {A B : Set String} {m : Encode α ι} {f : ι → Encode α κ}

theorem mono (h : Fresh K A m) (hAB : A ⊆ B) : Fresh K B m := by
  intro s hs
  obtain ⟨hok, herror⟩ := h s fun x hx => hs x (hAB hx)
  exact ⟨fun i s' hrun x hx => (hok i s' hrun x hx).imp_right (@hAB x), herror⟩

theorem pure (i : ι) : Fresh K A (Pure.pure i : Encode α ι) := by
  refine fun s _ => ⟨fun j s' hrun x hx => ?_, fun x hrun => ?_⟩
  · cases hrun
    exact .inl hx
  · cases hrun

/-- The names of one step are still free after another one, if they have no names in common. -/
theorem bind (hm : Fresh K A m) (hf : ∀ i, Fresh K B (f i)) (hAB : Disjoint A B) :
    Fresh K (A ∪ B) (m >>= f) := by
  intro s hs
  obtain ⟨hok, herror⟩ := hm s fun x hx => hs x (.inl hx)
  cases hresult : m.run s with
  | error e =>
    rw [run_bind, hresult]
    refine ⟨fun i s' h => (by cases h), fun x h => herror x (hresult.trans ?_)⟩
    cases h
    rfl
  | ok r =>
    obtain ⟨i, s₁⟩ := r
    have hfree : ∀ x ∈ B, ¬K.Taken s₁ x := by
      intro x hx htaken
      rcases hok i s₁ hresult x htaken with htaken | hxA
      · exact hs x (.inr hx) htaken
      · exact Set.disjoint_left.1 hAB hxA hx
    obtain ⟨hok', herror'⟩ := hf i s₁ hfree
    rw [run_bind, hresult]
    refine ⟨fun k s' h x hx => ?_, herror'⟩
    rcases hok' k s' h x hx with hx | hx
    · exact (hok i s₁ hresult x hx).imp_right .inl
    · exact .inr (.inr hx)

/-- A step that takes no names comes before one that does. -/
theorem after (hm : Fresh K ∅ m) (hf : ∀ i, Fresh K A (f i)) : Fresh K A (m >>= f) := by
  have h := hm.bind hf (Set.empty_disjoint A)
  rwa [Set.empty_union] at h

/-- A step that takes no names comes behind one that does. -/
theorem before (hm : Fresh K A m) (hf : ∀ i, Fresh K ∅ (f i)) : Fresh K A (m >>= f) := by
  have h := hm.bind hf (Set.disjoint_empty A)
  rwa [Set.union_empty] at h

/-- A step that changes nothing but what is no name. -/
theorem of_keepsNames (hok : ∀ s i s', m.run s = .ok (i, s') → s.KeepsNames s')
    (herror : ∀ (s : State α) (e : ProgramError α), m.run s ≠ .error (.program e)) :
    Fresh K A m := by
  intro s _
  constructor
  · intro i s' hrun x hx
    have hkeeps := hok s i s' hrun
    cases K with
    | var => exact .inl (by simpa [NameKind.Taken, hkeeps.vars] using hx)
    | row => exact .inl (by simpa [NameKind.Taken, hkeeps.rows] using hx)
  · intro x hrun
    cases K with
    | var | row => exact herror s _ hrun

theorem throw {e : EncodingError α} (he : ∀ e', e ≠ .program e') :
    Fresh K A (throw e : Encode α ι) := by
  refine of_keepsNames (fun s i s' h => (not_run_throw h).elim) fun s e' h => ?_
  cases h
  exact he e' rfl

/-- A step that gives no names. -/
theorem of_silent (h : Silent m) : Fresh K A m :=
  of_keepsNames (fun s i s' hrun => ⟨(h.same s i s' hrun).varIndex, (h.same s i s' hrun).rowNames⟩)
    h.error

theorem make (t : Terms.Make α TermId) : Fresh K A (make t) := of_silent (Silent.make t)

theorem var (x : String) : Fresh K A (var x : Encode α VarId) := of_silent (Silent.var x)

/-- A new variable takes its name. -/
theorem addVar {name : String} (hname : K = .var → name ∈ A) (domain : VarDomain)
    (lower upper : α) : Fresh K A (extend (Program.addVar name domain lower upper)) := by
  intro s hs
  constructor
  · intro v s' h x hx
    obtain ⟨-, -, -, rfl⟩ := addVar_eq_ok.1 h
    cases K with
    | row => exact .inl hx
    | var =>
      have hx : name = x ∨ x ∈ s.program.varIndex := by
        simpa [NameKind.Taken, State.withVar, Program.withVar, Program.newVar] using hx
      rcases hx with rfl | hx
      · exact .inr (hname rfl)
      · exact .inl (by simpa [NameKind.Taken] using hx)
  · intro x h
    obtain ⟨e, q, he, heq⟩ := extend_eq_error h
    rcases Program.addVar_eq_error he with ⟨rfl, htaken⟩ | ⟨l, u, rfl⟩
    · cases K with
      | row => cases heq
      | var => exact hs name (hname rfl) htaken
    · cases K with
      | var | row => cases heq

theorem addRow {name : String} (hname : K = .row → name ∈ A) (lower : α) (body : TermId)
    (upper : α) : Fresh K A (extend (Program.addRow name lower body upper)) := by
  intro s hs
  constructor
  · intro v s' h x hx
    obtain rfl := addRow_eq_ok h
    cases K with
    | var => exact .inl hx
    | row =>
      have hx : name = x ∨ x ∈ s.program.rowNames := by
        simpa [NameKind.Taken, State.withRow, Program.withRow] using hx
      rcases hx with rfl | hx
      · exact .inr (hname rfl)
      · exact .inl (by simpa [NameKind.Taken] using hx)
  · intro x h
    obtain ⟨e, q, he, heq⟩ := extend_eq_error h
    obtain ⟨rfl, htaken⟩ := Program.addRow_eq_error he
    cases K with
    | var => cases heq
    | row => exact hs name (hname rfl) htaken

/-! ## Constraints -/

section

variable {p : Problem α} {scope : Scope} {label : String} {e : ExprId}

theorem term : Fresh K A (term p scope label e) := of_silent Silent.term

theorem comparison (op : Comparison) (x y : ExprId) :
    Fresh K (K.names (tokens label)) (comparison p scope label op x y) := by
  refine after term fun x => after term fun y => after (make _) fun body => addRow ?_ _ _ _
  rintro rfl
  exact List.prefix_refl _

theorem disjunct (position : ℕ) (item : ExprId) :
    Fresh K (K.disjunct (tokens label) position) (disjunct p scope label position item) := by
  unfold Encoding.disjunct
  split
  · split
    · exact throw fun e h => by cases h
    · -- a variable takes the name of the switch, and at the end a row takes its own
      cases K with
      | var =>
        refine before (addVar (fun _ => ?_) _ _ _) fun z => after (make _) fun z => ?_
        · rw [NameKind.disjunct, NameKind.ending, List.append_nil]
          exact tokens_switchName label position
        · refine after term fun x => after term fun y => after (make _) fun d => ?_
          refine after (make _) fun bigM => after (make _) fun lift => after (make _) fun body => ?_
          exact after (addRow (fun h => by cases h) _ _ _) fun _ => pure z
      | row =>
        refine after (addVar (fun h => by cases h) _ _ _) fun z => after (make _) fun z => ?_
        refine after term fun x => after term fun y => after (make _) fun d => ?_
        refine after (make _) fun bigM => after (make _) fun lift => after (make _) fun body => ?_
        refine before (addRow (fun _ => ?_) _ _ _) fun _ => pure z
        rw [NameKind.disjunct, NameKind.head, NameKind.ending, List.nil_append, List.append_assoc]
        exact tokens_or_numbered label position
  · exact throw fun e h => by cases h

/-- Numbered steps that have no names in common. -/
theorem disjuncts (items : List ExprId) (n : ℕ) :
    Fresh K {x | ∃ i ≥ n, x ∈ K.disjunct (tokens label) i} (disjuncts p scope label n items) := by
  induction items generalizing n with
  | nil => exact pure []
  | cons item items ih =>
    have hdisjoint : Disjoint (K.disjunct (tokens label) n)
        {x | ∃ i ≥ n + 1, x ∈ K.disjunct (tokens label) i} := by
      refine Set.disjoint_left.2 ?_
      rintro x hx ⟨i, hi, hx'⟩
      exact Set.disjoint_left.1 (NameKind.disjoint_disjunct (Nat.ne_of_lt hi)) hx hx'
    refine (bind (disjunct n item) (fun z => before (ih (n + 1)) fun zs => pure _) hdisjoint).mono ?_
    rintro x (hx | ⟨i, hi, hx⟩)
    · exact ⟨n, le_refl n, hx⟩
    · exact ⟨i, Nat.le_of_succ_le hi, hx⟩

/-- A disjunction has a row of its own besides those of its disjuncts. -/
theorem disjunction (items : List ExprId) :
    Fresh K (K.names (tokens label)) (disjunction p scope label items) := by
  have hdisjoint : Disjoint {x | ∃ i ≥ 0, x ∈ K.disjunct (tokens label) i}
      {x | K = .row ∧ tokens x = tokens label ++ ["or".toList]} := by
    refine Set.disjoint_left.2 ?_
    rintro x ⟨i, -, hx⟩ ⟨rfl, hx'⟩
    have hlength := congrArg List.length (hx.symm.trans hx')
    simp [NameKind.head, NameKind.ending] at hlength
  have hrow (h : K = .row) : s!"{label}_or" ∈
      {x | K = .row ∧ tokens x = tokens label ++ ["or".toList]} := ⟨h, tokens_or label⟩
  refine (bind (disjuncts items 0) (fun zs => after (make _) fun body => addRow hrow _ _ _)
    hdisjoint).mono ?_
  rintro x (⟨i, -, hx⟩ | ⟨rfl, hx⟩)
  · exact NameKind.disjunct_subset i hx
  · change [] ++ tokens label <+: tokens x
    rw [hx]
    exact List.prefix_append _ _

end

/-- Numbered items, whose labels have no names in common. -/
theorem labelled {f : String → ι → Encode α Unit} {label : String} {A : ℕ → Set String}
    (hA : Pairwise fun i j => Disjoint (A i) (A j)) (items : List ι)
    (hf : ∀ i, ∀ item ∈ items, Fresh K (A i) (f s!"{label}_{i}" item)) (n : ℕ) :
    Fresh K {x | ∃ i ≥ n, x ∈ A i} (labelled f label n items) := by
  induction items generalizing n with
  | nil => exact pure ()
  | cons item items ih =>
    have hdisjoint : Disjoint (A n) {x | ∃ i ≥ n + 1, x ∈ A i} := by
      refine Set.disjoint_left.2 ?_
      rintro x hx ⟨i, hi, hx'⟩
      exact Set.disjoint_left.1 (hA (Nat.ne_of_lt hi)) hx hx'
    have hrest := ih (fun i item h => hf i item (List.mem_cons_of_mem _ h)) (n + 1)
    refine (bind (hf n item List.mem_cons_self) (fun _ => hrest) hdisjoint).mono ?_
    rintro x (hx | ⟨i, hi, hx⟩)
    · exact ⟨n, le_refl n, hx⟩
    · exact ⟨i, Nat.le_of_succ_le hi, hx⟩

section

variable {p : Problem α} {scope : Scope}

/-- All names that a constraint gives begin with its label. -/
theorem constraintBelow (n : ℕ) (label : String) (e : ExprId) :
    Fresh K (K.names (tokens label)) (constraintBelow p scope n label e) := by
  induction n generalizing label e with
  | zero => exact pure ()
  | succ n ih =>
    unfold Encoding.constraintBelow
    split
    · next items _ =>
      refine (labelled (A := fun i => K.names (tokens label ++ [digits i]))
        (fun i j => NameKind.disjoint_numbered) items (fun i item _ => ?_) 0).mono ?_
      · rw [← tokens_numbered]
        exact ih _ item
      · rintro x ⟨i, -, hx⟩
        exact NameKind.names_subset (List.prefix_append _ _) hx
    · exact comparison _ _ _
    · exact disjunction _
    · exact throw fun e h => by cases h

theorem constraint (label : String) (e : ExprId) :
    Fresh K (K.names (tokens label)) (constraint p scope label e) :=
  constraintBelow (e + 1) label e

/-- The constraints of a kind are different parts. -/
theorem constraints {kind ending : String} {q : ℕ → Part} (hq : Function.Injective q)
    (hnames : ∀ i, K.names (tokens (s!"{kind}_{i}" ++ ending)) ⊆ (q i).names K)
    (cs : List Constraint) :
    Fresh K (Part.namesOf K (Set.range q)) (constraints p scope kind ending cs) := by
  have hdisjoint : Pairwise fun i j => Disjoint ((q i).names K) ((q j).names K) := by
    refine fun i j hij => Set.disjoint_left.2 fun x hx hx' => hij ?_
    exact hq (Part.eq_of_mem_names hx hx')
  refine (labelled hdisjoint cs (fun i c _ => (constraint _ c.expr).mono (hnames i)) 0).mono ?_
  rintro x ⟨i, -, hx⟩
  exact ⟨q i, ⟨i, rfl⟩, hx⟩

end

/-! ## Programs -/

/-- A step that gives the names of some parts, and then one that gives those of others. -/
theorem bind_parts {Q Q' : Set Part} (hm : Fresh K (Part.namesOf K Q) m)
    (hf : ∀ i, Fresh K (Part.namesOf K Q') (f i)) (h : Disjoint Q Q') :
    Fresh K (Part.namesOf K (Q ∪ Q')) (m >>= f) := by
  refine (bind hm hf (Part.disjoint_namesOf h)).mono ?_
  exact Set.union_subset (Part.namesOf_mono Set.subset_union_left)
    (Part.namesOf_mono Set.subset_union_right)

/-- A loop over items that have no names in common. -/
theorem loop {A : ι → Set String} {l : List ι}
    (hA : l.Pairwise fun i j => Disjoint (A i) (A j)) (hf : ∀ i ∈ l, Fresh K (A i) (f i)) :
    Fresh K {x | ∃ i ∈ l, x ∈ A i} (forIn l PUnit.unit fun i _ => do
      let _ ← f i
      Pure.pure (ForInStep.yield PUnit.unit)) := by
  induction l with
  | nil => exact pure PUnit.unit
  | cons i l ih =>
    obtain ⟨hi, hl⟩ := List.pairwise_cons.1 hA
    have hdisjoint : Disjoint (A i) {x | ∃ j ∈ l, x ∈ A j} := by
      refine Set.disjoint_left.2 ?_
      rintro x hx ⟨j, hj, hx'⟩
      exact Set.disjoint_left.1 (hi j hj) hx hx'
    have hrest := ih hl fun j hj => hf j (List.mem_cons_of_mem _ hj)
    rw [List.forIn_cons, bind_assoc]
    refine (bind (hf i List.mem_cons_self) (fun _ => hrest) hdisjoint).mono ?_
    rintro x (hx | ⟨j, hj, hx⟩)
    · exact ⟨i, List.mem_cons_self, hx⟩
    · exact ⟨j, List.mem_cons_of_mem _ hj, hx⟩

/-- The same of steps whose results are collected. -/
theorem mapM {A : ι → Set String} {l : List ι}
    (hA : l.Pairwise fun i j => Disjoint (A i) (A j)) (hf : ∀ i ∈ l, Fresh K (A i) (f i)) :
    Fresh K {x | ∃ i ∈ l, x ∈ A i} (l.mapM f) := by
  induction l with
  | nil => exact pure []
  | cons i l ih =>
    obtain ⟨hi, hl⟩ := List.pairwise_cons.1 hA
    have hdisjoint : Disjoint (A i) {x | ∃ j ∈ l, x ∈ A j} := by
      refine Set.disjoint_left.2 ?_
      rintro x hx ⟨j, hj, hx'⟩
      exact Set.disjoint_left.1 (hi j hj) hx hx'
    have hrest := ih hl fun j hj => hf j (List.mem_cons_of_mem _ hj)
    rw [List.mapM_cons]
    refine (bind (hf i List.mem_cons_self) (fun k => before hrest fun ks => pure _) hdisjoint).mono ?_
    rintro x (hx | ⟨j, hj, hx⟩)
    · exact ⟨i, List.mem_cons_self, hx⟩
    · exact ⟨j, List.mem_cons_of_mem _ hj, hx⟩

section

variable {p : Problem α}

theorem transition (t : ℕ) (x : String × ExprId) :
    Fresh K ((Part.transition x.1 t).names K) (transition p t x.1 x.2) := by
  have hrow (h : K = .row) : s!"transition_{x.1}_{t}" ∈ (Part.transition x.1 t).names K := by
    refine ⟨h, ?_⟩
    have hname : s!"transition_{x.1}_{t}" = "transition" ++ "_" ++ x.1 ++ "_" ++ toString t := rfl
    rw [hname, tokens_join, tokens_join, tokens_toString, List.append_assoc]
    exact Part.tokens_word (.transition x.1 t)
  unfold Encoding.transition
  exact after (var _) fun v => after (make _) fun v => after term fun c => after (make _) fun b =>
    addRow hrow _ _ _

theorem reward (t : ℕ) : Fresh K ((Part.reward t).names K) (reward p t) := by
  have hrow (h : K = .row) : s!"reward_{t}" ∈ (Part.reward t).names K := by
    refine ⟨h, ?_⟩
    have hname : s!"reward_{t}" = "reward" ++ "_" ++ toString t := rfl
    rw [hname, tokens_join, tokens_toString]
    exact Part.tokens_word (.reward t)
  unfold Encoding.reward
  exact after (var _) fun v => after (make _) fun v => after term fun c => after (make _) fun b =>
    addRow hrow _ _ _

theorem transitions (hnodup : (p.transitions.map (·.1)).Nodup) (t : ℕ) :
    Fresh K (Part.namesOf K (Set.range (Part.transition · t)))
      (forIn p.transitions PUnit.unit fun x _ => do
        let _ ← Encoding.transition p t x.1 x.2
        Pure.pure (ForInStep.yield PUnit.unit)) := by
  have hpairwise : p.transitions.Pairwise fun x y =>
      Disjoint ((Part.transition x.1 t).names K) ((Part.transition y.1 t).names K) := by
    refine (List.pairwise_map.1 hnodup).imp fun {x y} hne => Set.disjoint_left.2 fun z hx hy => hne ?_
    exact (Part.transition.inj (Part.eq_of_mem_names hx hy)).1
  refine (loop hpairwise fun x _ => transition t x).mono ?_
  rintro z ⟨x, -, hx⟩
  exact ⟨_, ⟨x.1, rfl⟩, hx⟩

/-- All names that are given for a stage belong to it. -/
theorem stage (hnodup : (p.transitions.map (·.1)).Nodup) (t : ℕ) :
    Fresh K (Part.namesOf K {q | q.stage? = some t}) (stage p t) := by
  have hinstantaneous : Fresh K (Part.namesOf K (Set.range (Part.instantaneous · t)))
      (Encoding.constraints p (.stage t) "instantaneous" s!"_{t}" p.domain.instantaneous) := by
    refine constraints (fun i j h => (Part.instantaneous.inj h).1) (fun i x hx => ?_) _
    rw [tokens_numbered_staged] at hx
    change x ∈ K.names (Part.instantaneous i t).label
    rwa [← Part.tokens_word]
  have htemporal : Fresh K (Part.namesOf K (Set.range (Part.temporal · t)))
      (Encoding.constraints p (.stage t) "temporal" s!"_{t}" p.domain.temporal) := by
    refine constraints (fun i j h => (Part.temporal.inj h).1) (fun i x hx => ?_) _
    rw [tokens_numbered_staged] at hx
    change x ∈ K.names (Part.temporal i t).label
    rwa [← Part.tokens_word]
  have hreward : Fresh K (Part.namesOf K {.reward t}) (Encoding.reward p t) :=
    (reward t).mono fun x hx => ⟨_, rfl, hx⟩
  unfold Encoding.stage
  refine (bind_parts hinstantaneous (fun _ => bind_parts htemporal (fun _ =>
    bind_parts (transitions hnodup t) (fun _ => hreward) ?_) ?_) ?_).mono (Part.namesOf_mono ?_)
  · simp [Set.disjoint_left]
  · simp [Set.disjoint_left]
  · simp [Set.disjoint_left]
  · rintro q (⟨i, rfl⟩ | ⟨i, rfl⟩ | ⟨x, rfl⟩ | rfl) <;> rfl

/-- The cuts from a position of the store on. -/
theorem cuts (horizon : ℕ) (cs : List (Cut α)) (k : ℕ) :
    Fresh K (Part.namesOf K {q | ∃ j ≥ k, ∃ t, q = .cut j t}) (cuts p horizon k cs) := by
  induction cs generalizing k with
  | nil => exact pure ()
  | cons c cs ih =>
    have hlater : {q | ∃ j ≥ k + 1, ∃ t, q = .cut j t} ⊆ {q | ∃ j ≥ k, ∃ t, q = Part.cut j t} :=
      fun q ⟨j, hj, t, hq⟩ => ⟨j, Nat.le_of_succ_le hj, t, hq⟩
    unfold Encoding.cuts
    split
    · have hcut : Fresh K (Part.namesOf K {.cut k c.stage})
          (Encoding.constraint p (.stage c.stage) (cutLabel k c) c.expr) := by
        refine (constraint (cutLabel k c) c.expr).mono fun x hx => ⟨_, rfl, ?_⟩
        have hname : cutLabel k c = "generated" ++ "_" ++ toString k ++ "_" ++ toString c.stage := rfl
        rw [hname, tokens_join, tokens_join, tokens_toString, tokens_toString, List.append_assoc] at hx
        change x ∈ K.names (Part.cut k c.stage).label
        rwa [← Part.tokens_word]
      refine (bind_parts hcut (fun _ => ih (k + 1)) ?_).mono (Part.namesOf_mono ?_)
      · simp
      · rintro q (rfl | hq)
        · exact ⟨k, le_refl k, _, rfl⟩
        · exact hlater hq
    · exact (ih (k + 1)).mono (Part.namesOf_mono hlater)

theorem stages (hnodup : (p.transitions.map (·.1)).Nodup) (horizon : ℕ) :
    Fresh K (Part.namesOf K {q | q.stage?.isSome}) (forIn (List.range horizon) PUnit.unit fun t _ => do
      let _ ← Encoding.stage p t
      Pure.pure (ForInStep.yield PUnit.unit)) := by
  have hpairwise : (List.range horizon).Pairwise fun t u =>
      Disjoint (Part.namesOf K {q | q.stage? = some t}) (Part.namesOf K {q | q.stage? = some u}) := by
    refine List.nodup_range.imp fun {t u} hne => Part.disjoint_namesOf ?_
    refine Set.disjoint_left.2 fun q ht hu => hne ?_
    exact Option.some.inj (ht.symm.trans hu)
  refine (loop hpairwise fun t _ => stage hnodup t).mono ?_
  rintro x ⟨t, -, q, hq, hx⟩
  exact ⟨q, Option.isSome_iff_exists.2 ⟨t, hq⟩, hx⟩

/-- The rows of a program, and their switches, have names of their own. -/
theorem rows (hnodup : (p.transitions.map (·.1)).Nodup) (horizon : ℕ) (store : CutStore α) :
    Fresh K (Part.namesOf K Set.univ) (rows p horizon store) := by
  have hinitials : Fresh K (Part.namesOf K (Set.range Part.initial))
      (Encoding.constraints p (.stage 0) "initial" "" p.domain.initials) := by
    refine constraints (fun i j h => Part.initial.inj h) (fun i x hx => ?_) _
    rw [String.append_empty, tokens_numbered] at hx
    change x ∈ K.names (Part.initial i).label
    rwa [← Part.tokens_word]
  have hgoals : Fresh K (Part.namesOf K (Set.range Part.goal))
      (Encoding.constraints p (.goal horizon) "goal" "" p.domain.goals) := by
    refine constraints (fun i j h => Part.goal.inj h) (fun i x hx => ?_) _
    rw [String.append_empty, tokens_numbered] at hx
    change x ∈ K.names (Part.goal i).label
    rwa [← Part.tokens_word]
  have hcuts : Fresh K (Part.namesOf K {q | ∃ j ≥ 0, ∃ t, q = .cut j t})
      (Encoding.cuts p horizon 0 store.items.toList) := cuts horizon _ 0
  have hend : Fresh K
      (Part.namesOf K (Set.range Part.goal ∪ {q | ∃ j ≥ 0, ∃ t, q = .cut j t})) (do
        if horizon > 0 then
          Encoding.constraints p (.goal horizon) "goal" "" p.domain.goals
        Encoding.cuts p horizon 0 store.items.toList) := by
    split
    · refine bind_parts hgoals (fun _ => hcuts) ?_
      simp [Set.disjoint_left]
    · exact hcuts.mono (Part.namesOf_mono Set.subset_union_right)
  unfold Encoding.rows
  refine (bind_parts hinitials (fun _ => bind_parts (stages hnodup horizon) (fun _ => hend) ?_)
    ?_).mono (Part.namesOf_mono (Set.subset_univ _))
  · refine Set.disjoint_left.2 ?_
    rintro q hq (⟨i, rfl⟩ | ⟨j, -, t, rfl⟩) <;> cases hq
  · refine Set.disjoint_left.2 ?_
    rintro _ ⟨i, rfl⟩ (hq | ⟨j, hj⟩ | ⟨j, -, t, hq⟩)
    · cases hq
    · cases hj
    · cases hq

end

end Fresh

end Encoding

end HybridPlan
