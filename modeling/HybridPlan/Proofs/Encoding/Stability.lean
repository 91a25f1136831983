import HybridPlan.Proofs.Encoding.Declaration
import HybridPlan.Proofs.Problem

set_option autoImplicit false

/-! # Encoding in a larger arena

The encoding of an expression looks at the nodes of the expression only, and these stay as they are
when the arena grows. So a problem that has grown is encoded like before, with further cuts behind
those that were there. -/

namespace HybridPlan

variable {α : Type} [Scalar α] {V : Vocabulary α}

namespace Encoding

variable {p : Problem α} {a : Arena α} (hle : p.arena ≤ a) {scope : Scope} {label : String}
include hle

/-! ## Expressions -/

theorem node_withArena {e : ExprId} (he : p.arena.Uses V e) :
    (p.withArena a).arena.node e = p.arena.node e :=
  Arena.node_mono hle he.lt_size

theorem termBelow_withArena {n : Nat} {e : ExprId} (he : p.arena.Uses V e) :
    termBelow (p.withArena a) scope label n e = termBelow p scope label n e := by
  induction n generalizing e with
  | zero => rfl
  | succ n ih =>
    have hoperand {x : ExprId} (hx : x ∈ (p.arena.node e).operands) :
        termBelow (p.withArena a) scope label n x = termBelow p scope label n x :=
      ih (he.operand hx)
    unfold termBelow
    rw [node_withArena hle he]
    cases hnode : p.arena.node e with
    | num c => rfl
    | sym name => rfl
    | neg x => simp only [hoperand (show x ∈ _ by simp [hnode, Node.operands])]
    | arith op x y =>
      simp only [hoperand (show x ∈ _ by simp [hnode, Node.operands]),
        hoperand (show y ∈ _ by simp [hnode, Node.operands])]
    | call f args =>
      cases f with
      | dd => rfl
      | elementary f =>
        rcases args with _ | ⟨x, _ | _⟩
        · rfl
        · simp only [hoperand (show x ∈ _ by simp [hnode, Node.operands])]
        · rfl
    | compare op x y => rfl
    | join c items => rfl

theorem term_withArena {e : ExprId} (he : p.arena.Uses V e) :
    term (p.withArena a) scope label e = term p scope label e :=
  termBelow_withArena hle he

theorem comparison_withArena {op : Comparison} {x y : ExprId} (hx : p.arena.Uses V x)
    (hy : p.arena.Uses V y) :
    comparison (p.withArena a) scope label op x y = comparison p scope label op x y := by
  unfold comparison
  rw [term_withArena hle hx, term_withArena hle hy]
  rfl

theorem disjunct_withArena {i : Nat} {item : ExprId} (hitem : p.arena.Uses V item) :
    disjunct (p.withArena a) scope label i item = disjunct p scope label i item := by
  unfold disjunct
  rw [node_withArena hle hitem]
  cases hnode : p.arena.node item with
  | compare op x y =>
    have hx : p.arena.Uses V x := hitem.operand (by simp [hnode, Node.operands])
    have hy : p.arena.Uses V y := hitem.operand (by simp [hnode, Node.operands])
    cases op with
    | eq => rfl
    | le | lt | ge | gt =>
      simp only [Inequality.of?, term_withArena hle hx, term_withArena hle hy]
      rfl
  | num | sym | neg | arith | call | join => rfl

theorem disjuncts_withArena {i : Nat} {items : List ExprId}
    (hitems : ∀ x ∈ items, p.arena.Uses V x) :
    disjuncts (p.withArena a) scope label i items = disjuncts p scope label i items := by
  induction items generalizing i with
  | nil => rfl
  | cons item items ih =>
    rw [List.forall_mem_cons] at hitems
    unfold disjuncts
    rw [disjunct_withArena hle hitems.1, ih hitems.2]

omit hle in
theorem labelled_congr {ι : Type} {f g : String → ι → Encode α Unit} {l : List ι} {i : Nat}
    (h : ∀ x ∈ l, ∀ label, f label x = g label x) : labelled f label i l = labelled g label i l := by
  induction l generalizing i with
  | nil => rfl
  | cons x l ih =>
    rw [List.forall_mem_cons] at h
    unfold labelled
    rw [h.1, ih h.2]

theorem constraintBelow_withArena {n : Nat} {e : ExprId} (he : p.arena.Uses V e) :
    constraintBelow (p.withArena a) scope n label e = constraintBelow p scope n label e := by
  induction n generalizing label e with
  | zero => rfl
  | succ n ih =>
    have hoperand : ∀ x ∈ (p.arena.node e).operands, p.arena.Uses V x := fun x => he.operand
    unfold constraintBelow
    rw [node_withArena hle he]
    cases hnode : p.arena.node e with
    | compare op x y =>
      exact comparison_withArena hle (hoperand x (by simp [hnode, Node.operands]))
        (hoperand y (by simp [hnode, Node.operands]))
    | join c items =>
      have hitems : ∀ x ∈ items, p.arena.Uses V x := by
        rw [hnode] at hoperand
        exact hoperand
      cases c with
      | and => exact labelled_congr fun x hx label => ih (hitems x hx)
      | or =>
        change disjunction _ _ _ _ = disjunction _ _ _ _
        unfold disjunction
        rw [disjuncts_withArena hle hitems]
    | num | sym | neg | arith | call => rfl

theorem constraint_withArena {e : ExprId} (he : p.arena.Uses V e) :
    constraint (p.withArena a) scope label e = constraint p scope label e :=
  constraintBelow_withArena hle he

/-! ## Programs -/

theorem constraints_withArena {kind ending : String} {cs : List Constraint}
    (hcs : ∀ c ∈ cs, p.arena.Uses V c.expr) :
    constraints (p.withArena a) scope kind ending cs = constraints p scope kind ending cs :=
  labelled_congr fun c hc _ => constraint_withArena hle (hcs c hc)

theorem cuts_withArena {horizon k : Nat} {cs : List (Cut α)}
    (hcs : ∀ c ∈ cs, p.arena.Uses V c.expr) :
    cuts (p.withArena a) horizon k cs = cuts p horizon k cs := by
  induction cs generalizing k with
  | nil => rfl
  | cons c cs ih =>
    rw [List.forall_mem_cons] at hcs
    unfold cuts
    rw [constraint_withArena hle hcs.1, ih hcs.2]

omit hle in
theorem cuts_append {horizon k : Nat} {cs ds : List (Cut α)} :
    cuts p horizon k (cs ++ ds) =
      cuts p horizon k cs >>= fun _ => cuts p horizon (k + cs.length) ds := by
  induction cs generalizing k with
  | nil => rfl
  | cons c cs ih =>
    rw [List.cons_append, cuts, cuts, ih, List.length_cons, Nat.add_right_comm, Nat.add_assoc]
    split
    · simp only [bind_assoc]
    · rfl

omit hle in
theorem for_congr {ι : Type} {f g : ι → PUnit → Encode α (ForInStep PUnit)} {l : List ι}
    (h : ∀ i ∈ l, f i = g i) : forIn l PUnit.unit f = forIn l PUnit.unit g := by
  induction l with
  | nil => rfl
  | cons i l ih =>
    rw [List.forall_mem_cons] at h
    rw [List.forIn_cons, List.forIn_cons, h.1]
    refine bind_congr fun r => ?_
    cases r with
    | done u => rfl
    | yield u => exact ih h.2

theorem transition_withArena {t : Nat} {x : String × ExprId} (hx : p.arena.Uses V x.2) :
    transition (p.withArena a) t x.1 x.2 = transition p t x.1 x.2 := by
  unfold transition
  rw [term_withArena hle hx]

theorem reward_withArena {t : Nat} (h : p.arena.Uses V p.domain.reward.expr) :
    reward (p.withArena a) t = reward p t := by
  unfold reward
  change (do
    let earned ← var (rewardVar t)
    let earned ← make (Terms.var earned)
    let value ← term (p.withArena a) (.stage t) "reward" p.domain.reward.expr
    let body ← make (Terms.sub earned value)
    extend (Program.addRow s!"reward_{t}" Scalar.zero body Scalar.zero)) = _
  rw [term_withArena hle h]

theorem stage_withArena (hp : p.MadeOf V) (t : Nat) :
    stage (p.withArena a) t = stage p t := by
  have hformula : ∀ c ∈ p.domain.formulas, p.arena.Uses V c.expr := hp.domain.formulas
  have hinstantaneous : (p.withArena a).domain.instantaneous = p.domain.instantaneous := rfl
  have htemporal : (p.withArena a).domain.temporal = p.domain.temporal := rfl
  have htransitions : (p.withArena a).transitions = p.transitions := rfl
  unfold stage
  rw [hinstantaneous, htemporal, htransitions,
    constraints_withArena hle fun c hc => hformula c (by simp [Domain.formulas, hc]),
    constraints_withArena hle fun c hc => hformula c (by simp [Domain.formulas, hc]),
    reward_withArena hle (hformula _ (by simp [Domain.formulas]))]
  refine bind_congr fun _ => bind_congr fun _ => ?_
  congr 1
  refine for_congr fun x hx => funext fun _ => ?_
  obtain ⟨state, closed⟩ := x
  have htransition : transition (p.withArena a) t state closed = transition p t state closed :=
    transition_withArena (x := (state, closed)) hle (hp.transitions _ hx)
  dsimp only
  rw [htransition]

/-- Further cuts come behind everything else. -/
theorem rows_withArena (hp : p.MadeOf V) {horizon : Nat} {store store' : CutStore α}
    {added : List (Cut α)} (hstore : ∀ c ∈ store.items.toList, p.arena.Uses V c.expr)
    (hadded : store'.items.toList = store.items.toList ++ added) :
    rows (p.withArena a) horizon store' =
      rows p horizon store >>= fun _ => cuts (p.withArena a) horizon store.size added := by
  have hformula : ∀ c ∈ p.domain.formulas, p.arena.Uses V c.expr := hp.domain.formulas
  have hcuts : cuts (p.withArena a) horizon 0 store'.items.toList =
      cuts p horizon 0 store.items.toList >>= fun _ =>
        cuts (p.withArena a) horizon store.size added := by
    rw [hadded, cuts_append, cuts_withArena hle hstore, Nat.zero_add]
    rfl
  unfold rows
  change (do
    constraints (p.withArena a) (.stage 0) "initial" "" p.domain.initials
    for t in List.range horizon do
      stage (p.withArena a) t
    if horizon > 0 then
      constraints (p.withArena a) (.goal horizon) "goal" "" p.domain.goals
    cuts (p.withArena a) horizon 0 store'.items.toList) = _
  rw [constraints_withArena hle fun c hc => hformula c (by simp [Domain.formulas, hc]),
    constraints_withArena hle fun c hc => hformula c (by simp [Domain.formulas, hc]),
    funext (stage_withArena hle hp), hcuts]
  split
  · simp only [bind_assoc]
  · simp only [bind_assoc]

end Encoding

/-- A problem that has grown is encoded as before. -/
theorem encode_of_grows {p q : Problem α} (hp : p.MadeOf V) (hpq : p.Grows q) {horizon : Nat}
    {store : CutStore α} (hstore : ∀ c ∈ store.items.toList, p.arena.Uses V c.expr) :
    encode q horizon store = encode p horizon store := by
  obtain ⟨a, rfl, hle, -⟩ := hpq
  have hrows : Encoding.rows (p.withArena a) horizon store = Encoding.rows p horizon store := by
    rw [Encoding.rows_withArena hle hp hstore (List.append_nil _).symm]
    exact bind_pure _
  unfold encode Encoding.build
  rw [hrows]
  rfl

/-- Further cuts of a problem continue the program. -/
theorem encode_append {p : Problem α} (hp : p.MadeOf V) {horizon : Nat} {store store' : CutStore α}
    {added : List (Cut α)} (hstore : ∀ c ∈ store.items.toList, p.arena.Uses V c.expr)
    (hadded : store'.items.toList = store.items.toList ++ added) {e e' : EncodedProgram α}
    (h : encode p horizon store = .ok e) (h' : encode p horizon store' = .ok e') :
    ∃ objective s₀ s s',
      (Encoding.State.begin α horizon).Declares (Encoding.planVars p horizon) s₀ ∧
      Encoding.RowsFor p horizon store.items.toList (s₀.withObjective objective) s ∧
      Steps (Encoding.CutFor p horizon) (added.zipIdx store.size) s s' ∧
      e.program = s.program ∧ e'.program = s'.program := by
  obtain ⟨-, objective, s₀, s, hdeclare, hrows, hprogram⟩ := encode_eq_ok h
  obtain ⟨-, objective', s₀', s', hdeclare', hrows', hprogram'⟩ := encode_eq_ok h'
  rw [hdeclare] at hdeclare'
  cases hdeclare'
  have hsplit : Encoding.rows p horizon store' =
      Encoding.rows p horizon store >>= fun _ => Encoding.cuts p horizon store.size added :=
    Encoding.rows_withArena (le_refl _) hp hstore hadded
  rw [hsplit] at hrows'
  obtain ⟨⟨⟩, s₁, hrows₁, hcuts⟩ := Encoding.run_bind_eq_ok.1 hrows'
  rw [hrows] at hrows₁
  cases hrows₁
  have hdeclares := (Encoding.declareAll_eq_ok hdeclare (Encoding.State.wellFormed_begin horizon)).1
  exact ⟨objective, s₀, s, s', hdeclares, Encoding.rows_eq_ok hp.domain.arena hrows,
    Encoding.cuts_eq_ok hcuts, hprogram, hprogram'⟩

/-- A problem that has grown and further cuts: the program is continued by the rows of the cuts. -/
theorem encode_continues {p q : Problem α} (hp : p.MadeOf V) (hpq : p.Grows q) {horizon : Nat}
    {store store' : CutStore α} {added : List (Cut α)}
    (hstore : ∀ c ∈ store.items.toList, p.arena.Uses V c.expr)
    (hadded : store'.items.toList = store.items.toList ++ added) {e e' : EncodedProgram α}
    (h : encode p horizon store = .ok e) (h' : encode q horizon store' = .ok e') :
    ∃ s s', s.WellFormed ∧ e.program = s.program ∧ e'.program = s'.program ∧
      Steps (Encoding.CutFor q horizon) (added.zipIdx store.size) s s' := by
  have hq := hp.grows hpq
  have hstore' : ∀ c ∈ store.items.toList, q.arena.Uses V c.expr := by
    obtain ⟨a, rfl, hle, -⟩ := hpq
    exact fun c hc => (hstore c hc).mono hle
  rw [← encode_of_grows hp hpq hstore] at h
  obtain ⟨objective, s₀, s, s', hdeclares, hrows, hcuts, hprogram, hprogram'⟩ :=
    encode_append hq hstore' hadded h h'
  have hs := hrows.grows hq.domain.arena (hdeclares.wellFormed.withObjective objective)
  exact ⟨s, s', hs.wellFormed, hprogram, hprogram', hcuts⟩

end HybridPlan
