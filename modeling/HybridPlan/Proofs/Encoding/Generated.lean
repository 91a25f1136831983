import HybridPlan.Proofs.Encoding.Requests
import HybridPlan.Proofs.Expr.Shape

set_option autoImplicit false

/-! # Rows of cuts

A row whose name begins with `generated_` belongs to a cut: the name goes on with the position of the
cut in the store and with its stage. Every cut of a stage that the plan has leaves such a row in the
program, and there are no others. -/

namespace HybridPlan

variable {α : Type} [Scalar α]

/-- The name of the row begins like those of the rows of cuts. -/
def Row.IsGenerated (r : Row α) : Prop := r.name ∈ Encoding.named "generated_"

/-- The name of the row begins with the label of the cut at a position. -/
def Row.IsOf (r : Row α) (k : ℕ) (c : Cut α) : Prop :=
  r.name ∈ (Encoding.Part.cut k c.stage).names .row

namespace Encoding

/-! ## Words of labels -/

/-- A name begins with a word and an underscore if the word is the first of its tokens, and not the
only one. -/
theorem mem_named_word {word x : String} (hword : '_' ∉ word.toList) :
    x ∈ named (word ++ "_") ↔ ∃ l ls, tokens x = word.toList :: l :: ls := by
  have htoList : (word ++ "_").toList = word.toList ++ ['_'] := String.toList_append
  constructor
  · rintro ⟨rest, hrest⟩
    rw [htoList, List.append_assoc, List.singleton_append] at hrest
    have htokens : tokens x = word.toList :: rest.splitOn '_' := by
      rw [tokens, ← hrest, List.splitOn_append_cons_self, List.splitOn_eq_singleton hword]
      rfl
    have hne : rest.splitOn '_' ≠ [] := List.splitOn_ne_nil _ _
    obtain ⟨l, ls, hls⟩ := List.exists_cons_of_ne_nil hne
    exact ⟨l, ls, by rw [htokens, hls]⟩
  · rintro ⟨l, ls, htokens⟩
    refine ⟨List.intercalate ['_'] (l :: ls), ?_⟩
    have hx : List.intercalate ['_'] (tokens x) = x.toList := List.intercalate_splitOn '_'
    rw [htoList, ← hx, htokens]
    simp [List.intercalate]

theorem mem_named_generated {x : String} :
    x ∈ named "generated_" ↔ ∃ l ls, tokens x = "generated".toList :: l :: ls :=
  have hword : '_' ∉ "generated".toList := by decide
  mem_named_word hword

/-- Only the names of cuts begin like those of cuts. -/
theorem Part.exists_cut_of_mem_names {q : Part} {x : String} (hq : x ∈ q.names .row)
    (hx : x ∈ named "generated_") : ∃ k t, q = .cut k t := by
  obtain ⟨l, ls, htokens⟩ := mem_named_generated.1 hx
  obtain ⟨rest, hrest⟩ := mem_names hq
  rw [htokens] at hrest
  have hword : q.word = "generated" := String.toList_inj.1 (List.cons.inj hrest).1
  cases q with
  | cut k t => exact ⟨k, t, rfl⟩
  | initial | instantaneous | temporal | transition | reward | goal => simp [word] at hword

theorem Part.named_of_mem_names_cut {x : String} {k t : ℕ} (h : x ∈ (Part.cut k t).names .row) :
    x ∈ named "generated_" := by
  obtain ⟨rest, hrest⟩ := h
  exact mem_named_generated.2 ⟨_, _, hrest.symm⟩

/-! ## Rows of a program -/

variable {p : Problem α} {horizon : ℕ} {store : CutStore α} {e : EncodedProgram α}

/-- The names of the rows are those that the encoding asks for. -/
theorem rowNames_eq (h : encode p horizon store = .ok e) :
    e.program.rows.toList.map (·.name) = givenNames .row p horizon store := by
  obtain ⟨s, hrun, hprogram⟩ := run_build_of_ok h
  have hrequests := Requests.build (K := .row) (p := p) horizon store
  have hplan : ((planVars p horizon).flatMap fun v => NameKind.row.ofVar v.name) = [] := by
    simp [NameKind.ofVar]
  rw [hplan, List.nil_append] at hrequests
  rw [hprogram]
  exact ((hrequests _ (State.indexed_begin horizon)).1 () s hrun).2

omit [Scalar α] in
theorem mem_cutContents {cs : List (Cut α)} {x : Part × ExprId} :
    x ∈ cutContents horizon 0 cs ↔
      ∃ k c, cs[k]? = some c ∧ c.stage < horizon ∧ x = (.cut k c.stage, c.expr) := by
  simp only [cutContents, List.mem_map, List.mem_filter, decide_eq_true_eq, Prod.exists,
    List.mem_zipIdx_iff_getElem?]
  constructor
  · rintro ⟨c, k, ⟨hk, hstage⟩, rfl⟩
    exact ⟨k, c, hk, hstage, rfl⟩
  · rintro ⟨k, c, hk, hstage, rfl⟩
    exact ⟨c, k, ⟨hk, hstage⟩, rfl⟩

/-- A row with the name of a generated one is that of a stored cut. -/
theorem exists_cut_of_isGenerated (h : encode p horizon store = .ok e) {r : Row α}
    (hr : r ∈ e.program.rows.toList) (hgenerated : r.IsGenerated) :
    ∃ k c, store.items.toList[k]? = some c ∧ c.stage < horizon ∧ r.IsOf k c := by
  have hname : r.name ∈ givenNames .row p horizon store := rowNames_eq h ▸ List.mem_map_of_mem hr
  obtain ⟨x, hx, hname⟩ := List.mem_flatMap.1 hname
  have hnames := Part.mem_names_of_mem_given hname
  obtain ⟨k, t, hpart⟩ := Part.exists_cut_of_mem_names hnames hgenerated
  simp only [contents, List.mem_append] at hx
  rcases hx with hx | hx | hx | hx
  · obtain ⟨i, hi⟩ := exists_of_mem_numbered hx
    simp [hi] at hpart
  · obtain ⟨u, -, hx⟩ := List.mem_flatMap.1 hx
    have hstage := stage?_of_mem_stageContents hx
    simp [hpart, Part.stage?] at hstage
  · split at hx
    · obtain ⟨i, hi⟩ := exists_of_mem_numbered hx
      simp [hi] at hpart
    · cases hx
  · obtain ⟨k, c, hk, hstage, rfl⟩ := mem_cutContents.1 hx
    exact ⟨k, c, hk, hstage, hnames⟩

/-- A constraint has at least one row. -/
theorem NameKind.ofConstraint_ne_nil {a : Arena α} (ha : a.WellFormed) {V V' : Vocabulary α} {n : ℕ}
    {label : String} {c : ExprId} (hn : c < n) (huses : a.Uses V c) (hc : a.Shaped V' c) :
    NameKind.row.ofConstraint a n label c ≠ [] := by
  induction n generalizing label c with
  | zero => cases hn
  | succ n ih =>
    unfold ofConstraint
    cases hc with
    | comparison hnode =>
      rw [Arena.node_eq_of_getElem? hnode]
      simp [ofRow]
    | disjunction hnode =>
      rw [Arena.node_eq_of_getElem? hnode]
      simp [ofRow]
    | @conjunction _ items hnode hitems =>
      -- what is joined is not empty, so there is a first conjunct
      have hnode := Arena.node_eq_of_getElem? hnode
      have hallows := huses.holds
      rw [hnode] at hallows
      obtain ⟨x, rest, rfl⟩ := List.exists_cons_of_ne_nil hallows.2
      have hmem : x ∈ (a.node c).operands := by simp [hnode, Node.operands]
      have hlt := Nat.lt_of_lt_of_le (ha.lt_of_mem_operands hmem) (Nat.le_of_lt_succ hn)
      have hfirst : row.ofConstraint a n s!"{label}_{0}" x ≠ [] :=
        ih hlt (huses.operand hmem) (hitems x List.mem_cons_self)
      rw [hnode]
      simp only [List.zipIdx_cons, List.flatMap_cons]
      exact List.append_ne_nil_of_left_ne_nil hfirst _

/-- A stored cut of a stage that the plan has leaves a row. -/
theorem exists_isOf {V V' : Vocabulary α} (hp : p.arena.WellFormed)
    (h : encode p horizon store = .ok e) {k : ℕ} {c : Cut α}
    (hk : store.items.toList[k]? = some c) (hstage : c.stage < horizon) (huses : p.arena.Uses V c.expr)
    (hc : p.arena.Shaped V' c.expr) : ∃ r ∈ e.program.rows.toList, r.IsGenerated ∧ r.IsOf k c := by
  have hne : (Part.cut k c.stage).given .row p.arena c.expr ≠ [] :=
    NameKind.ofConstraint_ne_nil hp (Nat.lt_succ_self _) huses hc
  obtain ⟨name, hname⟩ := List.exists_mem_of_ne_nil _ hne
  have hgiven : name ∈ givenNames .row p horizon store := by
    refine List.mem_flatMap.2 ⟨(.cut k c.stage, c.expr), ?_, hname⟩
    simp only [contents, List.mem_append]
    exact .inr (.inr (.inr (mem_cutContents.2 ⟨k, c, hk, hstage, rfl⟩)))
  rw [← rowNames_eq h] at hgiven
  obtain ⟨r, hr, rfl⟩ := List.mem_map.1 hgiven
  have hof : r.IsOf k c := Part.mem_names_of_mem_given hname
  exact ⟨r, hr, Part.named_of_mem_names_cut hof, hof⟩

end Encoding

end HybridPlan
