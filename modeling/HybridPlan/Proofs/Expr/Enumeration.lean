import HybridPlan.Proofs.Expr.Deriving
import HybridPlan.Proofs.Expr.Evaluation
import HybridPlan.Proofs.Expr.Subterms
import HybridPlan.Scalar.Binary64

set_option autoImplicit false

/-! # The list of subterms

The walk over an expression lists exactly the nodes that can be reached from it, each of them once and
behind all of its operands. What an evaluation does depends on the values of symbols that are listed,
and on nothing else. -/

namespace HybridPlan

variable {α : Type} [Scalar α]

namespace Arena

variable {a : Arena α} {w w' w₁ : Walk} {m n : Nat} {e x : ExprId}

/-! ## What can be reached -/

/-- The subterms of an expression are what can be reached from it. -/
theorem mem_subterms_iff (ha : a.WellFormed) : x ∈ a.subterms e ↔ a.Reachable e x := by
  constructor
  · exact subterms_closed (fun _ h _ hy => h.tail hy) .refl x
  · intro hx
    induction hx with
    | refl => exact self_mem_subterms ha e
    | tail _ hy ih => exact operands_mem_subterms ha ih hy

/-! ## Nothing twice -/

/-- Finished nodes were met, and none of them was finished twice. -/
structure Walk.Single (w : Walk) : Prop where
  nodup : w.finished.toList.Nodup
  met : ∀ x ∈ w.finished, w.met.contains x

/-- A walk that goes on finishes only what was not met before. -/
structure Walk.Fresh (w w' : Walk) : Prop where
  met : ∀ x, w.met.contains x → w'.met.contains x
  finished : ∀ x ∈ w'.finished, x ∈ w.finished ∨ ¬w.met.contains x

theorem Walk.Fresh.refl (w : Walk) : w.Fresh w := ⟨fun _ hx => hx, fun _ hx => .inl hx⟩

theorem Walk.Fresh.trans (h : w.Fresh w₁) (h' : w₁.Fresh w') : w.Fresh w' := by
  refine ⟨fun x hx => h'.met x (h.met x hx), fun x hx => ?_⟩
  rcases h'.finished x hx with hx | hx
  · exact h.finished x hx
  · exact .inr fun hmet => hx (h.met x hmet)

theorem walkBelow_single (hw : w.Single) :
    (a.walkBelow n w e).Single ∧ w.Fresh (a.walkBelow n w e) := by
  induction n generalizing w e with
  | zero => exact ⟨hw, .refl w⟩
  | succ n ih =>
    unfold walkBelow
    by_cases hmet : w.met.contains e
    · rw [if_pos hmet]
      exact ⟨hw, .refl w⟩
    · rw [if_neg hmet]
      have hbegun : Walk.Single { w with met := w.met.insert e } :=
        ⟨hw.nodup, fun x hx => by simp [hw.met x hx]⟩
      obtain ⟨hsingle, hfresh⟩ := List.foldlRecOn
        (motive := fun w' : Walk => w'.Single ∧ Walk.Fresh { w with met := w.met.insert e } w')
        (a.node e).operands (a.walkBelow n) ⟨hbegun, .refl _⟩
        fun w' h y _ => ⟨(ih h.1).1, h.2.trans (ih h.1).2⟩
      dsimp only
      generalize (a.node e).operands.foldl (a.walkBelow n) { w with met := w.met.insert e } = w₁
        at hsingle hfresh ⊢
      have he : w₁.met.contains e := hfresh.met e (by simp)
      -- `e` is met as soon as the walk comes to it, so none of its parts can finish it
      have hnew : e ∉ w₁.finished := by
        intro hmem
        rcases hfresh.finished e hmem with hold | hnot
        · exact hmet (hw.met e hold)
        · exact hnot (by simp)
      refine ⟨⟨?_, fun x hx => ?_⟩, fun x hx => hfresh.met x (by simp [hx]), fun x hx => ?_⟩
      · rw [Array.toList_push, List.nodup_append]
        refine ⟨hsingle.nodup, List.pairwise_singleton _ _, fun x hx y hy hxy => ?_⟩
        rw [List.mem_singleton.1 hy] at hxy
        exact hnew (Array.mem_toList_iff.1 (hxy ▸ hx))
      · rcases Array.mem_push.1 hx with hx | rfl
        · exact hsingle.met x hx
        · exact he
      · rcases Array.mem_push.1 hx with hx | rfl
        · refine (hfresh.finished x hx).imp_right fun hnot hold => hnot ?_
          simp [hold]
        · exact .inr hmet

theorem nodup_subterms (ha : a.WellFormed) (e : ExprId) : (a.subterms e).Nodup := by
  have hempty : Walk.Single {} := ⟨List.nodup_nil, fun x hx => by simp at hx⟩
  rw [subterms_eq ha]
  exact (walkBelow_single hempty).1.nodup

/-! ## The expression last -/

theorem getLast?_subterms (ha : a.WellFormed) (e : ExprId) : (a.subterms e).getLast? = some e := by
  have hnot : (({} : Walk).met.contains e) = false := by simp
  rw [subterms_eq ha, walkBelow, hnot]
  simp

/-! ## Symbols that do not occur -/

theorem dependsOn_iff (ha : a.WellFormed) {s : String} :
    a.dependsOn e s = true ↔ ∃ x, a.Reachable e x ∧ a.node x = .sym s := by
  have hsym (x : ExprId) : a.sym? x = some s ↔ a.node x = .sym s := by
    unfold sym?
    split
    · next t ht => simp [ht]
    · next h => exact ⟨fun hs => (by cases hs), fun hs => absurd hs (h s)⟩
  simp only [dependsOn, List.any_eq_true, decide_eq_true_eq, hsym, mem_subterms_iff ha]

theorem dependsOn_eq_false_iff (ha : a.WellFormed) (he : a.Has e) {s : String} :
    a.dependsOn e s = false ↔ a.MadeOf (· ≠ .sym s) e := by
  rw [madeOf_iff ha he, Bool.eq_false_iff, Ne, dependsOn_iff ha, not_exists]
  exact forall_congr' fun x => not_and

/-- An evaluation looks up no symbols but those that can be reached. -/
theorem evalBelow_congr {v v' : Valuation α}
    (h : ∀ x s, a.Reachable e x → a.node x = .sym s → v s = v' s) :
    a.evalBelow v n e = a.evalBelow v' n e := by
  induction n generalizing e with
  | zero => rfl
  | succ n ih =>
    have hoperand {x : ExprId} (hx : x ∈ (a.node e).operands) :
        a.evalBelow v n x = a.evalBelow v' n x :=
      ih fun y s hy hs => h y s (.head hx hy) hs
    have hnode : a.evalNode v (a.evalBelow v n) e = a.evalNode v' (a.evalBelow v' n) e :=
      evalNode_congr (fun s hs => h e s .refl hs) fun x hx => hoperand hx
    rw [evalBelow_succ, evalBelow_succ, hnode]

/-- The subterms of an expression are exactly what can be reached from it, each of them once, behind all
of its operands, and the expression comes last. A symbol that does not occur in the expression has no
influence on its evaluation, whether this gives a number or an error. -/
theorem subterms_enumerate (ha : a.WellFormed) (e : ExprId) :
    (∀ x, x ∈ a.subterms e ↔ a.Reachable e x) ∧ (a.subterms e).Nodup ∧
      (∀ before x after, a.subterms e = before ++ x :: after →
        ∀ y ∈ (a.node x).operands, y ∈ before) ∧
      (a.subterms e).getLast? = some e ∧
      ∀ s, a.dependsOn e s = false → ∀ v v' : Valuation α, (∀ s' ≠ s, v s' = v' s') →
        a.eval v e = a.eval v' e := by
  refine ⟨fun x => mem_subterms_iff ha, nodup_subterms ha e, operandsFirst_subterms ha e,
    getLast?_subterms ha e, ?_⟩
  intro s hs v v' hv
  have hsymbols : ∀ x s', a.Reachable e x → a.node x = .sym s' → v s' = v' s' := by
    intro x s' hx hn
    refine hv s' fun heq => ?_
    have hdepends : a.dependsOn e s = true := (dependsOn_iff ha).2 ⟨x, hx, heq ▸ hn⟩
    rw [hs] at hdepends
    cases hdepends
  rw [eval, eval, evalWith, evalWith, evalBelow_congr hsymbols]

/-- In `x * x + x` the symbol is used in three places. It is listed once, first, and the value of `y` does
not matter: not even for the error where `x` has no value. -/
theorem subterms_enumerate_shared : ∃ (a : Arena Binary64) (x square sum : ExprId), a.WellFormed ∧
    a.node x = .sym "x" ∧ a.node square = .arith .mul x x ∧ a.node sum = .arith .add square x ∧
      (∀ y, y ∈ a.subterms sum ↔ y = x ∨ y = square ∨ y = sum) ∧ (a.subterms sum).Nodup ∧
      (a.subterms sum).getLast? = some sum ∧ a.dependsOn sum "y" = false ∧
      a.eval (fun s => if s = "y" then some Scalar.one else none) sum = a.eval (fun _ => none) sum := by
  obtain ⟨a, x, square, sum, ha, hx, hsquare, hsum⟩ : ∃ (a : Arena Binary64)
      (x square sum : ExprId), a.WellFormed ∧ a.table.items[x]? = some (.sym "x") ∧
        a.table.items[square]? = some (.arith .mul x x) ∧
        a.table.items[sum]? = some (.arith .add square x) := by
    obtain ⟨a₁, x, -, h₁, hx⟩ :=
      (wellFormed_empty (α := Binary64)).exists_interned (.sym "x") (by simp [Node.operands])
    obtain ⟨a₂, square, hle₂, h₂, hsquare⟩ := h₁.exists_interned (.arith .mul x x)
      (by simp [Node.operands, lt_size_of_getElem? hx, Has])
    have hx := hle₂ hx
    obtain ⟨a₃, sum, hle₃, h₃, hsum⟩ := h₂.exists_interned (.arith .add square x)
      (by simp [Node.operands, lt_size_of_getElem? hx, lt_size_of_getElem? hsquare, Has])
    exact ⟨a₃, x, square, sum, h₃, hle₃ hx, hle₃ hsquare, hsum⟩
  have hxn := node_eq_of_getElem? hx
  have hsquaren := node_eq_of_getElem? hsquare
  have hsumn := node_eq_of_getElem? hsum
  obtain ⟨hmem, hnodup, -, hlast, hindependent⟩ := subterms_enumerate ha sum
  have hlisted (y : ExprId) : y ∈ a.subterms sum ↔ y = x ∨ y = square ∨ y = sum := by
    constructor
    · refine subterms_closed (P := fun y => y = x ∨ y = square ∨ y = sum) ?_ (by simp) y
      rintro z (rfl | rfl | rfl) y hy
      · simp [hxn, Node.operands] at hy
      · exact .inl (by simpa [hsquaren, Node.operands] using hy)
      · have hy : y = square ∨ y = x := by simpa [hsumn, Node.operands] using hy
        exact hy.elim (fun h => .inr (.inl h)) .inl
    · have hbelow : a.Reachable sum square := .single (by simp [hsumn, Node.operands])
      rintro (rfl | rfl | rfl)
      · exact (hmem y).2 (hbelow.tail (by simp [hsquaren, Node.operands]))
      · exact (hmem y).2 hbelow
      · exact (hmem y).2 .refl
  have hy : a.dependsOn sum "y" = false := by
    rw [dependsOn, List.any_eq_false]
    intro z hz
    rcases (hlisted z).1 hz with rfl | rfl | rfl <;> simp [sym?, hxn, hsquaren, hsumn]
  exact ⟨a, x, square, sum, ha, hxn, hsquaren, hsumn, hlisted, hnodup, hlast, hy,
    hindependent "y" hy _ _ fun s hs => if_neg hs⟩

end Arena

end HybridPlan
