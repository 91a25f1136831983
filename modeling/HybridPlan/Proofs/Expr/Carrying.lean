import HybridPlan.Expr.Substitution
import HybridPlan.Proofs.Except
import HybridPlan.Proofs.Expr.Interning

set_option autoImplicit false

/-! # Substitutions of any expression

A substitution makes every node again from what has become of its operands. Whatever constructors carry
over from operands to results, it carries over to the whole expression, whatever this is made of. -/

namespace HybridPlan.Build

variable {α : Type} [Scalar α]

/-! ## Constructions with a table of results -/

/-- What a construction with a table ends with. -/
def Tabled.Ends {ι : Type} (m : Tabled α ι) (table : Std.HashMap ExprId ExprId) (a : Arena α)
    (Q : ι → Std.HashMap ExprId ExprId → Arena α → Prop) : Prop :=
  Q ((m.run table).run a).1.1 ((m.run table).run a).1.2 ((m.run table).run a).2

namespace Tabled.Ends

variable {ι κ : Type} {table : Std.HashMap ExprId ExprId} {a : Arena α}
  {P : ι → Std.HashMap ExprId ExprId → Arena α → Prop}
  {Q : κ → Std.HashMap ExprId ExprId → Arena α → Prop}

theorem bind {m : Tabled α ι} {f : ι → Tabled α κ} (hm : m.Ends table a P)
    (hf : ∀ i table a, P i table a → (f i).Ends table a Q) : (m >>= f).Ends table a Q :=
  hf _ _ _ hm

/-- The table may be asked for a result. -/
theorem lookup {f : Std.HashMap ExprId ExprId → Tabled α κ} (h : (f table).Ends table a Q) :
    Tabled.Ends (MonadState.get >>= f) table a Q := h

/-- The arena may be looked at as well. -/
theorem look {f : Arena α → Tabled α κ} (h : (f a).Ends table a Q) :
    Tabled.Ends (getThe (Arena α) >>= f) table a Q := h

end Tabled.Ends

section

variable {T : Arena α → ExprId → ExprId → Prop} {σ : Substitution}
  {a b c d : Arena α} {e e' : ExprId} {table table' : Std.HashMap ExprId ExprId}

/-! ## Relations between expressions and their replacements -/

/-- The arena has an expression that is related to `e`. -/
structure Placed (T : Arena α → ExprId → ExprId → Prop) (b : Arena α) (e e' : ExprId) : Prop where
  has : b.Has e'
  related : T b e e'

/-- A relation between expressions of the arena `a` and expressions of larger arenas that holds of
symbols and their replacements, and is carried over by constructors. -/
structure Carries (σ : Substitution) (a : Arena α) (T : Arena α → ExprId → ExprId → Prop) : Prop where
  mono : ∀ {b c : Arena α} {e e' : ExprId}, b.WellFormed → b ≤ c → Placed T b e e' → T c e e'
  num : ∀ {e : ExprId} {x : α}, a.Has e → a.node e = .num x → T a e e
  sym : ∀ {e : ExprId} {s : String}, a.Has e → a.node e = .sym s → T a e ((σ s).getD e)
  neg : ∀ {b : Arena α} {e x x' : ExprId}, a.node e = .neg x → b.WellFormed → Placed T b x x' →
    T ((neg x').run b).2 e ((neg x').run b).1
  arith : ∀ {b : Arena α} {op : ArithOp} {e x y x' y' : ExprId}, a.node e = .arith op x y →
    b.WellFormed → Placed T b x x' → Placed T b y y' →
    T ((arith op x' y').run b).2 e ((arith op x' y').run b).1
  call : ∀ {b : Arena α} {f : Func} {e : ExprId} {args args' : List ExprId},
    a.node e = .call f args → b.WellFormed → List.Forall₂ (Placed T b) args args' →
    T ((call f args').run b).2 e ((call f args').run b).1
  compare : ∀ {b : Arena α} {op : Comparison} {e x y x' y' : ExprId},
    a.node e = .compare op x y → b.WellFormed → Placed T b x x' → Placed T b y y' →
    T ((compare op x' y').run b).2 e ((compare op x' y').run b).1
  join : ∀ {b : Arena α} {k : Connective} {e : ExprId} {items items' : List ExprId},
    a.node e = .join k items → b.WellFormed → List.Forall₂ (Placed T b) items items' →
    T ((join k items').run b).2 e ((join k items').run b).1

theorem Carries.placed (hT : Carries σ a T) (hb : b.WellFormed) (hbc : b ≤ c)
    (h : Placed T b e e') : Placed T c e e' :=
  ⟨h.has.mono hbc, hT.mono hb hbc h⟩

/-- Members may be used where lists are related. -/
theorem forall₂_imp_of_mem {R S : ExprId → ExprId → Prop} {l l' : List ExprId}
    (h : List.Forall₂ R l l') (himp : ∀ x ∈ l, ∀ x', R x x' → S x x') : List.Forall₂ S l l' := by
  induction h with
  | nil => exact .nil
  | cons hx _ ih =>
    rw [List.forall_mem_cons] at himp
    exact .cons (himp.1 _ hx) (ih himp.2)

theorem has_of_forall₂ {l l' : List ExprId} (h : List.Forall₂ (Placed T b) l l') :
    ∀ x ∈ l', b.Has x := by
  intro x hx
  obtain ⟨_, -, hplaced⟩ := exists_of_forall₂ h hx
  exact hplaced.has

/-! ## Substitutions on their way -/

/-- The arena has grown from `b`, which has grown from `a`, and the results in the table are related to
the expressions that they stand for. -/
structure Carrying (T : Arena α → ExprId → ExprId → Prop) (a b : Arena α)
    (table : Std.HashMap ExprId ExprId) (c : Arena α) : Prop where
  wellFormed : c.WellFormed
  start : a.Grows b
  grows : b.Grows c
  table : ∀ e e' : ExprId, table[e]? = some e' → Placed T c e e'

theorem Carrying.from (h : Carrying T a b table c) : Carrying T a c table c :=
  ⟨h.wellFormed, h.start.trans h.grows, .refl, h.table⟩

theorem Carrying.trans (h : Carrying T a b table c) (h' : Carrying T a c table' d) :
    Carrying T a b table' d :=
  ⟨h'.wellFormed, h.start, h.grows.trans h'.grows, h'.table⟩

theorem Carrying.extend {m : Build α ExprId} {P : Arena α → ExprId → Prop}
    (h : Carrying T a b table c) (hm : Extends m c P)
    (hT : ∀ e e', Placed T c e e' → Placed T (m.run c).2 e e') :
    Carrying T a b table (m.run c).2 :=
  ⟨hm.wellFormed, h.start, h.grows.trans hm.grows, fun k k' hk => hT k k' (h.table k k' hk)⟩

theorem Carrying.insert (h : Carrying T a b table c) (he' : Placed T c e e') :
    Carrying T a b (table.insert e e') c := by
  refine ⟨h.wellFormed, h.start, h.grows, fun k k' hk => ?_⟩
  rw [Std.HashMap.getElem?_insert] at hk
  split at hk
  · next heq =>
    obtain rfl := eq_of_beq heq
    cases hk
    exact he'
  · exact h.table k k' hk

/-- A result is on its way to `e`. -/
def Tabled.Carries (T : Arena α → ExprId → ExprId → Prop) (a : Arena α) (m : Tabled α ExprId)
    (table : Std.HashMap ExprId ExprId) (b : Arena α) (e : ExprId) : Prop :=
  m.Ends table b fun e' table c => Carrying T a b table c ∧ Placed T c e e'

/-- An expression of the first arena is entered into the table. -/
theorem carries_old (h : Carrying T a b table c) (he' : Placed T c e e') :
    Tabled.Ends (do let r ← (pure e' : Tabled α ExprId); modify (·.insert e r); return r) table c
      fun e' table c => Carrying T a b table c ∧ Placed T c e e' :=
  ⟨h.insert he', he'⟩

/-- What a constructor makes is entered into the table. -/
theorem carries_record (hT : Build.Carries σ a T) (h : Carrying T a b table c) {m : Build α ExprId}
    (hm : Extends m c Arena.Has) (hrelated : T (m.run c).2 e (m.run c).1) :
    Tabled.Ends (do let r ← (m : Tabled α ExprId); modify (·.insert e r); return r) table c
      fun e' table c => Carrying T a b table c ∧ Placed T c e e' := by
  have hplaced : Placed T (m.run c).2 e (m.run c).1 := ⟨hm.holds, hrelated⟩
  have hlater := h.extend hm fun _ _ => hT.placed h.wellFormed hm.grows.le
  exact ⟨hlater.insert hplaced, hplaced⟩

theorem carries_mapM (hT : Build.Carries σ a T) {f : ExprId → Tabled α ExprId} {l : List ExprId}
    (hf : ∀ e ∈ l, ∀ table b, Carrying T a b table b → (f e).Carries T a table b e)
    (h : Carrying T a b table b) :
    (l.mapM f).Ends table b fun l' table c =>
      Carrying T a b table c ∧ List.Forall₂ (Placed T c) l l' := by
  induction l generalizing table b with
  | nil =>
    rw [List.mapM_nil]
    exact ⟨h, .nil⟩
  | cons e l ih =>
    rw [List.mapM_cons]
    refine .bind (hf e List.mem_cons_self table b h) fun e' table₁ c hstep => ?_
    obtain ⟨hc, he⟩ := hstep
    refine .bind (ih (fun e he => hf e (List.mem_cons_of_mem _ he)) hc.from)
      fun l' table₂ d hrest => ?_
    obtain ⟨hd, hl⟩ := hrest
    exact ⟨hc.trans hd, .cons (hT.placed hc.wellFormed hd.grows.le he) hl⟩

/-- Two expressions in turn. -/
theorem carries_both {ι : Type} {Q : ι → Std.HashMap ExprId ExprId → Arena α → Prop} {x y : ExprId}
    (hT : Build.Carries σ a T) {f : ExprId → Tabled α ExprId} {k : ExprId → ExprId → Tabled α ι}
    (hx : ∀ table b, Carrying T a b table b → (f x).Carries T a table b x)
    (hy : ∀ table b, Carrying T a b table b → (f y).Carries T a table b y)
    (h : Carrying T a b table b) (hk : ∀ x' y' table d, Carrying T a b table d → Placed T d x x' →
      Placed T d y y' → (k x' y').Ends table d Q) :
    Tabled.Ends (do let x ← f x; let y ← f y; k x y) table b Q := by
  refine .bind (hx table b h) fun x' table₁ c hstep => ?_
  obtain ⟨hc, hx⟩ := hstep
  refine .bind (hy table₁ c hc.from) fun y' table₂ d hstep' => ?_
  obtain ⟨hd, hy⟩ := hstep'
  exact hk x' y' table₂ d (hc.trans hd) (hT.placed hc.wellFormed hd.grows.le hx) hy

/-! ## Substitution -/

/-- A level hands on what the level below it carries over. -/
theorem substituteBelow_succ_carries {n : ℕ} (hT : Carries σ a T)
    (hσ : ∀ s x, σ s = some x → a.Has x) (ha : a.WellFormed) (he : a.Has e)
    (h : Carrying T a b table b)
    (hoperand : ∀ x ∈ (a.node e).operands, ∀ table b, Carrying T a b table b →
      (substituteBelow σ n x).Carries T a table b x) :
    (substituteBelow σ (n + 1) e).Carries T a table b e := by
  unfold substituteBelow Tabled.Carries
  refine .lookup ?_
  dsimp only
  split
  · next e' he' => exact ⟨h, h.table e e' he'⟩
  -- the node is that of the first arena, in which the expression was
  have hnode : b.node e = a.node e := Arena.node_mono h.start.le he
  refine .look ?_
  rw [hnode]
  cases hn : a.node e with
  | num x => exact carries_old h (hT.placed ha h.start.le ⟨he, hT.num he hn⟩)
  | sym s =>
    refine carries_old h (hT.placed ha h.start.le ⟨?_, hT.sym he hn⟩)
    cases hs : σ s with
    | none => exact he
    | some e' => exact hσ s e' hs
  | neg x =>
    rw [hn] at hoperand
    refine .bind (hoperand x (by simp [Node.operands]) table b h) fun x' table₁ c hstep => ?_
    obtain ⟨hc, hx⟩ := hstep
    exact carries_record hT hc (extends_neg hc.wellFormed hx.has) (hT.neg hn hc.wellFormed hx)
  | arith op x y =>
    rw [hn] at hoperand
    refine carries_both hT (hoperand x (by simp [Node.operands]))
      (hoperand y (by simp [Node.operands])) h fun x' y' table d hd hx hy => ?_
    exact carries_record hT hd (extends_arith op hd.wellFormed hx.has hy.has)
      (hT.arith hn hd.wellFormed hx hy)
  | call f args =>
    rw [hn] at hoperand
    refine .bind (carries_mapM hT (fun x hx => hoperand x hx) h) fun args' table₁ c hstep => ?_
    obtain ⟨hc, hargs⟩ := hstep
    exact carries_record hT hc (extends_call f hc.wellFormed (has_of_forall₂ hargs))
      (hT.call hn hc.wellFormed hargs)
  | compare op x y =>
    rw [hn] at hoperand
    refine carries_both hT (hoperand x (by simp [Node.operands]))
      (hoperand y (by simp [Node.operands])) h fun x' y' table d hd hx hy => ?_
    exact carries_record hT hd (extends_compare op hd.wellFormed hx.has hy.has)
      (hT.compare hn hd.wellFormed hx hy)
  | join k items =>
    rw [hn] at hoperand
    refine .bind (carries_mapM hT (fun x hx => hoperand x hx) h) fun items' table₁ c hstep => ?_
    obtain ⟨hc, hitems⟩ := hstep
    exact carries_record hT hc (extends_join k hc.wellFormed (has_of_forall₂ hitems))
      (hT.join hn hc.wellFormed hitems)

theorem substituteBelow_carries (hT : Carries σ a T) (hσ : ∀ s x, σ s = some x → a.Has x) (n : Nat)
    (hn : e < n) (ha : a.WellFormed) (he : a.Has e) (h : Carrying T a b table b) :
    (substituteBelow σ n e).Carries T a table b e := by
  induction n generalizing e table b with
  | zero => exact absurd hn (Nat.not_lt_zero e)
  | succ n ih =>
    refine substituteBelow_succ_carries hT hσ ha he h fun x hx table b hb => ?_
    have hlt : x < e := ha.lt_of_mem_operands hx
    exact ih (Nat.lt_of_lt_of_le hlt (Nat.le_of_lt_succ hn)) (Nat.lt_trans hlt he) hb

/-- What constructors carry over holds of an expression and its replacement. -/
theorem Carries.substitute (hT : Carries σ a T) (hσ : ∀ s x, σ s = some x → a.Has x)
    (ha : a.WellFormed) (he : a.Has e) :
    Extends (Build.substitute σ e) a fun b e' => Placed T b e e' := by
  have hstart : Carrying T a a {} a := ⟨ha, .refl, .refl, fun e e' h => by simp at h⟩
  obtain ⟨hend, hplaced⟩ := substituteBelow_carries hT hσ (e + 1) (Nat.lt_succ_self e) ha he hstart
  exact ⟨hend.wellFormed, hend.grows, hplaced⟩

theorem carries_true : Carries σ a fun _ _ _ => True := by
  constructor <;> intros <;> trivial

/-- A substitution extends the arena. -/
theorem extends_substitute (hσ : ∀ s x, σ s = some x → a.Has x) (ha : a.WellFormed) (he : a.Has e) :
    Extends (Build.substitute σ e) a Arena.Has :=
  (carries_true.substitute hσ ha he).imp fun _ _ h => h.has

end

end HybridPlan.Build
