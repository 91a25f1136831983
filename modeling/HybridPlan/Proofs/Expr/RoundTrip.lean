import HybridPlan.Proofs.Expr.Parser
import HybridPlan.Proofs.Expr.Writing
import HybridPlan.Proofs.Numbers.Binary64
import HybridPlan.Proofs.Text.Bytes

set_option autoImplicit false

/-! # The text of an expression reads back

The printer writes the parentheses that the grammar asks for: the text of an expression is a phrase of the
level of its outermost layer, and what the phrase builds is the expression again. -/

namespace HybridPlan

variable {α : Type} [Scalar α]

/-! ## Levels of trees -/

namespace Expr

/-- The level of the outermost layer of an expression. -/
def level : Expr α → Level
  | num v => if Scalar.lt v Scalar.zero then .unary else .atom
  | sym _ | call _ _ => .atom
  | neg _ => .unary
  | arith op _ _ => op.level
  | compare _ _ _ => .comparison
  | join c _ => c.level

/-- The tighter a layer binds, the lower its level. -/
theorem height_level (e : Expr α) : e.level.height + e.precedence = 9 := by
  cases e with
  | num v =>
    rw [level, precedence]
    split <;> rfl
  | arith op => cases op <;> rfl
  | join c => cases c <;> rfl
  | sym | neg | call | compare => rfl

/-- What binds tightly enough is of a level. -/
theorem height_level_le {e : Expr α} {m : Level} {p : Nat} (hp : p ≤ e.precedence)
    (hm : m.height + p = 9) : e.level.height ≤ m.height := by
  have hlevel := e.height_level
  omega

/-- A left operand without parentheses is of the level that the operator takes. -/
theorem height_le_leftLevel {op : ArithOp} {e : Expr α} (h : leftNeeds op e.precedence = false) :
    e.level.height ≤ op.leftLevel.height := by
  cases op with
  | add | sub => exact height_level_le (p := 4) (Nat.le_of_not_lt (of_decide_eq_false h)) rfl
  | mul | div => exact height_level_le (p := 5) (Nat.le_of_not_lt (of_decide_eq_false h)) rfl
  | pow => exact height_level_le (p := 8) (Nat.lt_of_not_le (of_decide_eq_false h)) rfl

/-- And so is a right operand, unless it is a sum behind a plus or a product behind a times. -/
theorem height_le_rightLevel {op : ArithOp} {e : Expr α} (h : rightNeeds op e.precedence = false)
    (hadd : op = .add → e.precedence ≠ 4) (hmul : op = .mul → e.precedence ≠ 5) :
    e.level.height ≤ op.rightLevel.height := by
  cases op with
  | add =>
    have hloose : 4 ≤ e.precedence := Nat.le_of_not_lt (of_decide_eq_false h)
    exact height_level_le (p := 5) (Nat.lt_of_le_of_ne hloose (hadd rfl).symm) rfl
  | sub => exact height_level_le (p := 5) (Nat.lt_of_not_le (of_decide_eq_false h)) rfl
  | mul =>
    have hloose : 5 ≤ e.precedence := Nat.le_of_not_lt (of_decide_eq_false h)
    exact height_level_le (p := 6) (Nat.lt_of_le_of_ne hloose (hmul rfl).symm) rfl
  | div => exact height_level_le (p := 6) (Nat.lt_of_not_le (of_decide_eq_false h)) rfl
  | pow =>
    have hloose : 7 ≤ e.precedence := Nat.le_of_not_lt (of_decide_eq_false h)
    exact height_level_le (p := 6) (Nat.le_of_succ_le hloose) rfl

theorem texts_eq_map (es : List (Expr α)) : texts es = es.map text := by
  induction es with
  | nil => rfl
  | cons e es ih => rw [texts, ih, List.map_cons]

theorem itemTexts_eq_map (p : Nat) (es : List (Expr α)) :
    itemTexts p es = es.map fun e => parenthesize (precedence e ≤ p) (text e) := by
  induction es with
  | nil => rfl
  | cons e es ih => rw [itemTexts, ih, List.map_cons]

end Expr

namespace Arena

variable {a : Arena α} {e : ExprId}

open Lexeme (Scans)

/-! ## Nodes -/

/-- The number of a literal is no negative zero. -/
theorem Reduced.unsignedZero_eq {v : α} (he : a.Reduced e) (ha : a.WellFormed)
    (hnode : a.node e = .num v) : Scalar.unsignedZero v = v := by
  have hrun := he.holds a (le_refl a)
  rw [hnode] at hrun
  have hnum := Build.getElem?_intern (.num (Scalar.unsignedZero v)) none ha
  have hnode' := Build.getElem?_intern (.num v) none ha
  rw [← hrun] at hnode'
  exact Node.num.inj (Option.some.inj (hnum.symm.trans hnode'))

theorem isIdentifier_funcName (f : Func) : isIdentifier f.name.toList := by
  cases f with
  | elementary f => cases f <;> rfl
  | dd => rfl

theorem ofWord_funcName (f : Func) : Token.ofWord f.name = .ident f.name := by
  cases f with
  | elementary f => cases f <;> rfl
  | dd => rfl

namespace Writes

theorem name {s : String} (hs : Vocabulary.IsName s) (he : a.Reduced e) (hnode : a.node e = .sym s) :
    a.Writes .atom s e := by
  intro start rest hrest
  obtain ⟨hidentifier, hword⟩ := hs
  exact ⟨_, _, .word hidentifier hrest, .name hword, .name he hnode⟩

/-- A negative number is written behind a sign, and others are atoms. -/
theorem number {v : α} (hv : Scalar.Legible v) (ha : a.WellFormed)
    (he : a.Reduced e) (hnode : a.node e = .num v) :
    a.Writes (Expr.num v).level (Scalar.text v) e := by
  obtain ⟨negative, digits, m, hwritten⟩ := hv
  have hsign : negative = true ↔ Scalar.lt v Scalar.zero := by
    simpa [he.unsignedZero_eq ha hnode] using hwritten.sign
  intro start rest hrest
  rw [Expr.level, hwritten.text]
  cases negative with
  | false =>
    rw [if_neg fun h => Bool.false_ne_true (hsign.2 h)]
    exact ⟨_, _, .number hwritten.decimal hwritten.read hrest, .number rfl,
      .number he hnode hwritten.value⟩
  | true =>
    have hnegative := hsign.1 rfl
    have hzero : ¬Scalar.isZero (Scalar.ofNumeral ⟨false, m⟩ : α) := by
      simp [hwritten.nonzero hnegative]
    have hminus : Scans start ['-'] (digits ++ rest) _ := .token rfl rfl
    rw [if_pos hnegative]
    exact ⟨_, _, hminus.append (.number hwritten.decimal hwritten.read hrest),
      .opposite rfl (.unsigned (.base (.number rfl))), .negativeNumber he hnode hwritten.value hzero⟩

variable {x y : ExprId} {s s' : String}

theorem opposite (hx : a.Writes .unary s x) (he : a.Reduced e) (hnode : a.node e = .neg x) :
    a.Writes .unary ("-" ++ s) e := by
  intro start rest hrest
  have hminus : Scans start ['-'] (s.toList ++ rest) _ := .token rfl rfl
  obtain ⟨us, t, hscan, ht, hbuild⟩ := hx (start + Text.byteSize ['-']) rest hrest
  rw [String.toList_append]
  exact ⟨_, _, hminus.append hscan, .opposite rfl ht, hbuild.opposite he hnode⟩

theorem operation {op : ArithOp} (hx : a.Writes op.leftLevel s x) (hy : a.Writes op.rightLevel s' y)
    (he : a.Reduced e) (hnode : a.node e = .arith op x y) :
    a.Writes op.level (s ++ " " ++ op.symbol ++ " " ++ s') e := by
  refine hx.between (.op op) hy (fun start rest => ?_)
    (fun us vs l₀ t u hl₀ ht hu => ht.operation hl₀ hu) fun t u ht hu => ht.operation hu he hnode
  cases op <;> exact .token rfl rfl

theorem comparison {op : Comparison} (hx : a.Writes .sum s x) (hy : a.Writes .sum s' y)
    (he : a.Reduced e) (hnode : a.node e = .compare op x y) :
    a.Writes .comparison (s ++ " " ++ op.symbol ++ " " ++ s') e := by
  refine hx.between (.compare op) hy (fun start rest => ?_)
    (fun us vs l₀ t u hl₀ ht hu => .comparison ht hl₀ hu) fun t u ht hu => ht.comparison hu he hnode
  cases op <;> exact .token rfl rfl

theorem call {f : Func} {xs : List ExprId} {g : ExprId → String} (hf : xs.length = f.arity)
    (hxs : ∀ x ∈ xs, a.Writes .disjunction (g x) x) (he : a.Reduced e)
    (hnode : a.node e = .call f xs) :
    a.Writes .atom (f.name ++ "(" ++ String.intercalate ", " (xs.map g) ++ ")") e := by
  obtain ⟨x, xs, rfl⟩ := List.exists_cons_of_ne_nil (l := xs) fun h => by
    rw [h] at hf
    cases f <;> cases hf
  have hcomma (start : Nat) (rest : List Char) : ∃ lx : Lexeme, lx.token = .comma ∧
      Scans start ", ".toList rest [lx] := by
    have hsign : Scans start [','] ([' '] ++ rest) _ := .token rfl rfl
    exact ⟨_, rfl, hsign.append .space⟩
  intro start rest hrest
  have hend : Token.Delimits ([')'] ++ rest) := Token.delimits_cons (by simp)
  obtain ⟨us, vs, t, ts, hscan, ht, hts, hbuilds⟩ := items hxs hcomma
    (fun rest => Token.delimits_cons (.inr (.inl rfl))) (start + Text.byteSize (f.name.toList ++ ['('])) hend
  have hname (rest : List Char) : Scans start f.name.toList (['('] ++ rest) _ :=
    .word (isIdentifier_funcName f) (Token.delimits_cons (by simp))
  have hopen (start : Nat) (rest : List Char) : Scans start ['('] rest _ := .token rfl rfl
  have hclose (start : Nat) : Scans start [')'] rest _ := .token rfl rfl
  have hall := (((hname _).append (hopen _ _)).append hscan).append (hclose _)
  have hcall {l lo lc : Lexeme} (hl : l.token = .ident f.name) (hlo : lo.token = .leftParen)
      (hlc : lc.token = .rightParen) :
      Derives .atom (l :: lo :: (us ++ vs) ++ [lc]) (.call f (t :: ts)) :=
    .call hl (Func.ofName?_name f) hlo ht hts (hbuilds.length_eq.trans hf) hlc
  simp only [String.toList_append]
  exact ⟨_, _, hall, hcall (ofWord_funcName f) rfl rfl, .call hbuilds he hnode⟩

theorem joined {c : Connective} {xs : List ExprId} {g : ExprId → String} (hne : xs ≠ [])
    (hxs : ∀ x ∈ xs, a.Writes c.itemLevel (g x) x) (he : a.Reduced e) (hnode : a.node e = .join c xs) :
    a.Writes c.level (String.intercalate (" " ++ c.word ++ " ") (xs.map g)) e := by
  obtain ⟨x, xs, rfl⟩ := List.exists_cons_of_ne_nil hne
  have hword (start : Nat) (rest : List Char) : ∃ lx : Lexeme, lx.token = .word c ∧
      Scans start (" " ++ c.word ++ " ").toList rest [lx] := by
    obtain ⟨lx, htoken, hword⟩ : ∃ lx : Lexeme, lx.token = .word c ∧
        Scans (start + Text.byteSize [' ']) c.word.toList ([' '] ++ rest) [lx] := by
      cases c <;> exact ⟨_, rfl, .token rfl rfl⟩
    rw [String.toList_append, String.toList_append]
    exact ⟨lx, htoken, (Scans.space.append hword).append .space⟩
  intro start rest hrest
  obtain ⟨us, vs, t, ts, hscan, ht, hts, hbuilds⟩ := items hxs hword
    (fun rest => by cases c <;> exact Token.delimits_cons (.inl rfl)) start hrest
  exact ⟨_, _, hscan, .joined ht hts, .joined hbuilds he hnode⟩

end Writes

end Arena

/-! ## Trees -/

/-- A literal of the node reads back from its text. -/
def Node.Legible : Node α → Prop
  | .num v => Scalar.Legible v
  | _ => True

/-- What the printer keeps apart: a sum has no sum or difference on its right, a product no product
or quotient, and a comparison no comparison on its left. -/
def Node.Plain (a : Arena α) : Node α → Prop
  | .arith .add _ y => ∀ op u v, a.node y = .arith op u v → op ≠ .add ∧ op ≠ .sub
  | .arith .mul _ y => ∀ op u v, a.node y = .arith op u v → op ≠ .mul ∧ op ≠ .div
  | .compare _ x _ => ∀ op u v, a.node x ≠ .compare op u v
  | _ => True

namespace Arena

variable {a : Arena α} {e : ExprId}

theorem precedence_tree (ha : a.WellFormed) (e : ExprId) : (a.tree e).precedence = match a.node e with
    | .num v => if Scalar.lt v Scalar.zero then 6 else 8
    | .sym _ | .call _ _ => 8
    | .neg _ => 6
    | .arith op _ _ => op.precedence
    | .compare _ _ _ => 3
    | .join c _ => c.precedence := by
  rw [ha.tree_eq]
  cases a.node e <;> rfl

/-- Only sums, differences, products and quotients bind as they do. -/
theorem exists_arith_of_precedence (ha : a.WellFormed)
    (h : (a.tree e).precedence = 4 ∨ (a.tree e).precedence = 5) :
    ∃ op x y, a.node e = .arith op x y ∧ op.precedence = (a.tree e).precedence := by
  rw [precedence_tree ha] at h ⊢
  split at h
  · split at h <;> omega
  · omega
  · omega
  · omega
  · next op x y hnode => exact ⟨op, x, y, hnode, rfl⟩
  · omega
  · next c items hnode => cases c <;> simp [Connective.precedence] at h

/-- Only comparisons bind as they do. -/
theorem exists_compare_of_precedence (ha : a.WellFormed) (h : (a.tree e).precedence = 3) :
    ∃ op x y, a.node e = .compare op x y := by
  rw [precedence_tree ha] at h
  split at h
  · split at h <;> omega
  · omega
  · omega
  · omega
  · next op x y hnode => cases op <;> simp [ArithOp.precedence] at h
  · next op x y hnode => exact ⟨op, x, y, hnode⟩
  · next c items hnode => cases c <;> simp [Connective.precedence] at h

/-- The text of a tree is of the level of its outermost layer. -/
theorem writes_tree (ha : a.WellFormed) (he : a.Reduced e)
    (huses : a.Uses (.formulas α Vocabulary.IsName) e) (hlegible : a.MadeOf Node.Legible e)
    (hplain : a.MadeOf (Node.Plain a) e) :
    a.Writes (a.tree e).level (a.tree e).text e := by
  induction e using Nat.strongRecOn with
  | ind e ih =>
    have hoperand (x : ExprId) (hx : x ∈ (a.node e).operands) :
        a.Writes (a.tree x).level (a.tree x).text x :=
      ih x (ha.lt_of_mem_operands hx) (he.operand hx) (huses.operand hx) (hlegible.operand hx)
        (hplain.operand hx)
    have hallowed := huses.holds
    have hkept := hplain.holds
    rw [ha.tree_eq e]
    cases hnode : a.node e with
    | num v =>
      have hnumber := hlegible.holds
      rw [hnode] at hnumber
      exact .number hnumber ha he hnode
    | sym s =>
      rw [hnode] at hallowed
      exact .name hallowed he hnode
    | neg x =>
      rw [hnode] at hoperand
      refine .opposite ((hoperand x (by simp [Node.operands])).parenthesize fun h => ?_) he hnode
      have htight := of_decide_eq_false h
      exact Expr.height_level_le (p := 6) (by omega) rfl
    | arith op x y =>
      rw [hnode] at hoperand hkept
      have hleft := (hoperand x (by simp [Node.operands])).parenthesize
        (@Expr.height_le_leftLevel α _ op (a.tree x))
      have hright := (hoperand y (by simp [Node.operands])).parenthesize
        fun h => @Expr.height_le_rightLevel α _ op (a.tree y) h ?_ ?_
      · exact .operation hleft hright he hnode
      · rintro rfl h
        obtain ⟨op, u, v, hy, hop⟩ := exists_arith_of_precedence ha (.inl h)
        have hne := hkept op u v hy
        rw [h] at hop
        cases op <;> simp [ArithOp.precedence] at hop hne
      · rintro rfl h
        obtain ⟨op, u, v, hy, hop⟩ := exists_arith_of_precedence ha (.inr h)
        have hne := hkept op u v hy
        rw [h] at hop
        cases op <;> simp [ArithOp.precedence] at hop hne
    | call f args =>
      rw [hnode] at hoperand hallowed
      rw [Node.unfold, Expr.level, Expr.text, Expr.texts_eq_map, List.map_map]
      exact .call hallowed (fun x hx => (hoperand x hx).loosen (Level.height_le _)) he hnode
    | compare op x y =>
      rw [hnode] at hoperand hkept
      refine .comparison ((hoperand x (by simp [Node.operands])).parenthesize fun h => ?_)
        ((hoperand y (by simp [Node.operands])).parenthesize fun h => ?_) he hnode
      · have hloose := of_decide_eq_false h
        have hne : (a.tree x).precedence ≠ 3 := fun h => by
          obtain ⟨op, u, v, hcompare⟩ := exists_compare_of_precedence ha h
          exact hkept op u v hcompare
        exact Expr.height_level_le (p := 4) (by omega) rfl
      · have htight := of_decide_eq_false h
        exact Expr.height_level_le (p := 4) (by omega) rfl
    | join c items =>
      rw [hnode] at hoperand hallowed
      rw [Node.unfold, Expr.level, Expr.text, Expr.itemTexts_eq_map, List.map_map]
      refine .joined hallowed.2 (fun x hx => (hoperand x hx).parenthesize fun h => ?_) he hnode
      have htight := Nat.lt_of_not_le (of_decide_eq_false h)
      cases c <;> exact Expr.height_level_le htight rfl

end Arena

/-! ## Texts of expressions that were read -/

namespace Build

variable {a b : Arena α} {e : ExprId} {s : String}

theorem parse_eq_ok : (parse s).run.run a = (.ok e, b) ↔ ∃ tokens t, Lexeme.scan 0 s.toList = .ok tokens ∧
    Derives .disjunction tokens t ∧ (t.build ⟨s, none⟩).run a = (e, b) := by
  rw [parse, parseRange_eq_ok]
  dsimp only
  rw [Text.slice_whole]

/-- What is read is reduced, and its names are words. -/
theorem reduced_of_parse (h : (parse s).run.run a = (.ok e, b)) (ha : a.WellFormed) :
    b.WellFormed ∧ b.Reduced e ∧ b.Uses (.formulas α Vocabulary.IsName) e := by
  obtain ⟨hb, -, huses⟩ := (yields_parseRange (C := ∅) (Vocabulary.complete_formulas fun _ h => h)
    _ _ _).of_run h ha fun x hx => hx.elim
  obtain ⟨tokens, t, -, -, hbuild⟩ := parse_eq_ok.1 h
  have hreduced := (@Phrase.leads_build α _ ⟨s, none⟩ a ha t).holds
  rw [hbuild] at hreduced
  exact ⟨hb, hreduced, huses e rfl⟩

/-- An expression that was read, whose literals are legible and in which the printer keeps everything
apart, is read again from its text, in the arena in which it was read and in all larger ones. -/
theorem parse_text {a₀ : Arena α} (ha₀ : a₀.WellFormed)
    (hparse : (parse s).run.run a₀ = (.ok e, a)) (hlegible : a.MadeOf Node.Legible e)
    (hplain : a.MadeOf (Node.Plain a) e)
    (hb : b.WellFormed) (hab : a ≤ b) : ∃ c, (parse (b.text e)).run.run b = (.ok e, c) := by
  obtain ⟨ha, hreduced, huses⟩ := reduced_of_parse hparse ha₀
  have htext : b.text e = (a.tree e).text := by
    rw [Arena.text, ha.tree_mono hb hab hplain.lt_size]
  obtain ⟨us, t, hscan, ht, hbuild⟩ := ((Arena.writes_tree ha hreduced huses hlegible hplain).loosen
    (Level.height_le _) (m := .disjunction)) 0 [] Token.delimits_nil
  obtain ⟨c, hrun, -, -⟩ := hbuild.run ⟨(a.tree e).text, none⟩ hb hab
  refine ⟨c, ?_⟩
  rw [htext, parse_eq_ok]
  exact ⟨us, t, hscan.scan_eq, ht, hrun⟩

end Build

/-! ## Double precision -/

/-- A literal of the node is finite. -/
def Node.Finite : Node α → Prop
  | .num v => Scalar.isFinite v = true
  | _ => True

theorem Node.legible_of_finite (n : Node Binary64) (h : n.Finite) : n.Legible := by
  cases n with
  | num v => exact Binary64.legible_of_isFinite h
  | sym | neg | arith | call | compare | join => trivial

namespace Build

open Lexeme (Scans)

/-- Printing then parsing gives the same node, in double precision as well, where the text of a finite
number is a decimal that reads back as that number. -/
theorem parse_printed {a₀ a b : Arena Binary64} {s : String} {e : ExprId} (ha₀ : a₀.WellFormed)
    (hparse : (parse s).run.run a₀ = (.ok e, a)) (hfinite : a.MadeOf Node.Finite e)
    (hplain : a.MadeOf (Node.Plain a) e) (hb : b.WellFormed) (hab : a ≤ b) :
    ∃ c, (parse (b.text e)).run.run b = (.ok e, c) :=
  parse_text ha₀ hparse (hfinite.imp Node.legible_of_finite) hplain hb hab

/-- A comparison of a name with a number is read, and read again. -/
theorem parse_printed_comparison : ∃ (e x y : ExprId) (a : Arena Binary64),
    (parse "a < 2").run.run ({} : Arena Binary64) = (.ok e, a) ∧ a.node e = .compare .lt x y ∧
      ∃ b, (parse (a.text e)).run.run a = (.ok e, b) := by
  let source : Source := ⟨"a < 2", none⟩
  let value : Binary64 := Scalar.unsignedZero (Scalar.ofNumeral ⟨false, .decimal 2 0⟩)
  let name := (sym ⟨"a", some ⟨source, 0, 1⟩⟩ : Build Binary64 ExprId).run {}
  let number := (intern (.num value) : Build Binary64 ExprId).run name.2
  let comparison := (compare .lt name.1 number.1 : Build Binary64 ExprId).run number.2
  have hscan : Scans 0 ("a".toList ++ ([' '] ++ (['<'] ++ ([' '] ++ ['2'])))) []
      [⟨.ident "a", 0, 1⟩, ⟨.compare .lt, 2, 3⟩, ⟨.num (.decimal 2 0), 4, 5⟩] :=
    .append (.word rfl (Token.delimits_cons (.inl rfl))) <| .append .space <|
      .append (.token rfl rfl) <| .append .space <|
        .number (Token.isDecimal_singleton rfl) rfl Token.delimits_nil
  have hside {l : Lexeme} {t : Phrase} (h : Derives .atom [l] t) : Derives .sum [l] t :=
    @Derives.sum [l] [] _ _ (@Derives.product [l] [] _ _ (.unsigned (.base h)) .nil) .nil
  have hderives := @Derives.disjunction _ [] _ _ (@Derives.conjunction _ [] _ _
    (.comparison (hside (l := ⟨.ident "a", 0, 1⟩) (.name rfl)) (l := ⟨.compare .lt, 2, 3⟩) rfl
      (hside (l := ⟨.num (.decimal 2 0), 4, 5⟩) (.number rfl))) .nil) .nil
  have hparse : (parse "a < 2").run.run ({} : Arena Binary64) = (.ok comparison.1, comparison.2) :=
    parse_eq_ok.2 ⟨_, _, hscan.scan_eq, hderives, rfl⟩
  -- the nodes of the comparison
  have hname := getElem?_intern (.sym "a") (some ("a", ⟨source, 0, 1⟩)) (Arena.wellFormed_empty (α := Binary64))
  have hname' := wellFormed_intern (.sym "a") (some ("a", ⟨source, 0, 1⟩))
    (Arena.wellFormed_empty (α := Binary64)) (by simp [Node.operands])
  have hnumber := getElem?_intern (.num value) none hname'
  have hnumber' := wellFormed_intern (.num value) none hname' (by simp [Node.operands])
  have hgrown := le_intern name.2 (.num value) none
  have hgrown' := le_intern number.2 (.compare .lt name.1 number.1) none
  have hcomparison := getElem?_intern (.compare .lt name.1 number.1) none hnumber'
  have hmade {P : Node Binary64 → Prop} (hP : P (.sym "a")) (hP' : P (.num value))
      (hP'' : P (.compare .lt name.1 number.1)) : comparison.2.MadeOf P comparison.1 := by
    refine .node hcomparison hP'' fun x hx => ?_
    rcases List.mem_pair.1 hx with rfl | rfl
    · exact .node (hgrown' (hgrown hname)) hP fun x hx => absurd hx List.not_mem_nil
    · exact .node (hgrown' hnumber) hP' fun x hx => absurd hx List.not_mem_nil
  have hplain : Node.Plain comparison.2 (.compare .lt name.1 number.1) := fun op u v h => by
    have hnode := Arena.node_eq_of_getElem? (hgrown' (hgrown hname))
    cases hnode.symm.trans h
  have hfinite : Scalar.isFinite value = true := by decide +kernel
  obtain ⟨hwell, -, -⟩ := reduced_of_parse hparse Arena.wellFormed_empty
  exact ⟨_, _, _, _, hparse, Arena.node_eq_of_getElem? hcomparison,
    parse_printed Arena.wellFormed_empty hparse (hmade trivial hfinite trivial)
      (hmade trivial trivial hplain) hwell (le_refl _)⟩

end Build

end HybridPlan
