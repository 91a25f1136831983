import HybridPlan.Proofs.Encoding.Names
import Mathlib.Data.List.Nodup

set_option autoImplicit false

/-! # Labels

The names that an encoding gives to its rows and to its switches, in the order in which it gives them.
A conjunction numbers its conjuncts behind its own label, so that the label of a row shows the way
through the constraint down to it; a disjunction has a row and a switch for each disjunct, and one more
row. However deep a constraint is, and whatever the states are called, no name is given twice. -/

namespace HybridPlan.Encoding

variable {α : Type} [Scalar α]

/-! ## Names of a constraint -/

namespace NameKind

/-- The name of a variable, among names of variables. -/
def ofVar : NameKind → String → List String
  | var, x => [x]
  | row, _ => []

/-- The name of a row, among names of rows. -/
def ofRow : NameKind → String → List String
  | var, _ => []
  | row, x => [x]

/-- The name of the switch of a disjunct, or that of its row. -/
def ofDisjunct (K : NameKind) (label : String) (i : ℕ) : List String :=
  K.ofVar (switchName label i) ++ K.ofRow s!"{label}_or_{i}"

/-- The names that a constraint at most the given number of levels deep gives. -/
def ofConstraint (K : NameKind) (a : Arena α) : ℕ → String → ExprId → List String
  | 0, _, _ => []
  | n + 1, label, e =>
    match a.node e with
    | .join .and items => items.zipIdx.flatMap fun x => ofConstraint K a n s!"{label}_{x.2}" x.1
    | .compare _ _ _ => K.ofRow label
    | .join .or items =>
      (List.range' 0 items.length).flatMap (K.ofDisjunct label) ++ K.ofRow s!"{label}_or"
    | _ => []

variable {K : NameKind} {x y label : String} {i n : ℕ} {a : Arena α} {e : ExprId}

theorem mem_ofRow : x ∈ K.ofRow y ↔ K = .row ∧ x = y := by
  cases K <;> simp [ofRow]

theorem nodup_ofRow : (K.ofRow x).Nodup := by
  cases K <;> simp [ofRow]

theorem nodup_ofDisjunct : (K.ofDisjunct label i).Nodup := by
  cases K <;> simp [ofDisjunct, ofVar, ofRow]

theorem mem_disjunct_of_mem (h : x ∈ K.ofDisjunct label i) : x ∈ K.disjunct (tokens label) i := by
  cases K with
  | var =>
    obtain rfl : x = switchName label i := by simpa [ofDisjunct, ofVar, ofRow] using h
    rw [disjunct, ending, List.append_nil]
    exact tokens_switchName label i
  | row =>
    obtain rfl : x = s!"{label}_or_{i}" := by simpa [ofDisjunct, ofVar, ofRow] using h
    rw [disjunct, head, ending, List.nil_append, List.append_assoc]
    exact tokens_or_numbered label i

/-- All names of a constraint begin with its label. -/
theorem mem_names_of_mem_ofConstraint (h : x ∈ K.ofConstraint a n label e) :
    x ∈ K.names (tokens label) := by
  induction n generalizing label e with
  | zero => cases h
  | succ n ih =>
    unfold ofConstraint at h
    split at h
    · obtain ⟨y, -, hx⟩ := List.mem_flatMap.1 h
      have hx := ih hx
      rw [tokens_numbered] at hx
      exact names_subset (List.prefix_append _ _) hx
    · obtain ⟨rfl, rfl⟩ := mem_ofRow.1 h
      exact List.prefix_refl _
    · rcases List.mem_append.1 h with h | h
      · obtain ⟨j, -, hx⟩ := List.mem_flatMap.1 h
        exact disjunct_subset j (mem_disjunct_of_mem hx)
      · obtain ⟨rfl, rfl⟩ := mem_ofRow.1 h
        have hor : head .row ++ tokens label <+: tokens label ++ ["or".toList] :=
          List.prefix_append _ _
        rwa [← tokens_or] at hor
    · cases h

/-- Numbered items have different numbers. -/
theorem pairwise_zipIdx {ι : Type} {R : ι × ℕ → ι × ℕ → Prop} (hR : ∀ x y, x.2 ≠ y.2 → R x y)
    (l : List ι) (k : ℕ) : (l.zipIdx k).Pairwise R := by
  have hnodup : ((l.zipIdx k).map Prod.snd).Nodup := by
    rw [List.zipIdx_map_snd]
    exact List.nodup_range'
  exact (List.pairwise_map.1 hnodup).imp fun {x y} hne => hR x y hne

theorem nodup_ofConstraint (K : NameKind) (a : Arena α) (n : ℕ) (label : String) (e : ExprId) :
    (K.ofConstraint a n label e).Nodup := by
  induction n generalizing label e with
  | zero => exact List.nodup_nil
  | succ n ih =>
    unfold ofConstraint
    split
    · -- the names of a conjunct begin with its number
      refine List.nodup_flatMap.2 ⟨fun y _ => ih _ _, pairwise_zipIdx (fun y z hne => ?_) _ _⟩
      intro x hy hz
      have hy := mem_names_of_mem_ofConstraint hy
      have hz := mem_names_of_mem_ofConstraint hz
      rw [tokens_numbered] at hy hz
      exact Set.disjoint_left.1 (disjoint_numbered hne) hy hz
    · exact nodup_ofRow
    · next items _ =>
      have hdisjuncts : ((List.range' 0 items.length).flatMap (K.ofDisjunct label)).Nodup := by
        have hpositions : (List.range' 0 items.length).Nodup := List.nodup_range'
        refine List.nodup_flatMap.2 ⟨fun i _ => nodup_ofDisjunct, ?_⟩
        refine hpositions.imp fun {i j} hne x hi hj => ?_
        exact Set.disjoint_left.1 (disjoint_disjunct hne) (mem_disjunct_of_mem hi)
          (mem_disjunct_of_mem hj)
      refine List.nodup_append.2 ⟨hdisjuncts, nodup_ofRow, ?_⟩
      rintro x hx _ hy rfl
      -- the row of the disjunction has no number at its end
      obtain ⟨i, -, hx⟩ := List.mem_flatMap.1 hx
      obtain ⟨rfl, rfl⟩ := mem_ofRow.1 hy
      have htokens : tokens s!"{label}_or" = [] ++ tokens label ++ ["or".toList] ++ [digits i] :=
        mem_disjunct_of_mem hx
      rw [tokens_or] at htokens
      simpa using congrArg List.length htokens
    · exact List.nodup_nil

end NameKind

/-! ## Names of a program -/

namespace Part

/-- The label as it is written. -/
def title (q : Part) : String :=
  match q with
  | initial i | goal i | reward i => s!"{q.word}_{i}"
  | instantaneous i t | temporal i t | cut i t => s!"{q.word}_{i}_{t}"
  | transition state t => s!"{q.word}_{state}_{t}"

theorem tokens_title (q : Part) : tokens q.title = q.label := by
  have htwo (word : String) (i t : ℕ) : tokens s!"{word}_{i}_{t}" = tokens word ++ [digits i, digits t] := by
    have hname : s!"{word}_{i}_{t}" = s!"{word}_{i}" ++ "_" ++ toString t := rfl
    rw [hname, tokens_join, tokens_numbered, tokens_toString, List.append_assoc]
    rfl
  rw [← tokens_word]
  cases q with
  | initial i | goal i | reward i => exact tokens_numbered (word _) i
  | instantaneous i t | temporal i t | cut i t => exact htwo (word _) i t
  | transition state t =>
    have hname : title (transition state t) =
        word (transition state t) ++ "_" ++ state ++ "_" ++ toString t := rfl
    rw [hname, tokens_join, tokens_join, tokens_toString, List.append_assoc]
    rfl

/-- The names that are given in a part for an expression. -/
def given (K : NameKind) (a : Arena α) (q : Part) (e : ExprId) : List String :=
  match q with
  | transition _ _ | reward _ => K.ofRow q.title
  | _ => K.ofConstraint a (e + 1) q.title e

variable {K : NameKind} {a : Arena α} {q : Part} {e : ExprId} {x : String}

theorem mem_names_of_mem_given (h : x ∈ q.given K a e) : x ∈ q.names K := by
  cases q with
  | transition | reward =>
    obtain ⟨rfl, rfl⟩ := NameKind.mem_ofRow.1 h
    exact ⟨rfl, tokens_title _⟩
  | initial | instantaneous | temporal | goal | cut =>
    have hx := NameKind.mem_names_of_mem_ofConstraint h
    rwa [tokens_title] at hx

theorem nodup_given (K : NameKind) (a : Arena α) (q : Part) (e : ExprId) : (q.given K a e).Nodup := by
  cases q with
  | transition | reward => exact NameKind.nodup_ofRow
  | initial | instantaneous | temporal | goal | cut => exact NameKind.nodup_ofConstraint _ _ _ _ _

end Part

/-- Constraints and their parts. -/
def numbered (q : ℕ → Part) (cs : List Constraint) : List (Part × ExprId) :=
  cs.zipIdx.map fun c => (q c.2, c.1.expr)

/-- The parts of a stage. -/
def stageContents (p : Problem α) (t : ℕ) : List (Part × ExprId) :=
  numbered (.instantaneous · t) p.domain.instantaneous ++
    (numbered (.temporal · t) p.domain.temporal ++
      (p.transitions.map (fun x => (.transition x.1 t, x.2)) ++
        [(.reward t, p.domain.reward.expr)]))

/-- The parts of the cuts from a position on, of the stages that the plan has. -/
def cutContents (horizon k : ℕ) (cs : List (Cut α)) : List (Part × ExprId) :=
  ((cs.zipIdx k).filter (·.1.stage < horizon)).map fun c => (.cut c.2 c.1.stage, c.1.expr)

/-- The parts of an encoding in their order, each with its expression. -/
def contents (p : Problem α) (horizon : ℕ) (store : CutStore α) : List (Part × ExprId) :=
  numbered .initial p.domain.initials ++
    ((List.range horizon).flatMap (stageContents p) ++
      ((if horizon > 0 then numbered .goal p.domain.goals else []) ++
        cutContents horizon 0 store.items.toList))

/-- The names that an encoding gives to its rows, or to its switches, in their order. -/
def givenNames (K : NameKind) (p : Problem α) (horizon : ℕ) (store : CutStore α) : List String :=
  (contents p horizon store).flatMap fun c => c.1.given K p.arena c.2

/-! ## No part comes twice -/

theorem exists_of_mem_numbered {q : ℕ → Part} {cs : List Constraint} {x : Part × ExprId}
    (h : x ∈ numbered q cs) : ∃ i, x.1 = q i := by
  obtain ⟨c, -, rfl⟩ := List.mem_map.1 h
  exact ⟨c.2, rfl⟩

omit [Scalar α] in
theorem exists_of_mem_cutContents {horizon k : ℕ} {cs : List (Cut α)} {x : Part × ExprId}
    (h : x ∈ cutContents horizon k cs) : ∃ j t, x.1 = .cut j t := by
  obtain ⟨c, -, rfl⟩ := List.mem_map.1 h
  exact ⟨c.2, c.1.stage, rfl⟩

theorem pairwise_numbered {q : ℕ → Part} (hq : Function.Injective q) (cs : List Constraint) :
    (numbered q cs).Pairwise (·.1 ≠ ·.1) := by
  refine List.pairwise_map.2 (NameKind.pairwise_zipIdx (fun x y hne => ?_) cs 0)
  exact hq.ne hne

omit [Scalar α] in
theorem pairwise_cutContents (horizon k : ℕ) (cs : List (Cut α)) :
    (cutContents horizon k cs).Pairwise (·.1 ≠ ·.1) := by
  refine List.pairwise_map.2 ((NameKind.pairwise_zipIdx (fun x y hne => ?_) cs k).filter _)
  intro h
  exact hne (Part.cut.inj h).1

variable {p : Problem α}

theorem stage?_of_mem_stageContents {t : ℕ} {x : Part × ExprId} (h : x ∈ stageContents p t) :
    x.1.stage? = some t := by
  simp only [stageContents, List.mem_append, List.mem_map, List.mem_singleton] at h
  rcases h with h | h | ⟨y, -, rfl⟩ | rfl
  · obtain ⟨i, hi⟩ := exists_of_mem_numbered h
    rw [hi, Part.stage?]
  · obtain ⟨i, hi⟩ := exists_of_mem_numbered h
    rw [hi, Part.stage?]
  · rfl
  · rfl

theorem pairwise_stageContents (hstates : (p.transitions.map (·.1)).Nodup) (t : ℕ) :
    (stageContents p t).Pairwise (·.1 ≠ ·.1) := by
  have htransitions : (p.transitions.map fun x => (Part.transition x.1 t, x.2)).Pairwise
      (·.1 ≠ ·.1) := by
    refine List.pairwise_map.2 ((List.pairwise_map.1 hstates).imp fun {x y} hne h => ?_)
    exact hne (Part.transition.inj h).1
  refine List.pairwise_append.2 ⟨pairwise_numbered (fun i j h => (Part.instantaneous.inj h).1) _,
    List.pairwise_append.2 ⟨pairwise_numbered (fun i j h => (Part.temporal.inj h).1) _,
      List.pairwise_append.2 ⟨htransitions, List.pairwise_singleton _ _, ?_⟩, ?_⟩, ?_⟩
  · intro x hx y hy
    obtain ⟨z, -, rfl⟩ := List.mem_map.1 hx
    obtain rfl := List.mem_singleton.1 hy
    simp
  · intro x hx y hy
    obtain ⟨i, hi⟩ := exists_of_mem_numbered hx
    simp only [List.mem_append, List.mem_map, List.mem_singleton] at hy
    rcases hy with ⟨z, -, rfl⟩ | rfl <;> simp [hi]
  · intro x hx y hy
    obtain ⟨i, hi⟩ := exists_of_mem_numbered hx
    simp only [List.mem_append, List.mem_map, List.mem_singleton] at hy
    rcases hy with hy | ⟨z, -, rfl⟩ | rfl
    · obtain ⟨j, hj⟩ := exists_of_mem_numbered hy
      simp [hi, hj]
    · simp [hi]
    · simp [hi]

/-- The parts of an encoding differ: parts of one kind are numbered, or are those of different states,
and parts of different stages have the number of the stage. -/
theorem pairwise_contents (hstates : (p.transitions.map (·.1)).Nodup) (horizon : ℕ)
    (store : CutStore α) : (contents p horizon store).Pairwise (·.1 ≠ ·.1) := by
  have hstages : ((List.range horizon).flatMap (stageContents p)).Pairwise (·.1 ≠ ·.1) := by
    refine List.pairwise_flatMap.2 ⟨fun t _ => pairwise_stageContents hstates t, ?_⟩
    refine List.nodup_range.imp fun {t u} hne x hx y hy h => hne ?_
    have ht := stage?_of_mem_stageContents hx
    rw [h, stage?_of_mem_stageContents hy] at ht
    exact (Option.some.inj ht).symm
  have hgoals : (if horizon > 0 then numbered .goal p.domain.goals else []).Pairwise (·.1 ≠ ·.1) := by
    split
    · exact pairwise_numbered (fun i j h => Part.goal.inj h) _
    · exact .nil
  have hgoal {x : Part × ExprId}
      (hx : x ∈ if horizon > 0 then numbered .goal p.domain.goals else []) : ∃ i, x.1 = .goal i := by
    split at hx
    · exact exists_of_mem_numbered hx
    · cases hx
  have hstage {x : Part × ExprId} (hx : x ∈ (List.range horizon).flatMap (stageContents p)) :
      x.1.stage?.isSome := by
    obtain ⟨t, -, hx⟩ := List.mem_flatMap.1 hx
    rw [stage?_of_mem_stageContents hx, Option.isSome_some]
  refine List.pairwise_append.2 ⟨pairwise_numbered (fun i j h => Part.initial.inj h) _,
    List.pairwise_append.2 ⟨hstages,
      List.pairwise_append.2 ⟨hgoals, pairwise_cutContents _ _ _, ?_⟩, ?_⟩, ?_⟩
  · intro x hx y hy
    obtain ⟨i, hi⟩ := hgoal hx
    obtain ⟨j, t, hj⟩ := exists_of_mem_cutContents hy
    simp [hi, hj]
  · intro x hx y hy h
    have hx := hstage hx
    rcases List.mem_append.1 hy with hy | hy
    · obtain ⟨i, hi⟩ := hgoal hy
      simp [h, hi, Part.stage?] at hx
    · obtain ⟨j, t, hj⟩ := exists_of_mem_cutContents hy
      simp [h, hj, Part.stage?] at hx
  · intro x hx y hy h
    obtain ⟨i, hi⟩ := exists_of_mem_numbered hx
    rcases List.mem_append.1 hy with hy | hy
    · have hy := hstage hy
      simp [← h, hi, Part.stage?] at hy
    · rcases List.mem_append.1 hy with hy | hy
      · obtain ⟨j, hj⟩ := hgoal hy
        simp [hi, hj] at h
      · obtain ⟨j, t, hj⟩ := exists_of_mem_cutContents hy
        simp [hi, hj] at h

/-- No name is given twice. -/
theorem nodup_givenNames (hstates : (p.transitions.map (·.1)).Nodup) (K : NameKind) (horizon : ℕ)
    (store : CutStore α) : (givenNames K p horizon store).Nodup := by
  refine List.nodup_flatMap.2 ⟨fun c _ => Part.nodup_given _ _ _ _, ?_⟩
  refine (pairwise_contents hstates horizon store).imp fun {c d} hne x hc hd => hne ?_
  exact Part.eq_of_mem_names (Part.mem_names_of_mem_given hc) (Part.mem_names_of_mem_given hd)

end HybridPlan.Encoding
