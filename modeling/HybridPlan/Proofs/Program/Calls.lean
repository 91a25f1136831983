import HybridPlan.Proofs.Program.Growth
import HybridPlan.Proofs.Program.Violation

set_option autoImplicit false

/-! # Calls of a program

A program is changed by calls that add a variable, add a row, set the objective or make a term. Whatever
is called, in whatever order, names lead to the variables and rows that have them, and every variable
has bounds that leave it a value. A call that is refused changes nothing. -/

namespace HybridPlan

namespace Binary64

theorem min_le_right {v w : Binary64} (hw : Scalar.isUndefined w = false) :
    Scalar.le (Scalar.min v w) w = true := by
  unfold Scalar.min
  rw [hw]
  split
  · exact le_self hw
  · split
    · next h => cases h
    · split
      · next h => exact le_of_lt h
      · exact le_self hw

end Binary64

variable {α : Type} [Scalar α]

/-- A call that changes a program. -/
inductive ProgramCall (α : Type) [Scalar α] where
  | addVar (name : String) (domain : VarDomain) (lower upper : α)
  | addRow (name : String) (lower : α) (body : TermId) (upper : α)
  | setObjective (sense : Sense) (objective : List (VarId × α))
  | make (m : Terms.Make α TermId)

/-- What a call answers, and the program after it. -/
def ProgramCall.run (p : Program α) : ProgramCall α → Except (ProgramError α) Unit × Program α
  | addVar name domain lower upper =>
    let (answer, q) := (Program.addVar name domain lower upper).run.run p
    (answer.map fun _ => (), q)
  | addRow name lower body upper => (Program.addRow name lower body upper).run.run p
  | setObjective sense objective => (.ok (), p.setObjective sense objective)
  | make m => (.ok (), ((Program.withTerms m).run p).2)

namespace Program

variable {p q : Program α} {call : ProgramCall α} {e : ProgramError α} {name : String}

/-- The program that calls leave, one after the other, some of them refused. -/
def after (name : String) (calls : List (ProgramCall α)) : Program α :=
  calls.foldl (fun p call => (call.run p).2) { name }

/-- Why a call is refused. -/
def Refuses (p : Program α) : ProgramCall α → ProgramError α → Prop
  | .addVar name domain lower upper, e =>
    (∃ x ∈ p.vars.toList, x.name = name) ∧ e = .duplicateVariable name ∨
      (∀ x ∈ p.vars.toList, x.name ≠ name) ∧
        Scalar.lt (bounds domain lower upper).2 (bounds domain lower upper).1 ∧
        e = .emptyDomain name (bounds domain lower upper).1 (bounds domain lower upper).2
  | .addRow name _ _ _, e => (∃ r ∈ p.rows.toList, r.name = name) ∧ e = .duplicateRow name
  | .setObjective _ _, _ => False
  | .make _, _ => False

/-- The names of variables and rows are found, and the variables are those that additions make. -/
structure Consistent (p : Program α) : Prop where
  index : p.Indexed
  rowNames : ∀ name, p.rowNames.contains name ↔ ∃ r ∈ p.rows.toList, r.name = name
  nodup_rows : (p.rows.toList.map (·.name)).Nodup
  declared : ∀ x ∈ p.vars.toList, ¬Scalar.lt x.upper x.lower ∧
    ∃ lower upper, x = newVar x.name x.domain lower upper

theorem consistent_empty (name : String) : Consistent ({ name } : Program α) where
  index := indexed_empty name
  rowNames := by simp
  nodup_rows := List.nodup_nil
  declared x hx := absurd hx List.not_mem_nil

theorem Indexed.varOf?_eq_none (h : p.Indexed) :
    p.varOf? name = none ↔ ∀ x ∈ p.vars.toList, x.name ≠ name := by
  rw [Option.eq_none_iff_forall_ne_some]
  constructor
  · intro hnone x hx hname
    obtain ⟨v, hv⟩ := List.mem_iff_getElem?.1 hx
    exact hnone v ((h name v).2 ⟨x, by rwa [← Array.getElem?_toList], hname⟩)
  · intro hnone v hv
    obtain ⟨x, hx, hname⟩ := (h name v).1 hv
    exact hnone x (Array.mem_toList_iff.2 (Array.mem_of_getElem? hx)) hname

theorem run_addVar (p : Program α) (name : String) (domain : VarDomain) (lower upper : α) :
    (ProgramCall.addVar name domain lower upper).run p =
      (((addVar name domain lower upper).run.run p).1.map fun _ => (),
        ((addVar name domain lower upper).run.run p).2) := rfl

theorem run_addVar_eq_error {domain : VarDomain} {lower upper : α} :
    (ProgramCall.addVar name domain lower upper).run p = (.error e, q) ↔
      (addVar name domain lower upper).run.run p = (.error e, q) := by
  rw [run_addVar]
  generalize (addVar name domain lower upper).run.run p = result
  rcases result with ⟨e' | v, q'⟩
  · constructor
    · intro h
      cases h
      rfl
    · intro h
      cases h
      rfl
  · exact ⟨fun h => (by cases h), fun h => (by cases h)⟩

/-- A variable with a new name and bounds that leave it a value is added. -/
theorem run_addVar_eq_ok {domain : VarDomain} {lower upper : α} (hname : p.varOf? name = none)
    (hbounds : ¬Scalar.lt (bounds domain lower upper).2 (bounds domain lower upper).1) :
    (ProgramCall.addVar name domain lower upper).run p =
      (.ok (), p.withVar (newVar name domain lower upper)) := by
  rw [run_addVar, addVar_eq_ok.2 ⟨hname, hbounds, rfl, rfl⟩]
  rfl

namespace Consistent

variable (hp : p.Consistent)
include hp

theorem withVar {v : ProgramVar α} (hv : p.varOf? v.name = none) (hbounds : ¬Scalar.lt v.upper v.lower)
    (hnew : ∃ lower upper, v = newVar v.name v.domain lower upper) : (p.withVar v).Consistent where
  index := hp.index.withVar hv
  rowNames := hp.rowNames
  nodup_rows := hp.nodup_rows
  declared x hx := by
    rw [Program.withVar, Array.toList_push, List.mem_append, List.mem_singleton] at hx
    rcases hx with hx | rfl
    · exact hp.declared x hx
    · exact ⟨hbounds, hnew⟩

theorem withRow {r : Row α} (hr : ¬p.rowNames.contains r.name) : (p.withRow r).Consistent where
  index := hp.index
  rowNames name := by
    simp only [Program.withRow, Std.HashSet.contains_insert, Bool.or_eq_true, beq_iff_eq,
      hp.rowNames name, Array.toList_push, List.mem_append, List.mem_singleton, or_and_right,
      exists_or, exists_eq_left]
    exact or_comm
  nodup_rows := by
    rw [Program.withRow, Array.toList_push, List.map_append, List.nodup_append]
    refine ⟨hp.nodup_rows, List.nodup_singleton _, ?_⟩
    intro n hn n' hn' heq
    obtain ⟨r', hr', rfl⟩ := List.mem_map.1 hn
    rw [List.map_singleton, List.mem_singleton] at hn'
    exact hr ((hp.rowNames r.name).2 ⟨r', hr', heq.trans hn'⟩)
  declared := hp.declared

/-- A call is refused for a reason, and then nothing is changed. -/
theorem run_eq_error_iff : call.run p = (.error e, q) ↔ q = p ∧ p.Refuses call e := by
  cases call with
  | addVar name domain lower upper =>
    have htaken : p.varIndex.contains name ↔ ∃ x ∈ p.vars.toList, x.name = name := by
      have hnone : p.varOf? name = none ↔ _ := hp.index.varOf?_eq_none
      rw [← not_iff_not, not_exists]
      simpa [varOf?] using hnone
    rw [run_addVar_eq_error, addVar_eq_error_iff, htaken, hp.index.varOf?_eq_none]
    rfl
  | addRow name lower body upper =>
    change (Program.addRow name lower body upper).run.run p = (.error e, q) ↔ _
    rw [addRow_eq_error_iff, hp.rowNames]
    rfl
  | setObjective sense objective => exact ⟨fun h => (by cases h), fun h => h.2.elim⟩
  | make m => exact ⟨fun h => (by cases h), fun h => h.2.elim⟩

/-- What a call leaves is consistent again. -/
theorem run (call : ProgramCall α) : (call.run p).2.Consistent := by
  cases call with
  | addVar name domain lower upper =>
    rw [run_addVar]
    cases h : (addVar name domain lower upper).run.run p with
    | mk answer q =>
      cases answer with
      | error e =>
        obtain ⟨rfl, -⟩ := addVar_eq_error_iff.1 h
        exact hp
      | ok v =>
        obtain ⟨hnew, hbounds, -, rfl⟩ := addVar_eq_ok.1 h
        exact hp.withVar hnew hbounds ⟨lower, upper, rfl⟩
  | addRow name lower body upper =>
    change ((Program.addRow name lower body upper).run.run p).2.Consistent
    cases h : (Program.addRow name lower body upper).run.run p with
    | mk answer q =>
      cases answer with
      | error e =>
        obtain ⟨rfl, -⟩ := addRow_eq_error_iff.1 h
        exact hp
      | ok =>
        obtain ⟨hnew, rfl⟩ := addRow_eq_ok.1 h
        exact hp.withRow hnew
  | setObjective sense objective => exact ⟨hp.index, hp.rowNames, hp.nodup_rows, hp.declared⟩
  | make m => exact ⟨hp.index, hp.rowNames, hp.nodup_rows, hp.declared⟩

end Consistent

theorem after_concat (name : String) (calls : List (ProgramCall α)) (call : ProgramCall α) :
    after name (calls ++ [call]) = (call.run (after name calls)).2 :=
  List.foldl_concat ..

theorem consistent_after (name : String) (calls : List (ProgramCall α)) :
    (after name calls).Consistent :=
  List.foldlRecOn calls _ (consistent_empty name) fun _ hp call _ => hp.run call

/-- The first variable is added if its bounds leave it a value. -/
theorem after_addVar {n : String} {domain : VarDomain} {lower upper : α}
    (hbounds : ¬Scalar.lt (bounds domain lower upper).2 (bounds domain lower upper).1) :
    after name [.addVar n domain lower upper] =
      ({ name } : Program α).withVar (newVar n domain lower upper) := by
  have hnew : ({ name } : Program α).varOf? n = none :=
    (indexed_empty name).varOf?_eq_none.2 fun x hx => absurd hx List.not_mem_nil
  exact congrArg Prod.snd (run_addVar_eq_ok hnew hbounds)

/-- A variable that has a value at all has one between `0` and `1` if it is binary. -/
theorem within_of_newVar {x : ProgramVar Binary64} {lower upper : Binary64}
    (hx : x = newVar x.name x.domain lower upper) (hbinary : x.domain = .binary)
    (hbounds : ¬Scalar.lt x.upper x.lower) :
    Within Scalar.zero x.lower Scalar.one ∧ Within Scalar.zero x.upper Scalar.one := by
  have hlower : x.lower = Scalar.max lower Scalar.zero := by
    rw [hx]
    simp only [newVar, bounds, if_pos hbinary]
  have hupper : x.upper = Scalar.min upper Scalar.one := by
    rw [hx]
    simp only [newVar, bounds, if_pos hbinary]
  have hzero : Scalar.le Scalar.zero x.lower = true := by
    rw [hlower]
    exact Binary64.le_max_right Binary64.isUndefined_zero
  have hone : Scalar.le x.upper Scalar.one = true := by
    rw [hupper]
    exact Binary64.min_le_right (by decide)
  have hle : Scalar.le x.lower x.upper = true :=
    (Binary64.le_iff_not_lt (Binary64.le_iff.1 hzero).2.1 (Binary64.le_iff.1 hone).1).2 hbounds
  exact ⟨⟨hzero, Binary64.le_trans hle hone⟩, Binary64.le_trans hzero hle, hone⟩

/-- After any calls, refused ones among them, a name finds exactly the variable that has it, the names
of variables are different and so are those of rows, no variable has its lower bound above the upper
one, and the bounds of a binary one lie between `0` and `1`. A call is refused for a name that is taken or
for bounds that leave no value, and then nothing is changed. So a name that was refused for its bounds
is free, and a call with other bounds declares it. -/
theorem after_refuses (name : String) (calls : List (ProgramCall Binary64)) :
    (∀ n v, (after name calls).varOf? n = some v ↔
      ∃ x, (after name calls).vars[v]? = some x ∧ x.name = n) ∧
    ((after name calls).vars.toList.map (·.name)).Nodup ∧
    (∀ n, (after name calls).rowNames.contains n ↔
      ∃ r ∈ (after name calls).rows.toList, r.name = n) ∧
    ((after name calls).rows.toList.map (·.name)).Nodup ∧
    (∀ x ∈ (after name calls).vars.toList, ¬Scalar.lt x.upper x.lower ∧ (x.domain = .binary →
      Within Scalar.zero x.lower Scalar.one ∧ Within Scalar.zero x.upper Scalar.one)) ∧
    (∀ call e q, call.run (after name calls) = (.error e, q) ↔
      q = after name calls ∧ (after name calls).Refuses call e) ∧
    ∀ call n low high, (after name calls).Refuses call (.emptyDomain n low high) →
      ∀ domain lower upper,
        ¬Scalar.lt (bounds domain lower upper).2 (bounds domain lower upper).1 →
        (ProgramCall.addVar n domain lower upper).run (after name (calls ++ [call])) =
          (.ok (), (after name calls).withVar (newVar n domain lower upper)) := by
  have hp := consistent_after name calls
  refine ⟨hp.index, hp.index.nodup_names, hp.rowNames, hp.nodup_rows, ?_,
    fun call e q => hp.run_eq_error_iff, ?_⟩
  · intro x hx
    obtain ⟨hbounds, lower, upper, hnew⟩ := hp.declared x hx
    exact ⟨hbounds, fun hbinary => within_of_newVar hnew hbinary hbounds⟩
  · intro call n low high hrefuses domain lower upper hbounds
    have hsame : call.run (after name calls) = (.error (.emptyDomain n low high), after name calls) :=
      hp.run_eq_error_iff.2 ⟨rfl, hrefuses⟩
    rw [after_concat, hsame]
    have hfree : (after name calls).varOf? n = none := by
      cases call with
      | addVar name' =>
        rcases hrefuses with ⟨-, herror⟩ | ⟨hnames, -, herror⟩
        · cases herror
        · cases herror
          exact hp.index.varOf?_eq_none.2 hnames
      | addRow => cases hrefuses.2
      | setObjective => exact hrefuses.elim
      | make => exact hrefuses.elim
    exact run_addVar_eq_ok hfree hbounds

end Program

end HybridPlan
