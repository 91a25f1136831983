import HybridPlan.Dynamics.Transitions
import HybridPlan.Proofs.Dynamics.Recursion
import HybridPlan.Proofs.Except

set_option autoImplicit false

/-! # Closed forms stay in a vocabulary

The closed forms of the states are made of the right-hand sides of the equations, of the states and
the duration, and of numbers. -/

namespace HybridPlan

variable {α : Type} [Scalar α] {V : Vocabulary α} (hV : V.Closed) {C : Set ExprId}

open Build

/-! ## Lie series -/

namespace Series

include hV

theorem yields_lieDerivative {system : List Rate} (dt : String) {g : ExprId}
    (hsystem : ∀ r ∈ system, r.rhs ∈ C) (hg : g ∈ C) :
    Attempt.Yields V C (lieDerivative system dt g) ({·}) := by
  refine .bind (yields_derive hV dt hg) fun explicit => ?_
  refine .foldlM (Set.subset_union_left) fun sum r hr => ?_
  refine .bind (yields_derive hV r.state (.inr (.inr hg))) fun dx => ?_
  refine .bind (.lift (yields_mul hV (.inl rfl) (.inr (.inr (.inr (hsystem r hr)))))) fun term => ?_
  exact .lift (yields_add hV (.inr (.inr (.inl rfl))) (.inl rfl))

theorem yields_summand {duration coefficient : ExprId} (k factorial : Nat) (hd : duration ∈ C)
    (hc : coefficient ∈ C) :
    Build.Yields V C (summand duration coefficient k factorial) ({·}) := by
  refine .bind (yields_powInt hV hd) fun power => ?_
  refine .bind (yields_mul hV (.inr hc) (.inl rfl)) fun scaled => ?_
  refine .bind (yields_num hV (hV.nat factorial)) fun denominator => ?_
  exact yields_div hV (.inr (.inl rfl)) (.inl rfl)

theorem yields_extend {system : List Rate} (dt : String) {duration zeroExpr : ExprId} (n : Nat)
    (k factorial : Nat) {term sum : ExprId} (hsystem : ∀ r ∈ system, r.rhs ∈ C)
    (hd : duration ∈ C) (hz : zeroExpr ∈ C) (hterm : term ∈ C) (hsum : sum ∈ C) :
    Attempt.Yields V C (extend system dt duration zeroExpr n k factorial term sum)
      fun r => {x | r = some x} := by
  induction n generalizing k factorial term sum C with
  | zero => exact .pure (by simp)
  | succ n ih =>
    refine .bind (yields_lieDerivative hV dt hsystem hterm) fun term => .look fun a => .ite ?_ ?_
    · exact .pure fun x hx => .inr (Option.some.inj hx ▸ hsum)
    · have hz' (s : String) (x : ExprId) (h : Substitution.ofList [(dt, zeroExpr)] s = some x) :
          x ∈ {term} ∪ C := by
        obtain ⟨rfl, rfl⟩ : s = dt ∧ x = zeroExpr := by simpa using mem_of_ofList h
        exact .inr hz
      refine .bind (.lift (yields_substitute hV hz' (.inl rfl))) fun coefficient => ?_
      refine .bind (.lift (yields_summand hV _ _ (.inr (.inr hd)) (.inl rfl))) fun s => ?_
      refine .bind (.lift (yields_add hV (.inr (.inr (.inr hsum))) (.inl rfl))) fun sum => ?_
      exact ih _ _ (fun r hr => .inr (.inr (.inr (.inr (hsystem r hr)))))
        (.inr (.inr (.inr (.inr hd)))) (.inr (.inr (.inr (.inr hz)))) (.inr (.inr (.inr (.inl rfl))))
        (.inl rfl)

theorem yields_closedForm? {system : List Rate} {dt state : String}
    (hsystem : ∀ r ∈ system, r.rhs ∈ C) (hdt : V.symbol dt) (hstate : V.symbol state) :
    Attempt.Yields V C (closedForm? system dt state) fun r => {x | r = some x} := by
  refine .bind (.lift (yields_sym hdt)) fun duration => ?_
  refine .bind (.lift (yields_zero hV)) fun zeroExpr => ?_
  refine .bind (.lift (yields_sym hstate)) fun start => ?_
  exact yields_extend hV dt _ _ _ (fun r hr => .inr (.inr (.inr (hsystem r hr))))
    (.inr (.inr (.inl rfl))) (.inr (.inl rfl)) (.inl rfl) (.inl rfl)

end Series

/-! ## Exponential polynomials -/

namespace ExpPolynomial

/-- The expressions in a sum. -/
def parts (terms : List ExpTerm) : Set ExprId :=
  {x | ∃ t ∈ terms, x ∈ ({t.coefficient, t.rate} : Set ExprId)}

theorem coefficient_mem_parts {terms : List ExpTerm} {t : ExpTerm} (ht : t ∈ terms) :
    t.coefficient ∈ parts terms :=
  ⟨t, ht, .inl rfl⟩

theorem rate_mem_parts {terms : List ExpTerm} {t : ExpTerm} (ht : t ∈ terms) :
    t.rate ∈ parts terms :=
  ⟨t, ht, .inr rfl⟩

include hV

theorem yields_decompose? (t : String) {e : ExprId} (he : e ∈ C) :
    Build.Yields V C (decompose? t e) fun r => {x | ∃ ts, r = some ts ∧ x ∈ parts ts} := by
  intro a ha hC
  have hP := arithmetical_allows hV
  have hconsists : Inherited t V.Allows fun a _ terms => Consists V.Allows a terms :=
    inherited_consists hP hP.neg fun _ he _ => he
  obtain ⟨hb, hab, hterms⟩ := hconsists.leads ha (hC e he)
  refine ⟨hb, hab, ?_⟩
  rintro x ⟨ts, hts, term, hterm, rfl | rfl⟩
  · exact (hterms ts hts term hterm).coefficient
  · exact (hterms ts hts term hterm).rate

end ExpPolynomial

/-! ## Linear equations -/

namespace Linear

/-- The last falling factorial is a literal, whatever the arena is. -/
theorem gives_byParts (hV : V.Closed) (t d : ExprId) (n m k : Nat) {falling : α} (sum : ExprId)
    (hf : V.literal falling) :
    Gives (fun r => V.literal r.2) (byParts t d n m k falling sum) := by
  induction m generalizing k falling sum with
  | zero => exact fun _ => hf
  | succ m ih =>
    unfold byParts
    have hnext : V.literal (if k = 0 then falling else falling * Scalar.nat (n - k + 1)) := by
      split
      · exact hf
      · exact hV.mul _ _ hf (hV.nat _)
    exact .bind fun c => .bind fun tPower => .bind fun dPower => .bind fun numerator =>
      .bind fun summand => .bind fun sum => ih (k + 1) sum hnext

include hV

theorem literal_alternate (n : Nat) {x : α} (hx : V.literal x) : V.literal (alternate n x) := by
  unfold alternate
  split
  · exact hx
  · exact hV.neg _ hx

theorem yields_byParts {t d : ExprId} (n m k : Nat) {falling : α} {sum : ExprId} (ht : t ∈ C)
    (hd : d ∈ C) (hf : V.literal falling) (hsum : sum ∈ C) :
    Build.Yields V C (byParts t d n m k falling sum) fun r => {r.1} := by
  induction m generalizing k falling sum C with
  | zero => exact .pure (Set.singleton_subset_iff.2 hsum)
  | succ m ih =>
    unfold byParts
    have hnext : V.literal (if k = 0 then falling else falling * Scalar.nat (n - k + 1)) := by
      split
      · exact hf
      · exact hV.mul _ _ hf (hV.nat _)
    refine .bind (yields_num hV (literal_alternate hV k hnext)) fun c => ?_
    refine .bind (yields_powInt hV (.inr ht)) fun tPower => ?_
    refine .bind (yields_powInt hV (.inr (.inr hd))) fun dPower => ?_
    refine .bind (yields_mul hV (.inr (.inr (.inl rfl))) (.inr (.inl rfl))) fun numerator => ?_
    refine .bind (yields_div hV (.inl rfl) (.inr (.inl rfl))) fun summand => ?_
    refine .bind (yields_add hV (.inr (.inr (.inr (.inr (.inr hsum))))) (.inl rfl)) fun sum => ?_
    exact ih _ (.inr (.inr (.inr (.inr (.inr (.inr ht))))))
      (.inr (.inr (.inr (.inr (.inr (.inr hd)))))) hnext (.inl rfl)

theorem yields_integral {t a growth : ExprId} {term : ExpTerm} (ht : t ∈ C) (ha : a ∈ C)
    (hg : growth ∈ C) (hr : term.rate ∈ C) :
    Build.Yields V C (integral t a growth term) ({·}) := by
  refine .bind (yields_sub hV hr ha) fun d => .look fun arena => .ite ?_ ?_
  · refine .bind (yields_powInt hV (.inr ht)) fun tPower => ?_
    refine .bind (yields_num hV (hV.nat _)) fun denominator => ?_
    refine .bind (yields_div hV (.inr (.inl rfl)) (.inl rfl)) fun quotient => ?_
    exact yields_mul hV (.inl rfl) (.inr (.inr (.inr (.inr hg))))
  · refine .bind (yields_zero hV) fun zeroExpr => ?_
    refine .bind_of (gives_byParts hV t d _ _ 0 zeroExpr hV.one)
      (yields_byParts hV _ _ 0 (.inr (.inr ht)) (.inr (.inl rfl)) hV.one (.inl rfl))
      fun ⟨polynomial, falling⟩ hfalling => ?_
    refine .bind (yields_num hV (literal_alternate hV _ hfalling)) fun c => ?_
    refine .bind (yields_powInt hV (.inr (.inr (.inr (.inl rfl))))) fun dPower => ?_
    refine .bind (yields_div hV (.inr (.inl rfl)) (.inl rfl)) fun atStart => ?_
    refine .bind (yields_mul hV (.inr (.inr (.inr (.inr (.inr (.inr hr))))))
      (.inr (.inr (.inr (.inr (.inr (.inr ht))))))) fun rateTime => ?_
    refine .bind (yields_call₁ hV (.inl rfl)) fun oscillation => ?_
    refine .bind (yields_mul hV (.inl rfl) (.inr (.inr (.inr (.inr (.inr (.inl rfl)))))))
      fun head => ?_
    refine .bind (yields_mul hV (.inr (.inr (.inr (.inl rfl)))) ?_) fun tail => ?_
    · exact .inr (.inr (.inr (.inr (.inr (.inr (.inr (.inr (.inr hg))))))))
    · exact yields_sub hV (.inr (.inl rfl)) (.inl rfl)

theorem yields_addResponses {t a growth sum : ExprId} {terms : List ExpTerm} (ht : t ∈ C)
    (ha : a ∈ C) (hg : growth ∈ C) (hterms : ExpPolynomial.parts terms ⊆ C) (hsum : sum ∈ C) :
    Build.Yields V C (addResponses t a growth terms sum) ({·}) := by
  refine .foldlM (Set.singleton_subset_iff.2 hsum) fun sum' term hterm => ?_
  have hc : term.coefficient ∈ C := hterms (ExpPolynomial.coefficient_mem_parts hterm)
  have hr : term.rate ∈ C := hterms (ExpPolynomial.rate_mem_parts hterm)
  refine .bind (yields_integral hV (.inr ht) (.inr ha) (.inr hg) (.inr hr)) fun part => ?_
  refine .bind (yields_mul hV (.inr (.inr hc)) (.inl rfl)) fun scaled => ?_
  exact yields_add hV (.inr (.inr (.inl rfl))) (.inl rfl)

theorem yields_solution {x dt : String} {a : ExprId} {forcing : List ExpTerm} (hx : V.symbol x)
    (hdt : V.symbol dt) (ha : a ∈ C) (hforcing : ExpPolynomial.parts forcing ⊆ C) :
    Build.Yields V C (solution x dt a forcing) ({·}) := by
  refine .bind (yields_sym hdt) fun t => ?_
  refine .bind (yields_mul hV (.inr ha) (.inl rfl)) fun exponent => ?_
  refine .bind (yields_call₁ hV (.inl rfl)) fun growth => ?_
  refine .bind (yields_sym hx) fun start => ?_
  refine .bind (yields_mul hV (.inl rfl) (.inr (.inl rfl))) fun homogeneous => ?_
  refine yields_addResponses hV ?_ ?_ ?_ (fun y hy => ?_) (.inl rfl)
  · exact .inr (.inr (.inr (.inr (.inl rfl))))
  · exact .inr (.inr (.inr (.inr (.inr ha))))
  · exact .inr (.inr (.inl rfl))
  · exact .inr (.inr (.inr (.inr (.inr (hforcing hy)))))

theorem yields_closedForm {states : List String} {dt : String} {known : List (String × ExprId)}
    {r : Rate} (hdt : V.symbol dt) (hstate : V.symbol r.state) (hrhs : r.rhs ∈ C)
    (hknown : ∀ k ∈ known, k.2 ∈ C) :
    Attempt.Yields V C (closedForm states dt known r) ({·}) := by
  refine .bind (.adapt (yields_derive hV r.state hrhs)) fun a => .look fun arena => .ite .throw ?_
  refine .bind (.lift (yields_zero hV)) fun zeroExpr => ?_
  have hσ (s : String) (x : ExprId)
      (h : Substitution.ofList (known ++ [(r.state, zeroExpr)]) s = some x) :
      x ∈ {zeroExpr} ∪ ({a} ∪ C) := by
    rcases List.mem_append.1 (mem_of_ofList h) with h | h
    · exact .inr (.inr (hknown _ h))
    · obtain ⟨rfl, rfl⟩ : s = r.state ∧ x = zeroExpr := by simpa using h
      exact .inl rfl
  refine .bind (.lift (yields_substitute hV hσ (.inr (.inr hrhs)))) fun g => ?_
  refine .bind (.lift (ExpPolynomial.yields_decompose? hV dt (.inl rfl))) fun r => ?_
  split
  · exact .throw
  · next forcing =>
    refine .lift (yields_solution hV hstate hdt (.inr (.inr (.inr (.inl rfl)))) fun x hx => ?_)
    exact .inl ⟨forcing, rfl, hx⟩

end Linear

/-! ## Systems -/

namespace Transitions

/-- The expressions of entries. -/
def parts (entries : List Entry) : Set ExprId :=
  {x | ∃ e ∈ entries, x = e.rate.rhs ∨ e.closed = some x}

theorem parts_append (ls rs : List Entry) : parts (ls ++ rs) = parts ls ∪ parts rs := by
  ext x
  simp [parts, or_and_right, exists_or]

theorem parts_cons (e : Entry) (es : List Entry) : parts (e :: es) = parts [e] ∪ parts es :=
  parts_append [e] es

theorem known_mem_parts {entries : List Entry} {k : String × ExprId} (hk : k ∈ known entries) :
    k.2 ∈ parts entries := by
  obtain ⟨e, he, hc⟩ := List.mem_filterMap.1 hk
  obtain ⟨c, hclosed, rfl⟩ := Option.map_eq_some_iff.1 hc
  exact ⟨e, he, .inr hclosed⟩

include hV

theorem yields_pass {states : List String} {dt : String} {done todo : List Entry}
    (hdt : V.symbol dt) (hstates : ∀ e ∈ todo, V.symbol e.rate.state) (hdone : parts done ⊆ C)
    (htodo : parts todo ⊆ C) : Attempt.Yields V C (pass states dt done todo) parts := by
  induction todo generalizing done C with
  | nil => exact .pure hdone
  | cons e todo ih =>
    rw [parts_cons] at htodo
    have he : parts [e] ⊆ C := Set.subset_union_left.trans htodo
    have hrest : parts todo ⊆ C := Set.subset_union_right.trans htodo
    have hrhs : e.rate.rhs ∈ parts [e] := ⟨e, List.mem_cons_self, .inl rfl⟩
    have hmore : ∀ e ∈ todo, V.symbol e.rate.state :=
      fun e h => hstates e (List.mem_cons_of_mem _ h)
    refine .look fun a => .ite ?_ (ih hmore ?_ hrest)
    · refine .bind (Linear.yields_closedForm hV hdt (hstates e List.mem_cons_self) (he hrhs)
        fun k hk => ?_) fun c => ?_
      · have hk := known_mem_parts hk
        rw [parts_append, parts_cons] at hk
        exact (Set.union_subset hdone htodo) hk
      · refine ih hmore ?_ (hrest.trans Set.subset_union_right)
        rw [parts_append]
        refine Set.union_subset (hdone.trans Set.subset_union_right) ?_
        rintro x ⟨e', he', hx⟩
        obtain rfl := List.mem_singleton.1 he'
        rcases hx with rfl | hx
        · exact .inr (he hrhs)
        · exact .inl (Option.some.inj hx).symm
    · rw [parts_append]
      exact Set.union_subset hdone he

omit hV in
theorem gives_pass (states : List String) (dt : String) (done todo : List Entry) :
    Attempt.Gives (fun es => es.map (·.rate) = (done ++ todo).map (·.rate))
      (pass (α := α) states dt done todo) := by
  induction todo generalizing done with
  | nil => exact .pure (by rw [List.append_nil])
  | cons e todo ih =>
    refine .bind .any fun a _ => ?_
    split
    · exact .bind .any fun c _ => (ih _).weaken fun es hes => by simpa using hes
    · exact (ih _).weaken fun es hes => by simpa using hes

theorem yields_passes {states : List String} {dt : String} (n : Nat) {entries : List Entry}
    (hdt : V.symbol dt) (hstates : ∀ r ∈ entries.map (·.rate), V.symbol r.state)
    (hentries : parts entries ⊆ C) :
    Attempt.Yields V C (passes states dt n entries) parts := by
  induction n generalizing entries C with
  | zero => exact .pure hentries
  | succ n ih =>
    refine .bind_of (gives_pass states dt [] entries) (yields_pass hV hdt
      (fun e he => hstates _ (List.mem_map_of_mem he)) ?_ hentries) fun next hnext => .ite ?_ ?_
    · rintro x ⟨e, he, hx⟩
      exact absurd he List.not_mem_nil
    · exact ih (by rwa [hnext]) Set.subset_union_left
    · exact .pure Set.subset_union_left

omit hV in
theorem gives_passes (states : List String) (dt : String) (n : Nat) (entries : List Entry) :
    Attempt.Gives (fun es => es.map (·.rate) = entries.map (·.rate))
      (passes (α := α) states dt n entries) := by
  induction n generalizing entries with
  | zero => exact .pure rfl
  | succ n ih =>
    refine .bind (gives_pass states dt [] entries) fun next hnext => ?_
    split
    · exact (ih next).weaken fun es hes => hes.trans hnext
    · exact .pure hnext

/-- The entry that a state of the system starts with. -/
def entryOf (system : List Rate) (dt : String) (r : Rate) : Attempt α TransitionError Entry := do
  let closed ← (Series.closedForm? system dt r.state).adapt fun e => ⟨r.state, .derivative e⟩
  return ⟨r, closed⟩

omit hV in
theorem gives_entries (system : List Rate) (dt : String) : Attempt.Gives
    (fun es => es.map (·.rate) = system) (system.mapM (entryOf (α := α) system dt)) := by
  refine (Attempt.Gives.mapM (R := fun r e => e.rate = r) fun r _ =>
    .bind .any fun closed _ => .pure rfl).weaken fun es hes => ?_
  induction hes with
  | nil => rfl
  | cons h _ ih => rw [List.map_cons, h, ih]

theorem yields_entries {system : List Rate} {dt : String} (hdt : V.symbol dt)
    (hsystem : ∀ r ∈ system, V.symbol r.state ∧ r.rhs ∈ C) :
    Attempt.Yields V C (system.mapM (entryOf system dt)) parts := by
  refine .mapM (R := fun e : Entry => {x | x = e.rate.rhs ∨ e.closed = some x}) fun r hr => ?_
  refine .bind (.adapt (Series.yields_closedForm? hV (fun r hr => (hsystem r hr).2) hdt
    (hsystem r hr).1)) fun closed => .pure ?_
  rintro x (rfl | hx)
  · exact .inr (hsystem r hr).2
  · exact .inl hx

/-- The closed form of an entry, if it has one. -/
def closedOf (e : Entry) : Attempt α TransitionError (String × ExprId) :=
  match e.closed with
  | some c => return (e.rate.state, c)
  | none => throw ⟨e.rate.state, .coupled⟩

omit hV in
theorem gives_closedOf (entries : List Entry) : Attempt.Gives
    (fun ts => ts.map (·.1) = entries.map (·.rate.state)) (entries.mapM (closedOf (α := α))) := by
  refine (Attempt.Gives.mapM (R := fun e t => t.1 = e.rate.state) fun e _ => ?_).weaken
    fun ts hts => ?_
  · unfold closedOf
    split
    · exact .pure rfl
    · exact .throw
  · induction hts with
    | nil => rfl
    | cons h _ ih => rw [List.map_cons, List.map_cons, h, ih]

omit hV in
theorem yields_closedOf {entries : List Entry} (hentries : parts entries ⊆ C) :
    Attempt.Yields V C (entries.mapM closedOf) fun ts => {x | ∃ t ∈ ts, x = t.2} := by
  refine .mapM (R := fun t : String × ExprId => {x | x = t.2}) fun e he => ?_
  unfold closedOf
  split
  · next c hc =>
    refine .pure ?_
    rintro x rfl
    exact hentries ⟨e, he, .inr hc⟩
  · exact .throw

theorem yields_solve {system : List Rate} {dt : String} (hdt : V.symbol dt)
    (hsystem : ∀ r ∈ system, V.symbol r.state ∧ r.rhs ∈ C) :
    Attempt.Yields V C (solve system dt) fun ts => {x | ∃ t ∈ ts, x = t.2} := by
  refine .bind_of (gives_entries system dt) (yields_entries hV hdt hsystem) fun entries hentries => ?_
  refine .bind (yields_passes hV _ hdt ?_ Set.subset_union_left) fun solved => ?_
  · rw [hentries]
    exact fun r hr => (hsystem r hr).1
  · exact yields_closedOf Set.subset_union_left

omit hV in
/-- The closed forms are in the order of the states. -/
theorem gives_solve (system : List Rate) (dt : String) : Attempt.Gives
    (fun ts => ts.map (·.1) = system.map (·.state)) (solve (α := α) system dt) := by
  refine .bind (gives_entries system dt) fun entries hentries => ?_
  refine .bind (gives_passes _ dt _ entries) fun solved hsolved => ?_
  refine (gives_closedOf solved).weaken fun ts hts => hts.trans ?_
  have h := congrArg (List.map (·.state)) (hsolved.trans hentries)
  rwa [List.map_map] at h

/-! ## Domains -/

variable {d : Domain α}

omit hV in
/-- The system has all states, with right-hand sides of equations. -/
theorem system_eq_ok {rates : List Rate} (h : system d = .ok rates) :
    rates.map (·.state) = d.stateNames ∧ ∀ r ∈ rates, ∃ q ∈ d.equations, r.rhs = q.rhs := by
  have hrates := Except.mapM_eq_ok.1 h
  clear h
  generalize d.stateNames = names at hrates
  induction hrates with
  | nil => exact ⟨rfl, fun r hr => absurd hr List.not_mem_nil⟩
  | @cons s r _ _ hr _ ih =>
    obtain ⟨hstate, hrhs⟩ : r.state = s ∧ ∃ q ∈ d.equations, r.rhs = q.rhs := by
      split at hr
      · next q hq =>
        cases hr
        exact ⟨rfl, q, List.mem_of_find?_eq_some hq, rfl⟩
      · contradiction
    refine ⟨by rw [List.map_cons, hstate, ih.1], List.forall_mem_cons.2 ⟨hrhs, ih.2⟩⟩

omit hV in
theorem gives_resolve (d : Domain α) :
    Attempt.Gives (fun ts => ts.map (·.1) = d.stateNames) (resolve d) := by
  refine .bind_except fun rates hrates => ?_
  obtain ⟨hnames, -⟩ := system_eq_ok hrates
  split
  · refine .pure ?_
    rw [← hnames, List.map_map]
    rfl
  · exact (gives_solve rates d.dt).weaken fun ts hts => hts.trans hnames

theorem yields_resolve (hdt : V.symbol d.dt) (hstates : ∀ s ∈ d.stateNames, V.symbol s)
    (hequations : ∀ q ∈ d.equations, q.rhs ∈ C) :
    Attempt.Yields V C (resolve d) fun ts => {x | ∃ t ∈ ts, x = t.2} := by
  refine .bind_except fun rates hrates => ?_
  obtain ⟨hnames, hrhs⟩ := system_eq_ok hrates
  have hsystem (r : Rate) (hr : r ∈ rates) : V.symbol r.state ∧ r.rhs ∈ C := by
    refine ⟨hstates _ (hnames ▸ List.mem_map_of_mem hr), ?_⟩
    obtain ⟨q, hq, heq⟩ := hrhs r hr
    exact heq ▸ hequations q hq
  split
  · refine .pure ?_
    rintro x ⟨t, ht, rfl⟩
    obtain ⟨r, hr, rfl⟩ := List.mem_map.1 ht
    exact (hsystem r hr).2
  · exact yields_solve hV hdt hsystem

end Transitions

end HybridPlan
