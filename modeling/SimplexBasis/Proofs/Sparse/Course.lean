import SimplexBasis.Proofs.Sparse.Pivoting
import SimplexBasis.Proofs.Sparse.Steadiness

/-!
# The course of a factorization

Which pivots are made, and what is counted on the way, follows from the matrix, the tolerances and
the options that do not concern the areas. The sizes of the areas decide only how far a run gets:
`Leads ρ m p act q rest` says that, from every state at the point `p`, `act` does what `rest` does
from a state at `q`, unless space runs out at a point between them.
-/

set_option linter.unusedSectionVars false

namespace SimplexBasis

/-- The options without those that only size areas. -/
def Options.apartFromAreas {α : Type} [Scalar α] (o : Options α) : Options α :=
  { o with pad := 0, stretch := 0, initialAreaFactor := 0 }

/-- What decides on the pivots of a matrix. -/
structure Rules (α : Type) where
  options : Options α
  absoluteTolerance : α
  relativeTolerance : α

/-- What a factorization counts, apart from its work and its areas. -/
structure Tallies where
  slacks : Nat
  singletons : Nat
  searched : Nat
  relaxed : Nat
  denseSize : Nat
  deriving DecidableEq

/-- A point of the course. -/
structure Point (α : Type) where
  stages : List (Stage α)
  view : ActiveView α
  tallies : Tallies

variable {α β κ : Type} [Scalar α] {m i j fuel : Nat} {x y : β} {s t u : SparseFactorization α}
  {stages more : List (Stage α)} {v w : ActiveView α} {ρ : Rules α} {p q r : Point α}

namespace Point

def pivoted (p : Point α) (tolerance : α) (i j : Nat) (x : α) : Point α :=
  ⟨p.stages ++ [p.view.stageAt i j x], p.view.pivotAt tolerance i j x, p.tallies⟩

def tallied (p : Point α) (f : Tallies → Tallies) : Point α := { p with tallies := f p.tallies }

/-- The view of the point fits its stages. -/
def Fits (p : Point α) (m : Nat) : Prop :=
  p.view.Consistent m (p.stages.map Stage.row) (p.stages.map Stage.col)

end Point

namespace SparseFactorization

def rules (s : SparseFactorization α) : Rules α :=
  ⟨s.options.apartFromAreas, s.absoluteTolerance, s.relativeTolerance⟩

def tallies (s : SparseFactorization α) : Tallies :=
  ⟨s.counters.slacks, s.counters.singletons, s.counters.searched, s.counters.relaxed,
    s.counters.denseSize⟩

/-- What a factorization finds: the factors with their pivots, and what it counts. -/
def found (s : SparseFactorization α) : Factors α × Tallies := (s.factors, s.tallies)

theorem rules_of_setup (h : t.setup = s.setup) : t.rules = s.rules :=
  (congrArg rules h : rules t.setup = rules s.setup)

theorem tallies_of_tally (h : t.tally = s.tally) : t.tallies = s.tallies :=
  (congrArg tallies h : tallies t.tally = tallies s.tally)

theorem Tally.ends {act : Action (SparseFactorization α) β} (h : Tally #[] act)
    {Q : β → SparseFactorization α → Prop} {E : Status → SparseFactorization α → Prop}
    (ends_ : Ends Q E (act s)) : Ends (fun x t => Q x t ∧ t.tallies = s.tallies) E (act s) := by
  cases run : act s with
  | ok x t => exact ⟨ends_.result run, tallies_of_tally (h.ok run).2⟩
  | error e t =>
    rw [run] at ends_
    cases e <;> exact ends_

/-- The state is at the point. -/
structure At (ρ : Rules α) (m : Nat) (p : Point α) (s : SparseFactorization α) : Prop where
  working : Working s m p.stages p.view
  rules : s.rules = ρ
  tallies : s.tallies = p.tallies

theorem Working.at (h : Working s m stages v) : At s.rules m ⟨stages, v, s.tallies⟩ s := ⟨h, rfl, rfl⟩

namespace At

theorem options (h : At ρ m p s) : s.options.apartFromAreas = ρ.options := congrArg (·.options) h.rules

theorem zeroTolerance (h : At ρ m p s) : s.options.zeroTolerance = ρ.options.zeroTolerance :=
  congrArg (·.zeroTolerance) h.options

theorem absoluteTolerance (h : At ρ m p s) : s.absoluteTolerance = ρ.absoluteTolerance :=
  congrArg (·.absoluteTolerance) h.rules

end At

/-- What is reached from `p` by pivots is `q`. -/
def Onward (ρ : Rules α) (m : Nat) (p q : Point α) : Prop :=
  ∃ more, q.stages = p.stages ++ more ∧
    Pivoting ρ.options.zeroTolerance m p.stages p.view more q.view

theorem Onward.refl (p : Point α) : Onward ρ m p p := ⟨[], (List.append_nil _).symm, .start⟩

theorem Onward.trans (first : Onward ρ m p q) (second : Onward ρ m q r) : Onward ρ m p r := by
  obtain ⟨more, eq, chain⟩ := first
  obtain ⟨rest, eq', chain'⟩ := second
  rw [eq] at eq' chain'
  exact ⟨more ++ rest, by rw [eq', List.append_assoc], chain.trans chain'⟩

theorem Onward.prefix (h : Onward ρ m p q) : p.stages <+: q.stages := by
  obtain ⟨more, eq, -⟩ := h
  exact eq ▸ List.prefix_append ..

/-- From every state at `p`, the action does what `rest` does from a state at `q`, unless it stops
for want of space between the two. -/
structure Leads (ρ : Rules α) (m : Nat) (p : Point α) (act : Action (SparseFactorization α) β)
    (q : Point α) (rest : Action (SparseFactorization α) β) : Prop where
  onward : Onward ρ m p q
  runs : ∀ s, At ρ m p s → (∃ t, At ρ m q t ∧ t.setup = s.setup ∧ act s = rest t) ∨
    ∃ between t, p.stages <+: between ∧ between <+: q.stages ∧
      act s = .error (.status .outOfMemory) t ∧ Stuck s m between .outOfMemory t

namespace Leads

variable {act act' rest : Action (SparseFactorization α) β}

theorem step (onward : Onward ρ m p q)
    (h : ∀ s, At ρ m p s → ∃ t, At ρ m q t ∧ t.setup = s.setup ∧ act s = rest t) :
    Leads ρ m p act q rest := ⟨onward, fun s here => .inl (h s here)⟩

theorem here (h : ∀ s, At ρ m p s → act s = rest s) : Leads ρ m p act p rest :=
  .step (.refl p) fun s here => ⟨s, here, rfl, h s here⟩

theorem refl (act : Action (SparseFactorization α) β) : Leads ρ m p act p act := .here fun _ _ => rfl

theorem trans (first : Leads ρ m p act q act') (second : Leads ρ m q act' r rest) :
    Leads ρ m p act r rest := by
  refine ⟨first.onward.trans second.onward, fun s here => ?_⟩
  obtain ⟨t, there, setup, same⟩ | ⟨between, t, low, high, run, stuck⟩ := first.runs s here
  · obtain ⟨u, end_, setup', same'⟩ | ⟨between, u, low, high, run, stuck⟩ := second.runs t there
    · exact .inl ⟨u, end_, setup'.trans setup, same.trans same'⟩
    · exact .inr ⟨between, u, first.onward.prefix.trans low, high, same.trans run,
        stuck.of_setup setup⟩
  · exact .inr ⟨between, t, low, high.trans second.onward.prefix, run, stuck⟩

theorem bind {γ : Type} {first rest : Action (SparseFactorization α) γ}
    (h : Leads ρ m p first q rest) (next : γ → Action (SparseFactorization α) β) :
    Leads ρ m p (first >>= next) q (rest >>= next) := by
  refine ⟨h.onward, fun s here => ?_⟩
  obtain ⟨t, there, setup, same⟩ | ⟨between, t, low, high, run, stuck⟩ := h.runs s here
  · refine .inl ⟨t, there, setup, ?_⟩
    change EStateM.bind first next s = EStateM.bind rest next t
    unfold EStateM.bind
    rw [same]
  · exact .inr ⟨between, t, low, high, bind_of_error run, stuck⟩

theorem andThen {γ : Type} {first : Action (SparseFactorization α) γ} {z : γ}
    {next : γ → Action (SparseFactorization α) β} (h : Leads ρ m p first q (pure z))
    (then_ : Leads ρ m q (next z) r rest) : Leads ρ m p (first >>= next) r rest :=
  (h.bind next).trans then_

theorem any {acts : κ → Action (SparseFactorization α) β}
    (h : ∀ s, At ρ m p s → ∃ k t, At ρ m p t ∧ t.setup = s.setup ∧ act s = acts k t)
    (all : ∀ k, Leads ρ m p (acts k) q rest) (onward : Onward ρ m p q) : Leads ρ m p act q rest := by
  refine ⟨onward, fun s here => ?_⟩
  obtain ⟨k, t, there, setup, same⟩ := h s here
  obtain ⟨u, end_, setup', same'⟩ | ⟨between, u, low, high, run, stuck⟩ := (all k).runs t there
  · exact .inl ⟨u, end_, setup'.trans setup, same.trans same'⟩
  · exact .inr ⟨between, u, low, high, same.trans run, stuck.of_setup setup⟩

theorem of_ends (onward : Onward ρ m p q) (h : ∀ s, At ρ m p s →
    Ends (fun y t => y = x ∧ At ρ m q t ∧ t.setup = s.setup) (Stuck s m p.stages) (act s)) :
    Leads ρ m p act q (pure x) := by
  refine ⟨onward, fun s here => ?_⟩
  have ends_ := h s here
  cases run : act s with
  | ok y t =>
    obtain ⟨rfl, there, setup⟩ := ends_.result run
    exact .inl ⟨t, there, setup, rfl⟩
  | error e t =>
    rw [run] at ends_
    cases e with
    | breach b => exact ends_.elim
    | status e =>
      obtain rfl := ends_.1
      exact .inr ⟨p.stages, t, List.prefix_rfl, onward.prefix, rfl, ends_⟩

theorem of_not_fits (none : ¬p.Fits m) : Leads ρ m p act p rest :=
  ⟨.refl p, fun _ here => (none here.working.consistent).elim⟩

theorem exists_of_fits (h : p.Fits m → ∃ q, Leads ρ m p act q rest) :
    ∃ q, Leads ρ m p act q rest := by
  by_cases fits : p.Fits m
  · exact h fits
  · exact ⟨p, .of_not_fits fits⟩

theorem ends_of {Q : β → SparseFactorization α → Prop} {E : Status → SparseFactorization α → Prop}
    (h : Leads ρ m p act q rest) (here : At ρ m p s)
    (after : ∀ t, At ρ m q t → t.setup = s.setup → Ends Q E (rest t))
    (stop : ∀ between t, p.stages <+: between → between <+: q.stages →
      Stuck s m between .outOfMemory t → E .outOfMemory t) : Ends Q E (act s) := by
  obtain ⟨t, there, setup, run⟩ | ⟨between, t, low, high, run, stuck⟩ := h.runs s here
  · rw [run]
    exact after t there setup
  · rw [run]
    exact stop between t low high stuck

end Leads

/-! ### Ends of a run -/

theorem Exhausted.trans {e : Status} (h : Exhausted t m (stages ++ more) e u)
    (setup : t.setup = s.setup) : Exhausted s m stages e u := by
  obtain ⟨rest, stuck⟩ := h
  rw [List.append_assoc] at stuck
  exact ⟨more ++ rest, stuck.of_setup setup⟩

/-- The state after further pivots. -/
def Advanced (s : SparseFactorization α) (m : Nat) (stages : List (Stage α)) (v : ActiveView α)
    (t : SparseFactorization α) : Prop :=
  ∃ more w, Working t m (stages ++ more) w ∧ t.setup = s.setup ∧
    Pivoting s.options.zeroTolerance m stages v more w

theorem At.advanced (here : At ρ m p s) (there : At ρ m q t) (onward : Onward ρ m p q)
    (setup : t.setup = s.setup) : Advanced s m p.stages p.view t := by
  obtain ⟨more, eq, chain⟩ := onward
  exact ⟨more, q.view, eq ▸ there.working, setup, here.zeroTolerance ▸ chain⟩

theorem Leads.ends {act : Action (SparseFactorization α) β} (h : Leads ρ m p act q (pure x))
    (here : At ρ m p s) : Ends (fun y t => y = x ∧ At ρ m q t ∧ t.setup = s.setup)
      (Exhausted s m p.stages) (act s) :=
  h.ends_of here (fun _ there setup => ⟨rfl, there, setup⟩)
    fun _ _ low _ stuck => stuck.exhausted_of_prefix low

/-- How a run along the course ends, for a caller who does not know the course. -/
theorem Leads.advanced {act : Action (SparseFactorization α) β} (h : Leads ρ m p act q (pure x))
    (here : At ρ m p s) :
    Ends (fun _ t => Advanced s m p.stages p.view t) (Exhausted s m p.stages) (act s) :=
  (h.ends here).imp fun _ _ ⟨_, there, setup⟩ => here.advanced there h.onward setup

/-! ### Single pivots -/

section Pivots

variable {x : α}

theorem onward_pivoted (fits : p.Fits m) (hj : j < m) (member : (i, x) ∈ p.view.cols j) :
    Onward ρ m p (p.pivoted ρ.options.zeroTolerance i j x) :=
  ⟨_, rfl, .single fits hj member⟩

theorem pivotColumnSingleton_leads (fits : p.Fits m) (hj : j < m) (only : p.view.cols j = [(i, x)]) :
    Leads ρ m p (pivotColumnSingleton i j) (p.pivoted ρ.options.zeroTolerance i j x)
      (pure (freshColumns p.view i j)) := by
  refine .of_ends (onward_pivoted fits hj (by simp [only])) fun s h => ?_
  refine (pivotColumnSingleton_tally.ends (h.working.pivotColumnSingleton hj only)).imp ?_
  rintro _ t ⟨⟨working, setup, rfl⟩, same⟩
  rw [← ActiveView.pivotAt_of_col only] at working
  exact ⟨rfl, ⟨working, (rules_of_setup setup).trans h.rules, same.trans h.tallies⟩, setup⟩

theorem pivotRowSingleton_leads (fits : p.Fits m) (hi : i < m) (only : p.view.rows i = [j])
    (member : (i, x) ∈ p.view.cols j) :
    Leads ρ m p (pivotRowSingleton i j) (p.pivoted ρ.options.zeroTolerance i j x)
      (pure (freshRows p.view i j)) := by
  have hj := (fits.rowRange i hi j (by simp [only])).1
  refine .of_ends (onward_pivoted fits hj member) fun s h => ?_
  refine (pivotRowSingleton_tally.ends (h.working.pivotRowSingleton hi only member)).imp ?_
  rintro _ t ⟨⟨working, setup, rfl⟩, same⟩
  rw [← ActiveView.pivotAt_of_row only member] at working
  exact ⟨rfl, ⟨working, (rules_of_setup setup).trans h.rules, same.trans h.tallies⟩, setup⟩

theorem pivotOn_leads (fits : p.Fits m) (hj : j < m) (member : (i, x) ∈ p.view.cols j) :
    Leads ρ m p (pivotOn i j) (p.pivoted ρ.options.zeroTolerance i j x) (pure ()) := by
  refine .of_ends (onward_pivoted fits hj member) fun s h => ?_
  refine (pivotOn_tally.ends (h.working.pivotOn hj member)).imp ?_
  rintro _ t ⟨⟨working, setup⟩, same⟩
  rw [h.zeroTolerance] at working
  exact ⟨rfl, ⟨working, (rules_of_setup setup).trans h.rules, same.trans h.tallies⟩, setup⟩

end Pivots

theorem Onward.tallied (p : Point α) (f : Tallies → Tallies) : Onward ρ m p (p.tallied f) := .refl p

theorem updateCounters_leads {f : Counters α → Counters α} {g : Tallies → Tallies}
    (counted : ∀ s : SparseFactorization α,
      { s with counters := f s.counters }.tallies = g s.tallies) :
    Leads ρ m p (updateCounters f) (p.tallied g) (pure ()) :=
  .step (.tallied p _) fun s h => ⟨{ s with counters := f s.counters },
    ⟨h.working.of_setup rfl rfl rfl rfl, h.rules, (counted s).trans (congrArg g h.tallies)⟩, rfl, rfl⟩

theorem countSingleton_leads : Leads ρ m p countSingleton
    (p.tallied fun c => { c with singletons := c.singletons + 1 }) (pure ()) :=
  updateCounters_leads fun _ => rfl

/-! ### Cascades -/

theorem At.columnCascade_cons (h : At ρ m p s) (hj : j < m) (stack : List Nat) :
    columnCascade (fuel + 1) (j :: stack) s =
      (if j ∈ p.stages.map Stage.col then columnCascade fuel stack
      else match p.view.cols j with
        | [(i, x)] =>
          if Scalar.abs x < ρ.absoluteTolerance then columnCascade fuel stack
          else do
            let fresh ← pivotColumnSingleton i j
            countSingleton
            columnCascade fuel (fresh ++ stack)
        | _ => columnCascade fuel stack : Action (SparseFactorization α) Unit) s := by
  rw [← h.absoluteTolerance]
  exact h.working.underway.columnCascade_cons hj stack

theorem columnCascade_leads {stack : List Nat} (inside : ∀ j ∈ stack, j < m)
    (enough : stack.length + entryCount m p.view.cols ≤ fuel) :
    ∃ q, Leads ρ m p (columnCascade fuel stack) q (pure ()) := by
  induction fuel generalizing p stack with
  | zero =>
    have empty : stack = [] := List.eq_nil_of_length_eq_zero (by omega)
    exact ⟨p, empty ▸ .refl _⟩
  | succ fuel ih =>
    cases stack with
    | nil => exact ⟨p, .refl _⟩
    | cons j stack =>
      have hj := inside j List.mem_cons_self
      have rest := fun k hk => inside k (List.mem_cons_of_mem j hk)
      simp only [List.length_cons] at enough
      refine Leads.exists_of_fits fun fits => ?_
      have step := Leads.here fun s (h : At ρ m p s) => @At.columnCascade_cons _ _ _ j fuel s ρ p h hj stack
      refine Exists.imp (fun q => step.trans) ?_
      split
      · exact ih rest (by omega)
      · split
        · rename_i i x only
          split
          · exact ih rest (by omega)
          · have paid := length_freshColumns_lt fits hj only
            obtain ⟨q, final⟩ := @ih ((p.pivoted ρ.options.zeroTolerance i j x).tallied fun c =>
              { c with singletons := c.singletons + 1 }) (freshColumns p.view i j ++ stack)
              (fun k hk => (List.mem_append.mp hk).elim
                (freshColumns_inside fits hj only k) (rest k))
              (by
                rw [List.length_append]
                change _ + entryCount m (p.view.pivotAt _ i j x).cols ≤ fuel
                rw [ActiveView.pivotAt_of_col only]
                omega)
            exact ⟨q, (pivotColumnSingleton_leads fits hj only).andThen
              (countSingleton_leads.andThen final)⟩
        · exact ih rest (by omega)

theorem At.rowCascade_cons (h : At ρ m p s) (hi : i < m) (stack : List Nat) :
    rowCascade (fuel + 1) (i :: stack) s =
      (if i ∈ p.stages.map Stage.row then rowCascade fuel stack
      else match p.view.rows i with
        | [j] =>
          if Scalar.abs (valueAt (p.view.cols j) i) < ρ.absoluteTolerance then rowCascade fuel stack
          else do
            let fresh ← pivotRowSingleton i j
            countSingleton
            rowCascade fuel (fresh ++ stack)
        | _ => rowCascade fuel stack : Action (SparseFactorization α) Unit) s := by
  rw [← h.absoluteTolerance]
  exact h.working.underway.rowCascade_cons hi stack

theorem rowCascade_leads {stack : List Nat} (inside : ∀ i ∈ stack, i < m)
    (enough : stack.length + entryCount m p.view.rows ≤ fuel) :
    ∃ q, Leads ρ m p (rowCascade fuel stack) q (pure ()) := by
  induction fuel generalizing p stack with
  | zero =>
    have empty : stack = [] := List.eq_nil_of_length_eq_zero (by omega)
    exact ⟨p, empty ▸ .refl _⟩
  | succ fuel ih =>
    cases stack with
    | nil => exact ⟨p, .refl _⟩
    | cons i stack =>
      have hi := inside i List.mem_cons_self
      have rest := fun k hk => inside k (List.mem_cons_of_mem i hk)
      simp only [List.length_cons] at enough
      refine Leads.exists_of_fits fun fits => ?_
      have step := Leads.here fun s (h : At ρ m p s) => @At.rowCascade_cons _ _ _ i fuel s ρ p h hi stack
      refine Exists.imp (fun q => step.trans) ?_
      split
      · exact ih rest (by omega)
      · split
        · rename_i j only
          split
          · exact ih rest (by omega)
          · obtain ⟨x, member⟩ := fits.exists_value hi (j := j) (by simp [only])
            have paid := length_freshRows_lt fits hi only
            obtain ⟨q, final⟩ := @ih ((p.pivoted ρ.options.zeroTolerance i j x).tallied fun c =>
              { c with singletons := c.singletons + 1 }) (freshRows p.view i j ++ stack)
              (fun k hk => (List.mem_append.mp hk).elim
                (freshRows_inside fits hi only k) (rest k))
              (by
                rw [List.length_append]
                change _ + entryCount m (p.view.pivotAt _ i j x).rows ≤ fuel
                rw [ActiveView.pivotAt_of_row only member]
                omega)
            exact ⟨q, (pivotRowSingleton_leads fits hi only member).andThen
              (countSingleton_leads.andThen final)⟩
        · exact ih rest (by omega)

theorem columnSingletons_leads : ∃ q, Leads ρ m p columnSingletons q (pure ()) := by
  refine Leads.exists_of_fits fun fits => ?_
  obtain ⟨q, cascade⟩ := @columnCascade_leads _ _ m
    ((p.view.colLists 1).length + entryCount m p.view.cols) ρ p (p.view.colLists 1).reverse
    (fun j hj => (((fits.colListed 1 (by omega)).2 j).mp (List.mem_reverse.mp hj)).1)
    (by rw [List.length_reverse])
  refine ⟨q, (Leads.here fun s h => ?_).trans cascade⟩
  have singles := h.working.active.colLists.toList_eq (k := 1) (by rw [h.working.active.colLength]; omega)
  unfold columnSingletons
  rw [get_bind, singles, lift_ok_bind, h.working.active.cols.count_eq, lift_ok_bind,
    entryCount_eq_sum]

theorem rowSingletons_leads : ∃ q, Leads ρ m p rowSingletons q (pure ()) := by
  refine Leads.exists_of_fits fun fits => ?_
  obtain ⟨list, -, listed⟩ := fits.rowListed
  obtain ⟨q, cascade⟩ := @rowCascade_leads _ _ m
    ((p.view.rowLists 1).length + entryCount m p.view.rows) ρ p (p.view.rowLists 1).reverse
    (fun i hi => (((listed 1 (by omega)).2 i).mp (List.mem_reverse.mp hi)).1)
    (by rw [List.length_reverse])
  refine ⟨q, (Leads.here fun s h => ?_).trans cascade⟩
  have singles := h.working.active.rowLists.toList_eq (k := 1) (by rw [h.working.active.rowLength]; omega)
  unfold rowSingletons
  rw [get_bind, singles, lift_ok_bind, h.working.active.rows.count_eq, lift_ok_bind,
    entryCount_eq_sum]

theorem singletons_leads : ∃ q, Leads ρ m p singletons q (pure ()) := by
  have order : Leads ρ m p singletons p (if 0 ≤ ρ.options.singletonBias then do
      columnSingletons
      rowSingletons
    else do
      rowSingletons
      columnSingletons) := .here fun s h => by
    rw [← h.options]
    rfl
  refine Exists.imp (fun q => order.trans) ?_
  split
  · obtain ⟨q, first⟩ := @columnSingletons_leads _ _ m ρ p
    obtain ⟨r, second⟩ := @rowSingletons_leads _ _ m ρ q
    exact ⟨r, first.andThen second⟩
  · obtain ⟨q, first⟩ := @rowSingletons_leads _ _ m ρ p
    obtain ⟨r, second⟩ := @columnSingletons_leads _ _ m ρ q
    exact ⟨r, first.andThen second⟩

end SparseFactorization

end SimplexBasis
