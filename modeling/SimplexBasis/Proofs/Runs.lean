import SimplexBasis.Action

/-!
# Runs

How actions end. `Ends Q E` says of the end of a run that no contract was broken, that a result
satisfies `Q` and that a status satisfies `E`. Steps that always succeed are run by the
equations of this module; the others are chained by `Ends.bind`.
-/

namespace SimplexBasis

variable {σ τ ι β γ : Type}

/-! ### Entries -/

theorem entry_getD (d : β) {xs : Array β} {i : Nat} (h : i < xs.size) :
    entry xs i = .ok (xs.getD i d) := by
  simp [entry, h]

theorem entry_of_lt {xs : Array β} {i : Nat} (h : i < xs.size) : entry xs i = .ok xs[i] := by
  simp [entry, h]

theorem getD_of_entry (d : β) {xs : Array β} {i : Nat} {x : β} (read : entry xs i = .ok x) :
    i < xs.size ∧ xs.getD i d = x := by
  obtain ⟨bound, rfl⟩ := Array.getElem?_eq_some_iff.mp (entry_eq_ok_iff.mp read)
  exact ⟨bound, by simp [bound]⟩

theorem withEntry_of_lt {xs : Array β} {i : Nat} (x : β) (h : i < xs.size) :
    withEntry xs i x = .ok (xs.setIfInBounds i x) := by
  simp [withEntry, Array.setIfInBounds, h]

theorem getD_setIfInBounds {xs : Array β} {k l : Nat} {x d : β} (hk : k < xs.size) :
    (xs.setIfInBounds k x).getD l d = if l = k then x else xs.getD l d := by
  simp only [Array.getD_eq_getD_getElem?, Array.getElem?_setIfInBounds]
  grind

/-! ### Pure loops -/

theorem range_split {done rest : List Nat} {n k : Nat} (split : List.range n = done ++ k :: rest) :
    k = done.length ∧ k < n := by
  have place := congrArg (·[done.length]?) split
  simp only [List.getElem?_append_right (Nat.le_refl _), Nat.sub_self,
    List.getElem?_cons_zero] at place
  have bound := (List.getElem?_eq_some_iff.mp place).1
  rw [List.length_range] at bound
  rw [List.getElem?_range bound] at place
  cases place
  exact ⟨rfl, bound⟩

theorem range_reverse_split {done rest : List Nat} {n k : Nat}
    (split : (List.range n).reverse = done ++ k :: rest) : done.length + k + 1 = n ∧ k < n := by
  have place := congrArg (·[done.length]?) split
  simp only [List.getElem?_append_right (Nat.le_refl _), Nat.sub_self,
    List.getElem?_cons_zero] at place
  have bound := (List.getElem?_eq_some_iff.mp place).1
  rw [List.length_reverse, List.length_range] at bound
  simp [bound] at place
  omega

@[simp] theorem checked_ok_bind {ε : Type} (x : β) (next : β → Except ε γ) :
    (Except.ok x >>= next) = next x := rfl

theorem checked_mapM {f : ι → Checked β} {g : ι → β} {xs : List ι}
    (h : ∀ x ∈ xs, f x = .ok (g x)) : xs.mapM f = .ok (xs.map g) := by
  induction xs with
  | nil => rfl
  | cons x xs ih =>
    rw [List.mapM_cons, h x List.mem_cons_self, ih fun y hy => h y (List.mem_cons_of_mem _ hy)]
    rfl

theorem checked_mapM_keyed {κ : Type} {f : ι → Checked β} {Q : β → Prop} (key : ι → κ)
    (key' : β → κ) {l : List ι} (h : ∀ x ∈ l, ∃ y, f x = .ok y ∧ key' y = key x ∧ Q y) :
    ∃ ys, l.mapM f = .ok ys ∧ ys.map key' = l.map key ∧ ∀ y ∈ ys, Q y := by
  induction l with
  | nil => exact ⟨[], rfl, rfl, by simp⟩
  | cons x xs ih =>
    obtain ⟨y, run, same, Q⟩ := h x List.mem_cons_self
    obtain ⟨ys, runs, sames, goods⟩ := ih fun z hz => h z (List.mem_cons_of_mem _ hz)
    refine ⟨y :: ys, ?_, by simp [same, sames], by simpa [Q] using goods⟩
    rw [List.mapM_cons, run, checked_ok_bind, runs]
    rfl

theorem checked_foldlM {f : γ → ι → Checked γ} {g : γ → ι → γ} {xs : List ι}
    (h : ∀ y, ∀ x ∈ xs, f y x = .ok (g y x)) (y : γ) : xs.foldlM f y = .ok (xs.foldl g y) := by
  induction xs generalizing y with
  | nil => rfl
  | cons x xs ih =>
    rw [List.foldlM_cons, h y x List.mem_cons_self]
    exact ih (fun z w hw => h z w (List.mem_cons_of_mem _ hw)) _

theorem checked_filterM {p : ι → Checked Bool} {q : ι → Bool} {xs : List ι}
    (h : ∀ x ∈ xs, p x = .ok (q x)) : xs.filterM p = .ok (xs.filter q) := by
  have folded : ∀ (xs acc : List ι), (∀ x ∈ xs, p x = .ok (q x)) →
      List.filterAuxM p xs acc = .ok ((xs.filter q).reverse ++ acc) := by
    intro xs
    induction xs with
    | nil => intro acc _; rfl
    | cons x xs ih =>
      intro acc h
      unfold List.filterAuxM
      rw [h x List.mem_cons_self]
      have rest := fun acc => ih acc fun y hy => h y (List.mem_cons_of_mem _ hy)
      cases keep : q x
      · simpa [keep, bind, Except.bind] using rest acc
      · simpa [keep, bind, Except.bind] using rest (x :: acc)
  unfold List.filterM
  rw [folded xs [] h]
  simp [bind, Except.bind, pure, Except.pure]

/-- A loop whose steps succeed under an invariant of the entries already seen. -/
theorem foldlM_ok {ε : Type} {f : γ → ι → Except ε γ} (inv : List ι → γ → Prop) {l : List ι}
    {y : γ} (first : inv [] y)
    (step : ∀ done x rest y, l = done ++ x :: rest → inv done y →
      ∃ z, f y x = .ok z ∧ inv (done ++ [x]) z) :
    ∃ z, l.foldlM f y = .ok z ∧ inv l z := by
  have general : ∀ (rest done : List ι) (y : γ), l = done ++ rest → inv done y →
      ∃ z, rest.foldlM f y = .ok z ∧ inv l z := by
    intro rest
    induction rest with
    | nil => intro done y split hy; exact ⟨y, rfl, by simpa [split] using hy⟩
    | cons x rest ih =>
      intro done y split hy
      obtain ⟨z, run, hz⟩ := step done x rest y split hy
      obtain ⟨w, tail, hw⟩ := ih (done ++ [x]) z (by simpa using split) hz
      refine ⟨w, ?_, hw⟩
      rw [List.foldlM_cons, run]
      exact tail
  exact general l [] y rfl first

theorem except_bind_eq_ok {ε : Type} {act : Except ε γ} {next : γ → Except ε β} {z : β} :
    (act >>= next) = .ok z ↔ ∃ y, act = .ok y ∧ next y = .ok z := by
  cases act <;> simp [bind, Except.bind]

theorem eq_ok_of_toOption {ε β : Type} {answer : Except ε β} {x : β}
    (h : answer.toOption = some x) : answer = .ok x := by
  cases answer with
  | ok y => exact congrArg _ (Option.some.inj h)
  | error e => exact nomatch h

theorem lift_except_eq_ok {act : Checked γ} {y : γ} :
    (liftM act : Except Stop γ) = .ok y ↔ act = .ok y := by
  cases act <;> simp [liftM, monadLift, MonadLift.monadLift]

theorem foldl_invariant {f : γ → ι → γ} (inv : List ι → γ → Prop) {l : List ι} {y : γ}
    (first : inv [] y)
    (step : ∀ done x rest y, l = done ++ x :: rest → inv done y → inv (done ++ [x]) (f y x)) :
    inv l (l.foldl f y) := by
  obtain ⟨z, run, holds⟩ := foldlM_ok (ε := Empty) (f := fun y x => pure (f y x)) inv first
    fun done x rest y split here => ⟨_, rfl, step done x rest y split here⟩
  rw [List.foldlM_pure] at run
  cases run
  exact holds

theorem foldlM_result {ε : Type} {f : γ → ι → Except ε γ} (inv : List ι → γ → Prop) {xs : List ι}
    {y z : γ} (run : xs.foldlM f y = .ok z) (first : inv [] y)
    (step : ∀ done x rest y z, xs = done ++ x :: rest → inv done y → f y x = .ok z →
      inv (done ++ [x]) z) : inv xs z := by
  have general : ∀ (rest done : List ι) (y : γ), xs = done ++ rest → inv done y →
      rest.foldlM f y = .ok z → inv xs z := by
    intro rest
    induction rest with
    | nil => rintro done y split hy ⟨⟩; simpa [split] using hy
    | cons x rest ih =>
      intro done y split hy run
      rw [List.foldlM_cons] at run
      cases here : f y x with
      | error e => simp [here, bind, Except.bind] at run
      | ok w =>
        rw [here] at run
        exact ih (done ++ [x]) w (by simpa using split) (step done x rest y w split hy here) run
  exact general xs [] y rfl first run

/-! ### Steps that always succeed -/

theorem bind_of_ok {act : Action σ β} {next : β → Action σ γ} {s t : σ} {x : β}
    (h : act s = .ok x t) : (act >>= next) s = next x t := by
  change EStateM.bind act next s = _
  simp [EStateM.bind, h]

theorem bind_of_error {act : Action σ β} {next : β → Action σ γ} {s t : σ} {e : Stop}
    (h : act s = .error e t) : (act >>= next) s = .error e t := by
  change EStateM.bind act next s = _
  simp [EStateM.bind, h]

@[simp] theorem get_bind (next : σ → Action σ β) (s : σ) :
    ((get : Action σ σ) >>= next) s = next s s := rfl

@[simp] theorem modify_bind (f : σ → σ) (next : PUnit → Action σ β) (s : σ) :
    ((modify f : Action σ PUnit) >>= next) s = next ⟨⟩ (f s) := rfl

@[simp] theorem modify_run (f : σ → σ) (s : σ) :
    (modify f : Action σ PUnit) s = .ok ⟨⟩ (f s) := rfl

@[simp] theorem pure_run (x : β) (s : σ) : (pure x : Action σ β) s = .ok x s := rfl

@[simp] theorem lift_ok_bind (x : β) (next : β → Action σ γ) (s : σ) :
    ((liftM (Except.ok x : Checked β) : Action σ β) >>= next) s = next x s := rfl

@[simp] theorem lift_ok_run (x : β) (s : σ) :
    (liftM (Except.ok x : Checked β) : Action σ β) s = .ok x s := rfl

@[simp] theorem require_true_bind (b : Breach) (next : PUnit → Action σ β) (s : σ) :
    (Action.require true b >>= next) s = next ⟨⟩ s := rfl

theorem forM_cons_eq (f : ι → Action σ PUnit) (x : ι) (xs : List ι) :
    (x :: xs).forM f = f x >>= fun _ => xs.forM f := rfl

theorem put_eq (p : Part σ (Array β)) {i : Nat} (x : β) {s : σ} (h : i < (p.get s).size) :
    p.put i x s = .ok () (p.modify (·.setIfInBounds i x) s) := by
  simp [Part.put, h]

theorem mapM_run {f : ι → Action σ β} {g : ι → β} {xs : List ι} {s : σ}
    (h : ∀ x ∈ xs, f x s = .ok (g x) s) : xs.mapM f s = .ok (xs.map g) s := by
  induction xs with
  | nil => rfl
  | cons x xs ih =>
    rw [List.mapM_cons, bind_of_ok (h x List.mem_cons_self),
      bind_of_ok (ih fun y hy => h y (List.mem_cons_of_mem _ hy))]
    rfl

theorem foldlM_lift {f : γ → ι → Checked γ} {act : γ → ι → Action σ γ} {xs : List ι} {y z : γ}
    (same : ∀ y x z, f y x = .ok z → ∀ s, act y x s = .ok z s) (run : xs.foldlM f y = .ok z)
    (s : σ) : xs.foldlM act y s = .ok z s := by
  induction xs generalizing y with
  | nil => cases run; rfl
  | cons x xs ih =>
    rw [List.foldlM_cons] at run ⊢
    obtain ⟨w, step, rest⟩ := except_bind_eq_ok.mp run
    rw [bind_of_ok (same y x w step s)]
    exact ih rest

/-! ### Steps that may fail -/

/-- The end of a run that breaks no contract. -/
def Ends (Q : β → σ → Prop) (E : Status → σ → Prop) : EStateM.Result Stop σ β → Prop
  | .ok x s => Q x s
  | .error (.status e) s => E e s
  | .error (.breach _) _ => False

variable {Q : β → σ → Prop} {E : Status → σ → Prop} {s : σ}

theorem Ends.mono {Q' : β → σ → Prop} {E' : Status → σ → Prop} {r : EStateM.Result Stop σ β}
    (h : Ends Q E r) (ok : ∀ x t, Q x t → Q' x t) (fails : ∀ e t, E e t → E' e t) :
    Ends Q' E' r := by
  rcases r with ⟨x, t⟩ | ⟨e | b, t⟩
  · exact ok x t h
  · exact fails e t h
  · exact h

theorem Ends.imp {Q' : β → σ → Prop} {r : EStateM.Result Stop σ β} (h : Ends Q E r)
    (ok : ∀ x t, Q x t → Q' x t) : Ends Q' E r :=
  h.mono ok fun _ _ => id

theorem Ends.bind {R : γ → σ → Prop} {act : Action σ γ} {next : γ → Action σ β}
    (h : Ends R E (act s)) (rest : ∀ x t, R x t → Ends Q E (next x t)) :
    Ends Q E ((act >>= next) s) := by
  change Ends Q E (EStateM.bind act next s)
  unfold EStateM.bind
  revert h
  rcases act s with ⟨x, t⟩ | ⟨e | b, t⟩
  · exact rest x t
  · exact id
  · exact id

theorem Ends.of_ok {x : β} {t : σ} {r : EStateM.Result Stop σ β} (h : r = .ok x t)
    (hx : Q x t) : Ends Q E r := h ▸ hx

theorem Ends.result {x : β} {t : σ} {r : EStateM.Result Stop σ β} (h : Ends Q E r)
    (run : r = .ok x t) : Q x t := by
  subst run
  exact h

theorem Ends.failure {e : Status} {t : σ} {r : EStateM.Result Stop σ β} (h : Ends Q E r)
    (run : r = .error (.status e) t) : E e t := by
  subst run
  exact h

theorem Ends.exists_ok {r : EStateM.Result Stop σ β} (h : Ends Q (fun _ _ => False) r) :
    ∃ x t, r = .ok x t ∧ Q x t := by
  rcases r with ⟨x, t⟩ | ⟨e | b, t⟩
  · exact ⟨x, t, rfl, h⟩
  · exact h.elim
  · exact h.elim

theorem Ends.attempt {act : Action σ β} (h : Ends Q E (act s)) :
    Ends (fun (outcome : Except Stop β) t =>
      (∃ x, outcome = .ok x ∧ Q x t) ∨ ∃ e, outcome = .error (.status e) ∧ E e t)
      (fun _ _ => False) (Action.attempt act s) := by
  unfold Action.attempt
  revert h
  rcases act s with ⟨x, t⟩ | ⟨e | b, t⟩
  · exact fun h => .inl ⟨x, rfl, h⟩
  · exact fun h => .inr ⟨e, rfl, h⟩
  · exact False.elim

theorem Ends.run (p : Part σ τ) (blank : τ) {act : Action τ β}
    (h : Ends (fun x t => Q x (p.modify (fun _ => t) (p.modify (fun _ => blank) s)))
      (fun e t => E e (p.modify (fun _ => t) (p.modify (fun _ => blank) s))) (act (p.get s))) :
    Ends Q E (p.run blank act s) := by
  unfold Part.run
  dsimp only
  revert h
  rcases act (p.get s) with ⟨x, t⟩ | ⟨e | b, t⟩
  · exact id
  · exact id
  · exact id

/-- A loop under an invariant of the entries already seen. -/
theorem Ends.foldlM {f : γ → ι → Action σ γ} (inv : List ι → γ → σ → Prop) {xs : List ι} {y : γ}
    (first : inv [] y s)
    (step : ∀ done x rest y t, xs = done ++ x :: rest → inv done y t →
      Ends (inv (done ++ [x])) E (f y x t)) :
    Ends (inv xs) E (xs.foldlM f y s) := by
  have general : ∀ (rest done : List ι) (y : γ) (t : σ), xs = done ++ rest → inv done y t →
      Ends (inv xs) E (rest.foldlM f y t) := by
    intro rest
    induction rest with
    | nil => intro done y t split hy; simpa [split, Ends] using hy
    | cons x rest ih =>
      intro done y t split hy
      rw [List.foldlM_cons]
      exact (step done x rest y t split hy).bind fun z u hz =>
        ih (done ++ [x]) z u (by simpa using split) hz
  exact general xs [] y s rfl first

theorem Ends.forM {f : ι → Action σ PUnit} (inv : List ι → σ → Prop) {xs : List ι}
    (first : inv [] s)
    (step : ∀ done x rest t, xs = done ++ x :: rest → inv done t →
      Ends (fun _ => inv (done ++ [x])) E (f x t)) :
    Ends (fun _ => inv xs) E (xs.forM f s) := by
  have general : ∀ (rest done : List ι) (t : σ), xs = done ++ rest → inv done t →
      Ends (fun _ => inv xs) E (rest.forM f t) := by
    intro rest
    induction rest with
    | nil => intro done t split ht; simpa [split, Ends, List.forM] using ht
    | cons x rest ih =>
      intro done t split ht
      exact (step done x rest t split ht).bind fun _ u hu =>
        ih (done ++ [x]) u (by simpa using split) hu
  exact general xs [] s rfl first

theorem Ends.forM_range {f : Nat → Action σ PUnit} (inv : Nat → σ → Prop) {n : Nat}
    (first : inv 0 s) (step : ∀ k < n, ∀ t, inv k t → Ends (fun _ => inv (k + 1)) E (f k t)) :
    Ends (fun _ => inv n) E ((List.range n).forM f s) := by
  refine (Ends.forM (fun done => inv done.length) first ?_).imp ?_
  · intro done k rest t split h
    obtain ⟨rfl, bound⟩ := range_split split
    rw [List.length_append, List.length_singleton]
    exact step done.length bound t h
  · intro _ t h
    rwa [List.length_range] at h

/-! ### Steps that may break some contracts -/

/-- The end of a run that breaks no other contracts than those in `B`. -/
def EndsOr (B : Breach → Prop) (Q : β → σ → Prop) (E : Status → σ → Prop) :
    EStateM.Result Stop σ β → Prop
  | .ok x s => Q x s
  | .error (.status e) s => E e s
  | .error (.breach b) _ => B b

section EndsOr

variable {B : Breach → Prop}

theorem Ends.or {r : EStateM.Result Stop σ β} (h : Ends Q E r) : EndsOr B Q E r := by
  rcases r with ⟨x, t⟩ | ⟨e | b, t⟩
  · exact h
  · exact h
  · exact h.elim

theorem EndsOr.ends {r : EStateM.Result Stop σ β} (h : EndsOr (fun _ => False) Q E r) :
    Ends Q E r := by
  rcases r with ⟨x, t⟩ | ⟨e | b, t⟩
  · exact h
  · exact h
  · exact h.elim

theorem EndsOr.mono {B' : Breach → Prop} {Q' : β → σ → Prop} {E' : Status → σ → Prop}
    {r : EStateM.Result Stop σ β} (h : EndsOr B Q E r) (broken : ∀ b, B b → B' b)
    (ok : ∀ x t, Q x t → Q' x t) (fails : ∀ e t, E e t → E' e t) : EndsOr B' Q' E' r := by
  rcases r with ⟨x, t⟩ | ⟨e | b, t⟩
  · exact ok x t h
  · exact fails e t h
  · exact broken b h

theorem EndsOr.and {B' : Breach → Prop} {Q' : β → σ → Prop} {E' : Status → σ → Prop}
    {r : EStateM.Result Stop σ β} (h : EndsOr B Q E r) (h' : EndsOr B' Q' E' r) :
    EndsOr (fun b => B b ∧ B' b) (fun x t => Q x t ∧ Q' x t) (fun e t => E e t ∧ E' e t) r := by
  rcases r with ⟨x, t⟩ | ⟨e | b, t⟩
  · exact ⟨h, h'⟩
  · exact ⟨h, h'⟩
  · exact ⟨h, h'⟩

theorem EndsOr.bind {R : γ → σ → Prop} {act : Action σ γ} {next : γ → Action σ β}
    (h : EndsOr B R E (act s)) (rest : ∀ x t, R x t → EndsOr B Q E (next x t)) :
    EndsOr B Q E ((act >>= next) s) := by
  change EndsOr B Q E (EStateM.bind act next s)
  unfold EStateM.bind
  revert h
  rcases act s with ⟨x, t⟩ | ⟨e | b, t⟩
  · exact rest x t
  · exact id
  · exact id

theorem EndsOr.noted {r : EStateM.Result Stop σ β} (h : EndsOr B Q E r) :
    EndsOr B (fun x t => r = .ok x t ∧ Q x t) (fun e t => r = .error (.status e) t ∧ E e t) r := by
  rcases r with ⟨x, t⟩ | ⟨e | b, t⟩
  · exact ⟨rfl, h⟩
  · exact ⟨rfl, h⟩
  · exact h

theorem EndsOr.result {x : β} {t : σ} {r : EStateM.Result Stop σ β} (h : EndsOr B Q E r)
    (run : r = .ok x t) : Q x t := by
  subst run
  exact h

theorem EndsOr.failure {e : Status} {t : σ} {r : EStateM.Result Stop σ β} (h : EndsOr B Q E r)
    (run : r = .error (.status e) t) : E e t := by
  subst run
  exact h

theorem EndsOr.checkCapacity {words : Nat} {next : Unit → Action σ β}
    (broken : ¬words ≤ addressableWords → B .capacityOverflow)
    (rest : words ≤ addressableWords → EndsOr B Q E (next () s)) :
    EndsOr B Q E (((liftM (SimplexBasis.checkCapacity words) : Action σ Unit) >>= next) s) := by
  unfold SimplexBasis.checkCapacity
  split
  · exact rest ‹_›
  · exact broken ‹_›

end EndsOr

theorem ok_of_bind {act : Action σ γ} {next : γ → Action σ β} {x : β} {t : σ}
    (run : (act >>= next) s = .ok x t) : ∃ y u, act s = .ok y u ∧ next y u = .ok x t := by
  change EStateM.bind act next s = _ at run
  unfold EStateM.bind at run
  revert run
  rcases act s with ⟨y, u⟩ | ⟨e, u⟩
  · exact fun run => ⟨y, u, rfl, run⟩
  · exact fun run => nomatch run

theorem error_of_bind {act : Action σ γ} {next : γ → Action σ β} {e : Stop} {t : σ}
    (run : (act >>= next) s = .error e t) :
    act s = .error e t ∨ ∃ y u, act s = .ok y u ∧ next y u = .error e t := by
  change EStateM.bind act next s = _ at run
  unfold EStateM.bind at run
  revert run
  rcases act s with ⟨y, u⟩ | ⟨e', u⟩
  · exact fun run => .inr ⟨y, u, rfl, run⟩
  · intro run
    cases run
    exact .inl rfl

theorem ok_of_lift_bind {act : Checked γ} {next : γ → Action σ β} {x : β} {t : σ}
    (run : ((liftM act : Action σ γ) >>= next) s = .ok x t) :
    ∃ y, act = .ok y ∧ next y s = .ok x t := by
  rcases act with b | y
  · exact nomatch run
  · exact ⟨y, rfl, run⟩

/-- Whether a call succeeded with a result that passes a test. -/
def endedWith (p : β → σ → Bool) : EStateM.Result Stop σ β → Bool
  | .ok x t => p x t
  | .error _ _ => false

theorem exists_ok_of_check {act : Action σ β} {s : σ} (p : β → σ → Bool)
    (check : endedWith p (act s) = true) : ∃ x t, act s = .ok x t ∧ p x t = true := by
  revert check
  rcases act s with ⟨x, t⟩ | ⟨e, t⟩
  · exact fun check => ⟨x, t, rfl, check⟩
  · exact fun check => nomatch check

/-- Whether a call was stopped for the given reason, in a state that passes a test. -/
def stoppedBy (stop : Stop) (p : σ → Bool) : EStateM.Result Stop σ β → Bool
  | .ok _ _ => false
  | .error other t => other == stop && p t

theorem stoppedBy_iff {stop : Stop} {p : σ → Bool} {r : EStateM.Result Stop σ β} :
    stoppedBy stop p r = true ↔ ∃ t, r = .error stop t ∧ p t = true := by
  rcases r with ⟨x, t⟩ | ⟨other, t⟩
  · simp [stoppedBy]
  · simp only [stoppedBy, Bool.and_eq_true, beq_iff_eq, EStateM.Result.error.injEq]
    constructor
    · rintro ⟨same, passes⟩
      exact ⟨t, ⟨same, rfl⟩, passes⟩
    · rintro ⟨_, ⟨same, rfl⟩, passes⟩
      exact ⟨same, passes⟩

end SimplexBasis
