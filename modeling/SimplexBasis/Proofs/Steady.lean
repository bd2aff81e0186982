import SimplexBasis.Proofs.Runs

/-!
# Steady actions

What can be said of an action without knowing what it computes. A steady action does the same when
something is noted in the state that it does not read, leaves a frame of the state as it was, also
when it stops, and fails with certain statuses only. Steadiness is read off the text of an action:
each construct has its lemma.
-/

namespace SimplexBasis

variable {σ τ ι κ β γ : Type}

/-- The ends of two runs from `s` and from the same state with a note. -/
inductive Along (note : σ → σ) (frame : σ → κ) (F : Status → Prop) (s : σ) :
    EStateM.Result Stop σ β → EStateM.Result Stop σ β → Prop
  | ok (x : β) (t : σ) : frame t = frame s → Along note frame F s (.ok x t) (.ok x (note t))
  | failed (e : Status) (t : σ) : frame t = frame s → F e →
      Along note frame F s (.error (.status e) t) (.error (.status e) (note t))
  | broken (b : Breach) (t : σ) : frame t = frame s →
      Along note frame F s (.error (.breach b) t) (.error (.breach b) (note t))

theorem Along.trans {note : σ → σ} {frame : σ → κ} {F : Status → Prop} {s t : σ}
    {r r' : EStateM.Result Stop σ β} (along : Along note frame F t r r') (same : frame t = frame s) :
    Along note frame F s r r' := by
  cases along with
  | ok x u kept => exact .ok x u (kept.trans same)
  | failed e u kept allowed => exact .failed e u (kept.trans same) allowed
  | broken b u kept => exact .broken b u (kept.trans same)

/-- The action does not read notes, keeps the frame, and fails with no other statuses than those in
`F`. -/
def Steady (note : σ → σ) (frame : σ → κ) (F : Status → Prop) (act : Action σ β) : Prop :=
  ∀ s, Along note frame F s (act s) (act (note s))

namespace Steady

variable {note : σ → σ} {frame : σ → κ} {F : Status → Prop} {act : Action σ β} {s t : σ}

/-! ### What steadiness says -/

theorem ok (h : Steady note frame F act) {x : β} (run : act s = .ok x t) :
    act (note s) = .ok x (note t) ∧ frame t = frame s := by
  have along := h s
  rw [run] at along
  generalize act (note s) = r at along
  cases along with
  | ok x t kept => exact ⟨rfl, kept⟩

theorem fails (h : Steady note frame F act) {e : Status} (run : act s = .error (.status e) t) :
    F e := by
  have along := h s
  rw [run] at along
  generalize act (note s) = r at along
  cases along with
  | failed e t kept allowed => exact allowed

theorem ends (h : Steady note frame F act) (s : σ) :
    EndsOr (fun _ => True) (fun _ t => frame t = frame s) (fun e t => F e ∧ frame t = frame s)
      (act s) := by
  have along := h s
  generalize act s = r at along
  generalize act (note s) = r' at along
  cases along with
  | ok x t kept => exact kept
  | failed e t kept allowed => exact ⟨allowed, kept⟩
  | broken b t kept => trivial

theorem mono {κ' : Type} {frame' : σ → κ'} {F' : Status → Prop} (h : Steady note frame F act)
    (kept : ∀ s t, frame t = frame s → frame' t = frame' s) (fails : ∀ e, F e → F' e) :
    Steady note frame' F' act := by
  intro s
  have along := h s
  revert along
  generalize act s = r
  generalize act (note s) = r'
  rintro (⟨x, t, same⟩ | ⟨e, t, same, allowed⟩ | ⟨b, t, same⟩)
  · exact .ok x t (kept s t same)
  · exact .failed e t (kept s t same) (fails e allowed)
  · exact .broken b t (kept s t same)

/-! ### Constructs -/

theorem pure (x : β) : Steady note frame F (pure x : Action σ β) := fun s => .ok x s rfl

theorem lift (act : Checked β) : Steady note frame F (liftM act : Action σ β) := by
  intro s
  cases act with
  | ok x => exact .ok x s rfl
  | error b => exact .broken b s rfl

theorem breach (b : Breach) : Steady note frame F (Action.breach b : Action σ β) :=
  fun s => .broken b s rfl

theorem fail {e : Status} (allowed : F e) : Steady note frame F (Action.fail e : Action σ β) :=
  fun s => .failed e s rfl allowed

theorem throw_stop {e : Stop} (allowed : ∀ status, e = .status status → F status) :
    Steady note frame F (throw e : Action σ β) := by
  intro s
  cases e with
  | status e => exact .failed e s rfl (allowed e rfl)
  | breach b => exact .broken b s rfl

theorem require (p : Bool) (b : Breach) : Steady note frame F (Action.require p b) := by
  unfold Action.require
  split
  · exact pure ()
  · exact breach b

theorem modify {f : σ → σ} (noted : ∀ s, f (note s) = note (f s)) (kept : ∀ s, frame (f s) = frame s) :
    Steady note frame F (modify f : Action σ PUnit) := by
  intro s
  change Along note frame F s (.ok PUnit.unit (f s)) (.ok PUnit.unit (f (note s)))
  rw [noted]
  exact .ok _ _ (kept s)

theorem bind {next : β → Action σ γ} (h : Steady note frame F act)
    (rest : ∀ x, Steady note frame F (next x)) : Steady note frame F (act >>= next) := by
  intro s
  change Along note frame F s (EStateM.bind act next s) (EStateM.bind act next (note s))
  unfold EStateM.bind
  have along := h s
  revert along
  generalize act s = r
  generalize act (note s) = r'
  rintro (⟨x, t, same⟩ | ⟨e, t, same, allowed⟩ | ⟨b, t, same⟩)
  · exact (rest x t).trans same
  · exact .failed e t same allowed
  · exact .broken b t same

theorem get_bind {next : σ → Action σ γ} (unread : ∀ s, next (note s) = next s)
    (rest : ∀ s, Steady note frame F (next s)) :
    Steady note frame F ((get : Action σ σ) >>= next) := by
  intro s
  change Along note frame F s (next s s) (next (note s) (note s))
  rw [unread]
  exact rest s s

/-- A branch that stops before the other one would go on. -/
theorem ite {c : Prop} [Decidable c] {other : Action σ β} (rest : Steady note frame F act)
    (stop : Steady note frame F act → Steady note frame F other) :
    Steady note frame F (if c then other else act) := by
  split
  · exact stop rest
  · exact rest

theorem forM {f : ι → Action σ PUnit} {xs : List ι} (step : ∀ x, Steady note frame F (f x)) :
    Steady note frame F (xs.forM f) := by
  induction xs with
  | nil => exact pure PUnit.unit
  | cons x xs ih => exact (step x).bind fun _ => ih

theorem foldlM {f : γ → ι → Action σ γ} {xs : List ι} {y : γ}
    (step : ∀ y x, Steady note frame F (f y x)) : Steady note frame F (xs.foldlM f y) := by
  induction xs generalizing y with
  | nil => exact pure y
  | cons x xs ih =>
    rw [List.foldlM_cons]
    exact (step y x).bind fun _ => ih

theorem mapM {f : ι → Action σ γ} {xs : List ι} (step : ∀ x, Steady note frame F (f x)) :
    Steady note frame F (xs.mapM f) := by
  induction xs with
  | nil => exact pure []
  | cons x xs ih =>
    rw [List.mapM_cons]
    exact (step x).bind fun _ => ih.bind fun _ => pure _

theorem attempt {F' : Status → Prop} {next : Except Stop β → Action σ γ}
    (h : Steady note frame F' act)
    (rest : ∀ outcome, (∀ e, outcome = .error (.status e) → F' e) →
      Steady note frame F (next outcome)) :
    Steady note frame F (Action.attempt act >>= next) := by
  intro s
  change Along note frame F s (EStateM.bind _ next s) (EStateM.bind _ next (note s))
  unfold EStateM.bind Action.attempt
  have chain : ∀ outcome t, frame t = frame s → (∀ e, outcome = .error (.status e) → F' e) →
      Along note frame F s (next outcome t) (next outcome (note t)) := by
    intro outcome t same allowed
    exact (rest outcome allowed t).trans same
  have along := h s
  revert along
  generalize act s = r
  generalize act (note s) = r'
  rintro (⟨x, t, same⟩ | ⟨e, t, same, allowed⟩ | ⟨b, t, same⟩)
  · exact chain _ t same (by simp)
  · exact chain _ t same (by simpa using allowed)
  · exact chain _ t same (by simp)

/-! ### Components -/

/-- An action on a component in which nothing is noted and of which no frame is kept. -/
theorem run {p : Part σ τ} {blank : τ} {act : Action τ β}
    (h : Steady id (fun _ => ()) F act) (unread : ∀ s, p.get (note s) = p.get s)
    (noted : ∀ f s, p.modify f (note s) = note (p.modify f s))
    (kept : ∀ f s, frame (p.modify f s) = frame s) : Steady note frame F (p.run blank act) := by
  intro s
  have along := h (p.get s)
  unfold Part.run
  dsimp only
  rw [unread, noted]
  revert along
  dsimp only [id]
  generalize act (p.get s) = r
  intro along
  have kept' : ∀ t, frame (p.modify (fun _ => t) (p.modify (fun _ => blank) s)) = frame s :=
    fun t => (kept _ _).trans (kept _ _)
  rcases r with ⟨x, t⟩ | ⟨e | b, t⟩
  · dsimp only
    rw [noted]
    exact .ok x _ (kept' t)
  · dsimp only
    rw [noted]
    refine .failed e _ (kept' t) ?_
    cases along with
    | failed e t same allowed => exact allowed
  · dsimp only
    rw [noted]
    exact .broken b _ (kept' t)

theorem put {p : Part σ (Array τ)} {i : Nat} {x : τ} (unread : ∀ s, p.get (note s) = p.get s)
    (noted : ∀ f s, p.modify f (note s) = note (p.modify f s))
    (kept : ∀ f s, frame (p.modify f s) = frame s) : Steady note frame F (p.put i x) := by
  intro s
  unfold Part.put
  rw [unread, noted]
  split
  · exact .ok _ _ (kept _ s)
  · exact .broken _ _ rfl

end Steady

/-! ### Components without notes -/

/-- The action fails with no other statuses than those in `F`. -/
abbrev Raises (F : Status → Prop) (act : Action σ β) : Prop := Steady id (fun _ => ()) F act

namespace Raises

variable {F : Status → Prop}

theorem get_bind {next : σ → Action σ β} (rest : ∀ s, Raises F (next s)) :
    Raises F ((get : Action σ σ) >>= next) := Steady.get_bind (fun _ => rfl) rest

theorem modify {f : σ → σ} : Raises F (modify f : Action σ PUnit) :=
  Steady.modify (fun _ => rfl) fun _ => rfl

theorem put {p : Part σ (Array τ)} {i : Nat} {x : τ} : Raises F (p.put i x) :=
  Steady.put (fun _ => rfl) (fun _ _ => rfl) fun _ _ => rfl

end Raises

end SimplexBasis
