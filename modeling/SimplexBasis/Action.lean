import SimplexBasis.Outcome

/-!
# Actions

An `Action σ β` works on a state `σ` and answers a `β` or stops. The state reached is kept also
when it stops, so that statistics and log records of an incomplete run are not lost. Pure work
that can only break a contract is `Checked`. A `Part` names a component of a state; an action on
the component becomes an action on the whole.
-/

namespace SimplexBasis

/-- A result, unless a contract is broken. -/
abbrev Checked := Except Breach

/-- Work on a state `σ` that answers a `β` or stops. -/
abbrev Action (σ : Type) := EStateM Stop σ

instance : MonadLift Checked (Except Stop) where
  monadLift
    | .ok x => .ok x
    | .error b => .error (.breach b)

instance {σ : Type} : MonadLift Checked (Action σ) where
  monadLift
    | .ok x => pure x
    | .error b => throw (.breach b)

variable {σ τ ι β : Type}

@[inline] def entry (xs : Array β) (i : Nat) : Checked β :=
  if h : i < xs.size then .ok xs[i] else .error .indexOutOfRange

theorem entry_eq_ok_iff {xs : Array β} {i : Nat} {x : β} :
    entry xs i = .ok x ↔ xs[i]? = some x := by
  unfold entry
  split <;> simp [*]

@[inline] def withEntry (xs : Array β) (i : Nat) (x : β) : Checked (Array β) :=
  if h : i < xs.size then .ok (xs.set i x h) else .error .indexOutOfRange

theorem withEntry_eq_ok_iff {xs ys : Array β} {i : Nat} {x : β} :
    withEntry xs i x = .ok ys ↔ i < xs.size ∧ xs.setIfInBounds i x = ys := by
  unfold withEntry Array.setIfInBounds
  split <;> simp [*]

/-- The entries at the positions from `first` up to, but not including, `last`. -/
def segment (xs : Array β) (first last : Nat) : Checked (List β) :=
  if first ≤ last ∧ last ≤ xs.size then .ok (xs.extract first last).toList
  else .error .indexOutOfRange

theorem segment_eq_ok_iff {xs : Array β} {first last : Nat} {ys : List β} :
    segment xs first last = .ok ys ↔
      first ≤ last ∧ last ≤ xs.size ∧ (xs.extract first last).toList = ys := by
  unfold segment
  split <;> rename_i h
  · simp [h]
  · simp only [reduceCtorEq, false_iff]
    exact fun ⟨h₁, h₂, _⟩ => h ⟨h₁, h₂⟩

theorem segment_append (front middle back : List β) :
    segment (front ++ middle ++ back).toArray front.length (front.length + middle.length) =
      .ok middle := by
  rw [segment_eq_ok_iff]
  simp

def overwrite (xs : Array β) (first : Nat) : List β → Array β
  | [] => xs
  | y :: ys => overwrite (xs.setIfInBounds first y) (first + 1) ys

@[simp] theorem size_overwrite (xs : Array β) (first : Nat) (ys : List β) :
    (overwrite xs first ys).size = xs.size := by
  induction ys generalizing xs first with
  | nil => rfl
  | cons y ys ih => simp [overwrite, ih]

theorem getElem?_overwrite (xs : Array β) (first : Nat) (ys : List β) (k : Nat)
    (fits : first + ys.length ≤ xs.size) :
    (overwrite xs first ys)[k]? =
      if first ≤ k ∧ k < first + ys.length then ys[k - first]? else xs[k]? := by
  induction ys generalizing xs first with
  | nil => grind [overwrite]
  | cons y ys ih =>
    simp only [List.length_cons] at fits
    rw [overwrite, ih _ _ (by simp; omega)]
    by_cases h : k = first <;> grind

/-- The largest number of words that an array may have. -/
def addressableWords : Nat := UInt64.size / 16 - 1

def checkCapacity (words : Nat) : Checked Unit :=
  if words ≤ addressableWords then .ok () else .error .capacityOverflow

namespace Action

@[inline] def fail (s : Status) : Action σ β := throw (.status s)

@[inline] def breach (b : Breach) : Action σ β := throw (.breach b)

/-- Run an action and answer also how it stopped. The state it reached is kept. -/
@[inline] def attempt (act : Action σ β) : Action σ (Except Stop β) := fun s =>
  match act s with
  | .ok x s => .ok (.ok x) s
  | .error e s => .ok (.error e) s

@[inline] def require (p : Bool) (b : Breach) : Action σ Unit :=
  if p then pure () else breach b

end Action

/-- A component of a state: how to read it and how to change it. -/
structure Part (σ τ : Type) where
  get : σ → τ
  modify : (τ → τ) → σ → σ

namespace Part

@[inline] def put (p : Part σ (Array β)) (i : Nat) (x : β) : Action σ Unit := fun s =>
  if i < (p.get s).size then .ok () (p.modify (·.setIfInBounds i x) s)
  else .error (.breach .indexOutOfRange) s

/-- Run an action of the component on the whole state. The component is out of the state while the
action runs; `blank` stands in for it. -/
@[inline] def run (p : Part σ τ) (blank : τ) (act : Action τ β) : Action σ β := fun s =>
  let t := p.get s
  let s := p.modify (fun _ => blank) s
  match act t with
  | .ok x t => .ok x (p.modify (fun _ => t) s)
  | .error e t => .error e (p.modify (fun _ => t) s)

end Part

end SimplexBasis
