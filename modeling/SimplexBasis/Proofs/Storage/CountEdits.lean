import SimplexBasis.Proofs.Storage.CountLists

/-!
# Edits of count lists

The count lists behave as a ledger: the elements of all lists in the order in which they were added,
each with its list. Every edit does to the ledger what its name says, and what the lists answer, in
either direction, is read off the ledger (`edits_refine`).
-/

namespace SimplexBasis.CountLists

/-! ### Ledgers -/

/-- Elements with their lists, in the order in which they were added. -/
abbrev Ledger := List (Nat × Nat)

namespace Ledger

variable {r : Ledger} {e k list : Nat}

def listed (r : Ledger) : List Nat := r.map Prod.fst

def inList (r : Ledger) (k : Nat) : List Nat := (r.filter (·.2 == k)).map Prod.fst

def without (r : Ledger) (e : Nat) : Ledger := r.filter (·.1 != e)

theorem mem_inList : e ∈ r.inList k ↔ (e, k) ∈ r := by
  simp [inList]

theorem mem_without {p : Nat × Nat} : p ∈ r.without e ↔ p ∈ r ∧ p.1 ≠ e := by
  simp [without]

theorem not_mem_listed_without (r : Ledger) (e : Nat) : e ∉ (r.without e).listed := by
  simp [listed, without]

theorem nodup_without (once : r.listed.Nodup) (e : Nat) : (r.without e).listed.Nodup :=
  once.sublist (List.filter_sublist.map Prod.fst)

theorem nodup_append (once : r.listed.Nodup) (fresh : e ∉ r.listed) (list : Nat) :
    Ledger.listed (r ++ [(e, list)]) |>.Nodup := by
  rw [listed, List.map_append]
  refine List.nodup_append.mpr ⟨once, List.pairwise_singleton _ e, fun x hx y hy same => ?_⟩
  obtain rfl : y = e := List.mem_singleton.mp hy
  exact fresh (same ▸ hx)

theorem nodup_inList (once : r.listed.Nodup) (k : Nat) : (r.inList k).Nodup :=
  once.sublist (List.filter_sublist.map Prod.fst)

theorem inList_append (r : Ledger) (e list : Nat) :
    Ledger.inList (r ++ [(e, list)]) = appended r.inList e list := by
  funext k
  by_cases own : k = list
  · simp [inList, appended, own]
  · simp [inList, appended, own, Ne.symm own]

theorem inList_without (once : r.listed.Nodup) (e : Nat) :
    (r.without e).inList = fun k => (r.inList k).erase e := by
  funext k
  rw [(nodup_inList once k).erase_eq_filter]
  simp only [inList, without, List.filter_map, List.filter_filter]
  congr 2
  funext p
  simp [Bool.and_comm]

/-- Which of `lists` lists is the first with an element, list zero apart. -/
def Least (r : Ledger) (lists : Nat) : Option Nat → Prop
  | some k => 0 < k ∧ k < lists ∧ r.inList k ≠ [] ∧ ∀ l, 0 < l → l < k → r.inList l = []
  | none => ∀ k, 0 < k → k < lists → r.inList k = []

theorem least_firstIn (r : Ledger) (lists : Nat) : r.Least lists (firstIn lists r.inList) := by
  cases answer : firstIn lists r.inList with
  | none =>
    intro k pos hk
    have empty := List.find?_range_eq_none.mp answer k hk
    simpa [pos] using empty
  | some k =>
    obtain ⟨found, inside, before⟩ := List.find?_range_eq_some.mp answer
    rw [Bool.and_eq_true, decide_eq_true_eq] at found
    refine ⟨found.1, List.mem_range.mp inside, by simpa using found.2, fun l pos small => ?_⟩
    simpa [pos] using before l small

end Ledger

/-! ### Edits -/

/-- A call that changes the lists, or the place at which the search for a list with an element
begins. -/
inductive Edit where
  | add (e list : Nat)
  | remove (e : Nat)
  | moveTo (e list : Nat)
  | leastNonempty

namespace Edit

def run : Edit → Action CountLists Unit
  | add e list => CountLists.add e list
  | remove e => CountLists.remove e
  | moveTo e list => CountLists.moveTo e list
  | leastNonempty => do let _ ← CountLists.leastNonempty

def apply (r : Ledger) : Edit → Ledger
  | add e list => r ++ [(e, list)]
  | remove e => r.without e
  | moveTo e list => r.without e ++ [(e, list)]
  | leastNonempty => r

/-- The edit is about an element and a list that there are, and an added element is in no list. -/
def Allowed (elements lists : Nat) (r : Ledger) : Edit → Prop
  | add e list => e < elements ∧ list < lists ∧ e ∉ r.listed
  | remove e => e < elements
  | moveTo e list => e < elements ∧ list < lists
  | leastNonempty => True

end Edit

def AllAllowed (elements lists : Nat) : Ledger → List Edit → Prop
  | _, [] => True
  | r, edit :: edits =>
    edit.Allowed elements lists r ∧ AllAllowed elements lists (edit.apply r) edits

/-! ### Refinement -/

/-- The links hold the lists of a ledger. -/
structure Keeps (elements lists : Nat) (c : CountLists) (r : Ledger) : Prop where
  elements_eq : c.elements = elements
  lists_eq : c.lists = lists
  once : r.listed.Nodup
  placed : ∀ p ∈ r, p.1 < elements ∧ p.2 < lists
  holds : c.Holds r.inList

variable {elements lists e k : Nat} {c : CountLists} {r : Ledger}

theorem keeps_blank (elements lists : Nat) : Keeps elements lists (blank elements lists) [] where
  elements_eq := rfl
  lists_eq := rfl
  once := List.nodup_nil
  placed := by simp
  holds := holds_blank elements lists

namespace Keeps

theorem absent (fresh : e ∉ r.listed) : ∀ k < c.lists, e ∉ r.inList k := fun _ _ member =>
  fresh (List.mem_map_of_mem (Ledger.mem_inList.mp member))

theorem add (h : Keeps elements lists c r) {list : Nat} (he : e < elements) (hl : list < lists)
    (fresh : e ∉ r.listed) :
    ∃ d, CountLists.add e list c = .ok () d ∧ Keeps elements lists d (r ++ [(e, list)]) := by
  obtain ⟨d, run, holds, shape⟩ :=
    h.holds.add (h.elements_eq ▸ he) (h.lists_eq ▸ hl) (absent fresh)
  refine ⟨d, run, shape.1.trans h.elements_eq, shape.2.trans h.lists_eq,
    Ledger.nodup_append h.once fresh list, fun p hp => ?_, Ledger.inList_append r e list ▸ holds⟩
  rcases List.mem_append.mp hp with hp | hp
  · exact h.placed p hp
  · obtain rfl := List.mem_singleton.mp hp
    exact ⟨he, hl⟩

theorem remove (h : Keeps elements lists c r) (he : e < elements) :
    ∃ d, CountLists.remove e c = .ok () d ∧ Keeps elements lists d (r.without e) := by
  obtain ⟨d, run, holds, shape⟩ := h.holds.remove (h.elements_eq ▸ he)
  exact ⟨d, run, shape.1.trans h.elements_eq, shape.2.trans h.lists_eq,
    Ledger.nodup_without h.once e, fun p hp => h.placed p (Ledger.mem_without.mp hp).1,
    Ledger.inList_without h.once e ▸ holds⟩

theorem moveTo (h : Keeps elements lists c r) {list : Nat} (he : e < elements)
    (hl : list < lists) : ∃ d, CountLists.moveTo e list c = .ok () d ∧
      Keeps elements lists d (r.without e ++ [(e, list)]) := by
  obtain ⟨d, removed, kept⟩ := h.remove he
  obtain ⟨t, added, keeps⟩ := kept.add he hl (r.not_mem_listed_without e)
  exact ⟨t, (bind_of_ok removed).trans added, keeps⟩

end Keeps

theorem advance_links (remaining : Nat) : ∀ {c d : CountLists},
    advance remaining c = .ok () d → d.forward = c.forward ∧ d.backward = c.backward := by
  induction remaining with
  | zero =>
    rintro c d ⟨⟩
    exact ⟨rfl, rfl⟩
  | succ remaining ih =>
    intro c d run
    unfold advance at run
    rw [get_bind] at run
    obtain ⟨first, u, read, rest⟩ := ok_of_bind run
    obtain rfl : u = c := by
      cases answer : c.first c.least with
      | ok x => exact (EStateM.Result.ok.inj (answer ▸ read)).2.symm
      | error b => rw [answer] at read; cases read
    split at rest
    · rw [modify_bind] at rest
      have links := ih rest
      exact links
    · cases rest
      exact ⟨rfl, rfl⟩

theorem leastNonempty_links {d : CountLists} {answer : Option Nat}
    (run : leastNonempty c = .ok answer d) : d.forward = c.forward ∧ d.backward = c.backward := by
  unfold leastNonempty at run
  simp only [get_bind] at run
  obtain ⟨_, u, advanced, rest⟩ := ok_of_bind run
  cases rest
  exact advance_links _ advanced

theorem Keeps.edit (h : Keeps elements lists c r) (edit : Edit)
    (allowed : edit.Allowed elements lists r) :
    ∃ d, edit.run c = .ok () d ∧ Keeps elements lists d (edit.apply r) := by
  cases edit with
  | add e list =>
    obtain ⟨he, hl, fresh⟩ := allowed
    exact h.add he hl fresh
  | remove e => exact h.remove allowed
  | moveTo e list => exact h.moveTo allowed.1 allowed.2
  | leastNonempty =>
    obtain ⟨d, run, holds, shape⟩ := h.holds.leastNonempty
    exact ⟨d, bind_of_ok run, shape.1.trans h.elements_eq, shape.2.trans h.lists_eq, h.once,
      h.placed, holds⟩

theorem Keeps.edits (h : Keeps elements lists c r) {edits : List Edit}
    (allowed : AllAllowed elements lists r edits) : ∃ d, edits.forM Edit.run c = .ok () d ∧
      Keeps elements lists d (edits.foldl Edit.apply r) := by
  induction edits generalizing c r with
  | nil => exact ⟨c, rfl, h⟩
  | cons edit edits ih =>
    obtain ⟨u, run, kept⟩ := h.edit edit allowed.1
    obtain ⟨d, rest, keeps⟩ := ih kept allowed.2
    exact ⟨d, (bind_of_ok run).trans rest, keeps⟩

/-! ### Both directions -/

/-- The lists with the two kinds of links exchanged, to read them backwards. -/
def mirror (c : CountLists) : CountLists :=
  { c with forward := c.backward, backward := c.forward }

theorem Holds.mirror {L : Nat → List Nat} (h : c.Holds L) :
    c.mirror.Holds fun k => (L k).reverse where
  size_forward := h.size_backward
  size_backward := h.size_forward
  ring k hk := (h.ring k hk).reverse
  nodup k hk := List.pairwise_reverse.mpr ((h.nodup k hk).imp Ne.symm)
  bounded k hk e he := h.bounded k hk e (List.mem_reverse.mp he)
  unique k hk l hl e he he' :=
    h.unique k hk l hl e (List.mem_reverse.mp he) (List.mem_reverse.mp he')
  loose e he absent :=
    (h.loose e he fun k hk member => absent k hk (List.mem_reverse.mpr member)).symm
  least_pos := h.least_pos
  least_empty k hk pos small := by simp [h.least_empty k hk pos small]

/-- The lists show a ledger: what they answer is read off it. -/
structure Shows (elements lists : Nat) (c : CountLists) (r : Ledger) : Prop where
  once : r.listed.Nodup
  placed : ∀ p ∈ r, p.1 < elements ∧ p.2 < lists
  forwards : ∀ k < lists, c.toList k = .ok (r.inList k)
  backwards : ∀ k < lists, c.mirror.toList k = .ok (r.inList k).reverse
  /-- What is in no list is linked to itself. -/
  loose : ∀ e < elements, e ∉ r.listed → c.forward[e]? = some e ∧ c.backward[e]? = some e
  below_least : ∀ k < lists, 0 < k → k < c.least → r.inList k = []
  leastNonempty : ∃ answer d, c.leastNonempty = .ok answer d ∧ r.Least lists answer ∧
    d.forward = c.forward ∧ d.backward = c.backward

theorem Keeps.shows (h : Keeps elements lists c r) : Shows elements lists c r where
  once := h.once
  placed := h.placed
  forwards _ hk := h.holds.toList_eq (h.lists_eq ▸ hk)
  backwards _ hk := h.holds.mirror.toList_eq (h.lists_eq ▸ hk)
  loose e he fresh := h.holds.loose e (h.elements_eq ▸ he) (absent fresh)
  below_least k hk pos small := h.holds.least_empty k (h.lists_eq ▸ hk) pos small
  leastNonempty := by
    obtain ⟨d, run, _⟩ := h.holds.leastNonempty
    exact ⟨_, d, run, h.lists_eq ▸ r.least_firstIn c.lists, leastNonempty_links run⟩

/-- Allowed edits of empty lists break no contract, and the lists then show the ledger that the same
edits make. -/
theorem edits_refine {edits : List Edit} (allowed : AllAllowed elements lists [] edits) :
    ∃ c, edits.forM Edit.run (blank elements lists) = .ok () c ∧
      Shows elements lists c (edits.foldl Edit.apply []) := by
  obtain ⟨c, run, keeps⟩ := (keeps_blank elements lists).edits allowed
  exact ⟨c, run, keeps.shows⟩

/-- The only element of a list moves within it, and to a list below the least one. -/
theorem edits_refine_moved : ∃ c : CountLists,
    [Edit.add 0 2, .add 3 2, .add 1 3, .leastNonempty, .moveTo 1 3, .moveTo 0 2, .moveTo 3 1,
      .remove 4].forM Edit.run (blank 5 4) = .ok () c ∧
    Shows 5 4 c [(1, 3), (0, 2), (3, 1)] :=
  edits_refine (by simp [AllAllowed, Edit.Allowed, Edit.apply, Ledger.listed])

end SimplexBasis.CountLists
