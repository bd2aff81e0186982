import Mathlib.Data.List.Perm.Subperm
import SimplexBasis.Proofs.Runs
import SimplexBasis.Proofs.Storage.Path
import SimplexBasis.Storage.CountLists

/-!
# Contents of count lists

`Holds c L` says that the links of `c` represent the lists `L`: list `k` is a ring through its head
with the elements of `L k` in order, no element is in two lists, and an element of no list is linked
to itself. Every operation is described by what it does to `L`.
-/

namespace SimplexBasis.CountLists

/-- The lists `L` in the links of `c`. -/
structure Holds (c : CountLists) (L : Nat → List Nat) : Prop where
  size_forward : c.forward.size = c.elements + c.lists
  size_backward : c.backward.size = c.elements + c.lists
  ring : ∀ k < c.lists, Path c.forward c.backward (c.elements + k) (L k) (c.elements + k)
  nodup : ∀ k < c.lists, (L k).Nodup
  bounded : ∀ k < c.lists, ∀ e ∈ L k, e < c.elements
  unique : ∀ k < c.lists, ∀ l < c.lists, ∀ e, e ∈ L k → e ∈ L l → k = l
  loose : ∀ e < c.elements, (∀ k < c.lists, e ∉ L k) →
    c.forward[e]? = some e ∧ c.backward[e]? = some e
  least_pos : 0 < c.least
  least_empty : ∀ k < c.lists, 0 < k → k < c.least → L k = []

def SameShape (c d : CountLists) : Prop := d.elements = c.elements ∧ d.lists = c.lists

variable {c : CountLists} {L : Nat → List Nat} {e k list : Nat}

theorem holds_blank (elements lists : Nat) : (blank elements lists).Holds fun _ => [] where
  size_forward := by simp [blank]
  size_backward := by simp [blank]
  ring k hk := by
    have inside : elements + k < elements + lists := Nat.add_lt_add_left hk _
    simp [blank, Path, inside]
  nodup := by simp
  bounded := by simp
  unique := by simp
  loose e he _ := by
    have inside : e < elements + lists := Nat.lt_add_right _ he
    simp [blank, inside]
  least_pos := Nat.le_max_left 1 lists
  least_empty := by simp

/-- The least of `n` lists with an element, list zero apart. -/
def firstIn (n : Nat) (L : Nat → List Nat) : Option Nat :=
  (List.range n).find? fun k => decide (0 < k) && !(L k).isEmpty

theorem exists_firstIn {n : Nat} (hk : k < n) (pos : 0 < k) (some_ : L k ≠ []) :
    ∃ l, firstIn n L = some l ∧ l ≤ k := by
  cases found : firstIn n L with
  | none =>
    have empty := List.find?_range_eq_none.mp found k hk
    simp [pos, some_] at empty
  | some l =>
    refine ⟨l, rfl, Nat.le_of_not_lt fun small => ?_⟩
    have empty := (List.find?_range_eq_some.mp found).2.2 k small
    simp [pos, some_] at empty

/-! ### Reading -/

namespace Holds

theorem nodup_ring (h : c.Holds L) (hk : k < c.lists) : ((c.elements + k) :: L k).Nodup :=
  List.nodup_cons.mpr ⟨fun member => by have := h.bounded k hk _ member; omega, h.nodup k hk⟩

theorem length_le (h : c.Holds L) (hk : k < c.lists) : (L k).length ≤ c.elements := by
  have subset : L k ⊆ List.range c.elements := fun e he => List.mem_range.mpr (h.bounded k hk e he)
  simpa using ((h.nodup k hk).subperm subset).length_le

theorem first_eq (h : c.Holds L) (hk : k < c.lists) : c.first k = .ok (L k).head? := by
  have ring := h.ring k hk
  unfold first
  cases content : L k with
  | nil =>
    rw [content] at ring
    rw [entry_eq_ok_iff.mpr ring.1]
    simp [element?, pure, Except.pure]
  | cons e rest =>
    rw [content] at ring
    have small := h.bounded k hk e (by simp [content])
    rw [entry_eq_ok_iff.mpr ring.1]
    simp [element?, small, pure, Except.pure]

theorem following_eq (h : c.Holds L) (hk : k < c.lists) {front back : List Nat}
    (split : L k = front ++ e :: back) : c.following e = .ok back.head? := by
  have ring := h.ring k hk
  rw [split] at ring
  have rest := (Path.append_iff.mp ring).2
  unfold following
  cases back with
  | nil =>
    rw [entry_eq_ok_iff.mpr rest.1]
    simp [element?, pure, Except.pure]
  | cons x back =>
    have small := h.bounded k hk x (by simp [split])
    rw [entry_eq_ok_iff.mpr rest.1]
    simp [element?, small, pure, Except.pure]

theorem follow_eq (h : c.Holds L) (hk : k < c.lists) {front back : List Nat}
    (split : L k = front ++ back) {fuel : Nat} (enough : back.length ≤ fuel) :
    c.follow fuel back.head? = .ok back := by
  induction back generalizing front fuel with
  | nil => cases fuel <;> rfl
  | cons x back ih =>
    cases fuel with
    | zero => simp at enough
    | succ fuel =>
      have rest := @ih (front ++ [x]) (by simpa using split) _ (by simpa using enough)
      simp [follow, h.following_eq hk split, rest, pure, Except.pure]

theorem toList_eq (h : c.Holds L) (hk : k < c.lists) : c.toList k = .ok (L k) := by
  unfold toList
  rw [h.first_eq hk, checked_ok_bind]
  exact @Holds.follow_eq _ _ _ h hk [] _ rfl _ (h.length_le hk)

end Holds

/-! ### Writing -/

theorem setForward_eq {i : Nat} (x : Nat) (hi : i < c.forward.size) :
    setForward i x c = .ok () { c with forward := c.forward.setIfInBounds i x } :=
  put_eq _ x hi

theorem setBackward_eq {i : Nat} (x : Nat) (hi : i < c.backward.size) :
    setBackward i x c = .ok () { c with backward := c.backward.setIfInBounds i x } :=
  put_eq _ x hi

theorem lt_of_getElem? {xs : Array Nat} {i x : Nat} (h : xs[i]? = some x) : i < xs.size :=
  (Array.getElem?_eq_some_iff.mp h).1

/-- The four writes of a removal. -/
def cut (c : CountLists) (e next prev : Nat) : CountLists :=
  { c with
    forward := (c.forward.setIfInBounds prev next).setIfInBounds e e
    backward := (c.backward.setIfInBounds next prev).setIfInBounds e e }

theorem remove_run {next prev : Nat} (hn : c.forward[e]? = some next)
    (hp : c.backward[e]? = some prev) (sizeNext : next < c.backward.size)
    (sizePrev : prev < c.forward.size) : remove e c = .ok () (c.cut e next prev) := by
  unfold remove
  simp only [get_bind, entry_eq_ok_iff.mpr hn, entry_eq_ok_iff.mpr hp, lift_ok_bind]
  rw [bind_of_ok (setForward_eq _ sizePrev), bind_of_ok (setBackward_eq _ (by exact sizeNext)),
    bind_of_ok (setForward_eq _ (by simpa using lt_of_getElem? hn)),
    setBackward_eq _ (by simpa using lt_of_getElem? hp)]
  rfl

theorem getElem?_cut_forward {next prev x : Nat} (he : e < c.forward.size)
    (hp : prev < c.forward.size) : (c.cut e next prev).forward[x]? =
      if x = e then some e else if x = prev then some next else c.forward[x]? := by
  simp only [cut, Array.getElem?_setIfInBounds]
  grind

theorem getElem?_cut_backward {next prev x : Nat} (he : e < c.backward.size)
    (hn : next < c.backward.size) : (c.cut e next prev).backward[x]? =
      if x = e then some e else if x = next then some prev else c.backward[x]? := by
  simp only [cut, Array.getElem?_setIfInBounds]
  grind

namespace Holds

theorem lt_size_of_mem (h : c.Holds L) (hk : k < c.lists) {x : Nat}
    (hx : x ∈ (c.elements + k) :: L k) : x < c.elements + c.lists := by
  rcases List.mem_cons.mp hx with rfl | hx
  · omega
  · have := h.bounded k hk x hx
    omega

theorem apart (h : c.Holds L) {l x y : Nat} (hk : k < c.lists) (hl : l < c.lists) (ne : k ≠ l)
    (hx : x ∈ (c.elements + k) :: L k) (hy : y ∈ (c.elements + l) :: L l) : x ≠ y := by
  rintro rfl
  rcases List.mem_cons.mp hx with rfl | hx <;> rcases List.mem_cons.mp hy with same | hy
  · omega
  · have := h.bounded l hl _ hy
    omega
  · have := h.bounded k hk _ hx
    omega
  · exact ne (h.unique k hk l hl x hx hy)

theorem remove_loose (h : c.Holds L) (he : e < c.elements) (free : ∀ k < c.lists, e ∉ L k) :
    ∃ d, remove e c = .ok () d ∧ d.Holds (fun k => (L k).erase e) ∧ SameShape c d := by
  obtain ⟨hf, hb⟩ := h.loose e he free
  have inForward := lt_of_getElem? hf
  have inBackward := lt_of_getElem? hb
  have forward : ∀ x : Nat, (c.cut e e e).forward[x]? = c.forward[x]? := by
    intro x
    rw [getElem?_cut_forward inForward inForward]
    grind
  have backward : ∀ x : Nat, (c.cut e e e).backward[x]? = c.backward[x]? := by
    intro x
    rw [getElem?_cut_backward inBackward inBackward]
    grind
  have lists : ∀ k < c.lists, (L k).erase e = L k := fun k hk => List.erase_of_not_mem (free k hk)
  refine ⟨_, remove_run hf hb inBackward inForward, ?_, rfl, rfl⟩
  exact {
    size_forward := by simpa [cut] using h.size_forward
    size_backward := by simpa [cut] using h.size_backward
    ring := fun k hk => by
      rw [lists k hk]
      exact (h.ring k hk).congr (fun x _ => forward x) fun x _ => backward x
    nodup := fun k hk => (h.nodup k hk).erase e
    bounded := fun k hk x hx => h.bounded k hk x (List.mem_of_mem_erase hx)
    unique := fun k hk l hl x hx hy =>
      h.unique k hk l hl x (List.mem_of_mem_erase hx) (List.mem_of_mem_erase hy)
    loose := fun x hx absent => by
      rw [forward, backward]
      exact h.loose x hx fun k hk member => absent k hk (by rwa [lists k hk])
    least_pos := h.least_pos
    least_empty := fun k hk pos small => by
      rw [lists k hk]
      exact h.least_empty k hk pos small }

/-- The links of an element of list `k`. -/
structure Linked (c : CountLists) (L : Nat → List Nat) (k e prev next : Nat) : Prop where
  prev_eq : c.backward[e]? = some prev
  next_eq : c.forward[e]? = some next
  prev_mem : prev ∈ (c.elements + k) :: L k
  next_mem : next ∈ (c.elements + k) :: L k
  prev_ne : prev ≠ e
  next_ne : next ≠ e

theorem exists_linked (h : c.Holds L) (hk : k < c.lists) (he : e ∈ L k) :
    ∃ prev next, Linked c L k e prev next := by
  obtain ⟨front, back, split⟩ := List.append_of_mem he
  have ring := h.ring k hk
  have nodup := h.nodup_ring hk
  rw [split] at ring nodup
  obtain ⟨toElement, fromElement⟩ := Path.append_iff.mp ring
  obtain ⟨prev, hp⟩ := toElement.exists_prev_end
  obtain ⟨next, hn⟩ := fromElement.next_of_mem List.mem_cons_self
  have before := toElement.prev_end_mem hp
  have behind := fromElement.next_start_mem hn
  exact ⟨prev, next, hp, hn, by grind, by grind, by grind, by grind⟩

section Cut

variable {prev next : Nat} (h : c.Holds L) (hk : k < c.lists) (link : Linked c L k e prev next)

include h hk link

theorem forward_cut (x : Nat) : (c.cut e next prev).forward[x]? =
    if x = e then some e else if x = prev then some next else c.forward[x]? :=
  getElem?_cut_forward (lt_of_getElem? link.next_eq)
    (h.size_forward ▸ h.lt_size_of_mem hk link.prev_mem)

theorem backward_cut (x : Nat) : (c.cut e next prev).backward[x]? =
    if x = e then some e else if x = next then some prev else c.backward[x]? :=
  getElem?_cut_backward (lt_of_getElem? link.prev_eq)
    (h.size_backward ▸ h.lt_size_of_mem hk link.next_mem)

theorem loose_cut {x : Nat} (hx : x < c.elements) (absent : ∀ l < c.lists, x ∉ (L l).erase e) :
    (c.cut e next prev).forward[x]? = some x ∧ (c.cut e next prev).backward[x]? = some x := by
  rw [h.forward_cut hk link, h.backward_cut hk link]
  by_cases eq : x = e
  · simp [eq]
  · have free : ∀ l < c.lists, x ∉ L l := fun l hl member =>
      absent l hl ((List.mem_erase_of_ne eq).mpr member)
    have outside : x ∉ (c.elements + k) :: L k := by
      intro member
      rcases List.mem_cons.mp member with rfl | member
      · omega
      · exact free k hk member
    have notPrev : x ≠ prev := fun same => outside (same ▸ link.prev_mem)
    have notNext : x ≠ next := fun same => outside (same ▸ link.next_mem)
    rw [if_neg eq, if_neg eq, if_neg notPrev, if_neg notNext]
    exact h.loose x hx free

variable (he : e ∈ L k)

include he

theorem ring_cut_own : Path (c.cut e next prev).forward (c.cut e next prev).backward
    (c.elements + k) ((L k).erase e) (c.elements + k) := by
  have forward := h.forward_cut hk link
  have backward := h.backward_cut hk link
  obtain ⟨front, back, split⟩ := List.append_of_mem he
  have ring := h.ring k hk
  have nodup := h.nodup_ring hk
  rw [split] at ring nodup
  have same : (L k).erase e = front ++ back := by
    rw [split, List.erase_append_right _ (by grind)]
    simp
  rw [same]
  refine ring.unlink nodup (List.nodup_cons.mp nodup).1 link.prev_eq link.next_eq ?_ ?_ ?_ ?_
  · intro x hx ne
    rw [forward, if_neg (by grind), if_neg ne]
  · rw [forward, if_neg link.prev_ne, if_pos rfl]
  · intro x hx ne
    rw [backward, if_neg (by grind), if_neg ne]
  · rw [backward, if_neg link.next_ne, if_pos rfl]

theorem ring_cut_other {l : Nat} (hl : l < c.lists) (other : l ≠ k) :
    Path (c.cut e next prev).forward (c.cut e next prev).backward (c.elements + l) (L l)
      (c.elements + l) := by
  have own : e ∈ (c.elements + k) :: L k := List.mem_cons_of_mem _ he
  have far := fun x y => h.apart (x := x) (y := y) hl hk other
  refine (h.ring l hl).congr (fun x hx => ?_) fun x hx => ?_
  · rw [h.forward_cut hk link, if_neg (far x e hx own), if_neg (far x prev hx link.prev_mem)]
  · have hx : x ∈ (c.elements + l) :: L l := by simpa [or_comm] using hx
    rw [h.backward_cut hk link, if_neg (far x e hx own), if_neg (far x next hx link.next_mem)]

end Cut

theorem remove_mem (h : c.Holds L) (hk : k < c.lists) (he : e ∈ L k) :
    ∃ d, remove e c = .ok () d ∧ d.Holds (fun k => (L k).erase e) ∧ SameShape c d := by
  obtain ⟨prev, next, link⟩ := h.exists_linked hk he
  have inForward : prev < c.forward.size := h.size_forward ▸ h.lt_size_of_mem hk link.prev_mem
  have inBackward : next < c.backward.size := h.size_backward ▸ h.lt_size_of_mem hk link.next_mem
  refine ⟨_, remove_run link.next_eq link.prev_eq inBackward inForward, ?_, rfl, rfl⟩
  exact {
    size_forward := by simpa [cut] using h.size_forward
    size_backward := by simpa [cut] using h.size_backward
    ring := fun l hl => by
      by_cases own : l = k
      · exact own ▸ h.ring_cut_own hk link he
      · rw [List.erase_of_not_mem fun member => own (h.unique l hl k hk e member he)]
        exact h.ring_cut_other hk link he hl own
    nodup := fun l hl => (h.nodup l hl).erase e
    bounded := fun l hl x hx => h.bounded l hl x (List.mem_of_mem_erase hx)
    unique := fun l hl l' hl' x hx hy =>
      h.unique l hl l' hl' x (List.mem_of_mem_erase hx) (List.mem_of_mem_erase hy)
    loose := fun x hx absent => h.loose_cut hk link hx absent
    least_pos := h.least_pos
    least_empty := fun l hl pos small => by simp [h.least_empty l hl pos small] }

theorem remove (h : c.Holds L) (he : e < c.elements) :
    ∃ d, CountLists.remove e c = .ok () d ∧ d.Holds (fun k => (L k).erase e) ∧ SameShape c d := by
  by_cases member : ∃ k < c.lists, e ∈ L k
  · obtain ⟨k, hk, hek⟩ := member
    exact h.remove_mem hk hek
  · exact h.remove_loose he fun k hk hek => member ⟨k, hk, hek⟩

theorem with_least (h : c.Holds L) {n : Nat} (pos : 0 < n)
    (empty : ∀ k < c.lists, 0 < k → k < n → L k = []) : { c with least := n }.Holds L :=
  ⟨h.size_forward, h.size_backward, h.ring, h.nodup, h.bounded, h.unique, h.loose, pos, empty⟩

end Holds

/-- The four writes of an addition. -/
def join (c : CountLists) (e list last : Nat) : CountLists :=
  { c with
    forward := (c.forward.setIfInBounds last e).setIfInBounds e (c.elements + list)
    backward := (c.backward.setIfInBounds e last).setIfInBounds (c.elements + list) e }

theorem getElem?_join_forward {last x : Nat} (he : e < c.forward.size)
    (hl : last < c.forward.size) : (c.join e list last).forward[x]? =
      if x = e then some (c.elements + list) else if x = last then some e else c.forward[x]? := by
  simp only [join, Array.getElem?_setIfInBounds]
  grind

theorem getElem?_join_backward {last x : Nat} (he : e < c.backward.size)
    (hh : c.elements + list < c.backward.size) : (c.join e list last).backward[x]? =
      if x = c.elements + list then some e else if x = e then some last else c.backward[x]? := by
  simp only [join, Array.getElem?_setIfInBounds]
  grind

def appended (L : Nat → List Nat) (e list : Nat) : Nat → List Nat := fun k =>
  if k = list then L k ++ [e] else L k

theorem mem_appended {k x : Nat} : x ∈ appended L e list k ↔ x ∈ L k ∨ k = list ∧ x = e := by
  unfold appended
  split <;> simp [*]

theorem add_run {last : Nat} (hl : list < c.lists) (hf : c.forward[e]? = some e)
    (hb : c.backward[e]? = some e) (hlast : c.backward[c.elements + list]? = some last)
    (inside : last < c.forward.size) : add e list c = .ok ()
      (if 0 < list && list < c.least then { c.join e list last with least := list }
        else c.join e list last) := by
  have ownForward := lt_of_getElem? hf
  have ownBackward := lt_of_getElem? hb
  have head := lt_of_getElem? hlast
  unfold add
  simp only [get_bind, hl, decide_true, require_true_bind, entry_eq_ok_iff.mpr hf, lift_ok_bind,
    beq_self_eq_true, entry_eq_ok_iff.mpr hb, entry_eq_ok_iff.mpr hlast]
  rw [bind_of_ok (setForward_eq _ inside), bind_of_ok (setForward_eq _ (by simpa using ownForward)),
    bind_of_ok (setBackward_eq _ (by exact ownBackward)),
    bind_of_ok (setBackward_eq _ (by simpa using head))]
  rfl

namespace Holds

theorem off_rings (he : e < c.elements) (free : ∀ k < c.lists, e ∉ L k) (hk : k < c.lists) :
    e ∉ (c.elements + k) :: L k := fun member => by
  rcases List.mem_cons.mp member with rfl | member
  · omega
  · exact free k hk member

section Join

variable {last : Nat} (h : c.Holds L) (he : e < c.elements) (free : ∀ k < c.lists, e ∉ L k)
  (hlast : c.backward[c.elements + list]? = some last)

include h he free hlast

theorem backward_join (x : Nat) : (c.join e list last).backward[x]? =
    if x = c.elements + list then some e else if x = e then some last else c.backward[x]? :=
  getElem?_join_backward (lt_of_getElem? (h.loose e he free).2) (lt_of_getElem? hlast)

variable (hl : list < c.lists)

include hl

theorem forward_join (x : Nat) : (c.join e list last).forward[x]? =
    if x = e then some (c.elements + list) else if x = last then some e else c.forward[x]? :=
  getElem?_join_forward (lt_of_getElem? (h.loose e he free).1)
    (h.size_forward ▸ h.lt_size_of_mem hl ((h.ring list hl).prev_end_mem hlast))

theorem ring_join_own : Path (c.join e list last).forward (c.join e list last).backward
    (c.elements + list) (L list ++ [e]) (c.elements + list) := by
  have forward := h.forward_join he free hlast hl
  have backward := h.backward_join he free hlast
  have ring := h.ring list hl
  have outside := off_rings he free hl
  have lastNe : last ≠ e := fun same => outside (same ▸ ring.prev_end_mem hlast)
  refine ring.insert_end (h.nodup_ring hl) hlast ?_ ?_ ?_ ?_ ?_ ?_
  · intro x hx ne
    rw [forward, if_neg (by grind), if_neg ne]
  · rw [forward, if_neg lastNe, if_pos rfl]
  · rw [forward, if_pos rfl]
  · intro x hx
    have := h.bounded list hl x hx
    rw [backward, if_neg (by omega), if_neg (by grind)]
  · rw [backward, if_neg (by omega), if_pos rfl]
  · rw [backward, if_pos rfl]

theorem ring_join_other (hk : k < c.lists) (other : k ≠ list) :
    Path (c.join e list last).forward (c.join e list last).backward (c.elements + k) (L k)
      (c.elements + k) := by
  have outside := off_rings he free hk
  have lastMem := (h.ring list hl).prev_end_mem hlast
  refine (h.ring k hk).congr (fun x hx => ?_) fun x hx => ?_
  · have ne : x ≠ e := fun same => outside (same ▸ hx)
    rw [h.forward_join he free hlast hl, if_neg ne, if_neg (h.apart hk hl other hx lastMem)]
  · have hx : x ∈ (c.elements + k) :: L k := by simpa [or_comm] using hx
    have ne : x ≠ e := fun same => outside (same ▸ hx)
    rw [h.backward_join he free hlast, if_neg (h.apart hk hl other hx List.mem_cons_self),
      if_neg ne]

theorem unique_join {l x : Nat} (hk : k < c.lists) (hl' : l < c.lists)
    (hx : x ∈ appended L e list k) (hy : x ∈ appended L e list l) : k = l := by
  rcases mem_appended.mp hx with inK | ⟨rfl, rfl⟩
  · rcases mem_appended.mp hy with inL | ⟨rfl, rfl⟩
    · exact h.unique k hk l hl' x inK inL
    · exact (free k hk inK).elim
  · rcases mem_appended.mp hy with inL | ⟨same, _⟩
    · exact (free l hl' inL).elim
    · exact same.symm

theorem loose_join {x : Nat} (hx : x < c.elements)
    (absent : ∀ k < c.lists, x ∉ appended L e list k) :
    (c.join e list last).forward[x]? = some x ∧ (c.join e list last).backward[x]? = some x := by
  have ne : x ≠ e := fun same => absent list hl (mem_appended.mpr (.inr ⟨rfl, same⟩))
  have gone : ∀ k < c.lists, x ∉ L k := fun k hk hx => absent k hk (mem_appended.mpr (.inl hx))
  have notLast : x ≠ last := by
    rintro rfl
    rcases List.mem_cons.mp ((h.ring list hl).prev_end_mem hlast) with same | lastMem
    · omega
    · exact gone list hl lastMem
  rw [h.forward_join he free hlast hl, h.backward_join he free hlast, if_neg ne, if_neg notLast,
    if_neg (by omega), if_neg ne]
  exact h.loose x hx gone

theorem join (empty : ∀ k < c.lists, 0 < k → k < c.least → appended L e list k = []) :
    (c.join e list last).Holds (appended L e list) where
  size_forward := by simpa [CountLists.join] using h.size_forward
  size_backward := by simpa [CountLists.join] using h.size_backward
  ring k hk := by
    unfold appended
    split
    · rename_i own
      subst own
      exact h.ring_join_own he free hlast hl
    · exact h.ring_join_other he free hlast hl hk ‹_›
  nodup k hk := by
    unfold appended
    split
    · exact List.nodup_append.mpr ⟨h.nodup k hk, by simp, by
        rintro x hx y hy rfl
        exact free k hk (List.mem_singleton.mp hy ▸ hx)⟩
    · exact h.nodup k hk
  bounded k hk x hx := by
    rcases mem_appended.mp hx with hx | ⟨_, rfl⟩
    · exact h.bounded k hk x hx
    · exact he
  unique _ hk _ hl' _ hx hy := h.unique_join he free hlast hl hk hl' hx hy
  loose _ hx absent := h.loose_join he free hlast hl hx absent
  least_pos := h.least_pos
  least_empty := empty

end Join

theorem add (h : c.Holds L) (he : e < c.elements) (hl : list < c.lists)
    (free : ∀ k < c.lists, e ∉ L k) :
    ∃ d, CountLists.add e list c = .ok () d ∧ d.Holds (appended L e list) ∧ SameShape c d := by
  obtain ⟨hf, hb⟩ := h.loose e he free
  have ring := h.ring list hl
  obtain ⟨last, hlast⟩ := ring.exists_prev_end
  have inside : last < c.forward.size :=
    h.size_forward ▸ h.lt_size_of_mem hl (ring.prev_end_mem hlast)
  refine ⟨_, add_run hl hf hb hlast inside, ?_⟩
  by_cases lower : 0 < list ∧ list < c.least
  · -- `least` comes down to the list, below which nothing has changed
    simp only [lower, decide_true, Bool.and_self, if_true]
    have base : { c with least := list }.Holds L :=
      h.with_least lower.1 fun k hk pos small => h.least_empty k hk pos (by omega)
    refine ⟨base.join (c := { c with least := list }) he free hlast hl ?_, rfl, rfl⟩
    intro k hk pos small
    have ne : k ≠ list := Nat.ne_of_lt small
    simpa [appended, ne] using base.least_empty k hk pos small
  · rw [if_neg (by simpa using lower)]
    refine ⟨h.join he free hlast hl ?_, rfl, rfl⟩
    intro k hk pos small
    have ne : k ≠ list := by
      rintro rfl
      exact lower ⟨pos, small⟩
    simpa [appended, ne] using h.least_empty k hk pos small

theorem moveTo (h : c.Holds L) (he : e < c.elements) (hl : list < c.lists) :
    ∃ d, CountLists.moveTo e list c = .ok () d ∧
      d.Holds (appended (fun k => (L k).erase e) e list) ∧ SameShape c d := by
  obtain ⟨d, removed, hd, elements, lists⟩ := h.remove he
  have free : ∀ k < d.lists, e ∉ (L k).erase e := fun k hk =>
    (h.nodup k (lists ▸ hk)).not_mem_erase
  obtain ⟨r, added, hr, elements', lists'⟩ := hd.add (elements ▸ he) (lists ▸ hl) free
  refine ⟨r, ?_, hr, elements'.trans elements, lists'.trans lists⟩
  unfold CountLists.moveTo
  rw [bind_of_ok removed, added]

/-! ### The least list with an element -/

theorem advance (h : c.Holds L) (remaining : Nat) (room : c.least + remaining ≤ c.lists) :
    ∃ d, CountLists.advance remaining c = .ok () d ∧ d.Holds L ∧ SameShape c d ∧
      d.least ≤ c.least + remaining ∧
      (d.least < c.least + remaining → L d.least ≠ []) := by
  induction remaining generalizing c with
  | zero => exact ⟨c, rfl, h, ⟨rfl, rfl⟩, Nat.le_refl _, fun small => absurd small (by omega)⟩
  | succ remaining ih =>
    have inside : c.least < c.lists := by omega
    unfold CountLists.advance
    simp only [get_bind, h.first_eq inside, lift_ok_bind]
    cases content : L c.least with
    | nil =>
      have next : { c with least := c.least + 1 }.Holds L :=
        h.with_least (Nat.succ_pos _) fun k hk pos small => by
          rcases Nat.lt_succ_iff_lt_or_eq.mp small with small | rfl
          · exact h.least_empty k hk pos small
          · exact content
      obtain ⟨d, run, hd, shape, bound, found⟩ := ih next (by simpa using (by omega :
        c.least + 1 + remaining ≤ c.lists))
      refine ⟨d, ?_, hd, shape, by simp at bound; omega, fun small => found (by simp; omega)⟩
      simpa using run
    | cons x rest =>
      exact ⟨c, by simp, h, ⟨rfl, rfl⟩, by omega, fun _ => by simp [content]⟩

theorem leastNonempty (h : c.Holds L) :
    ∃ d, CountLists.leastNonempty c = .ok (firstIn c.lists L) d ∧ d.Holds L ∧ SameShape c d := by
  obtain ⟨d, run, hd, ⟨elements, lists⟩, bound, found⟩ :
      ∃ d, CountLists.advance (c.lists - c.least) c = .ok () d ∧ d.Holds L ∧ SameShape c d ∧
        (c.least ≤ c.lists → d.least ≤ c.lists) ∧ (d.least < c.lists → L d.least ≠ []) := by
    by_cases le : c.least ≤ c.lists
    · obtain ⟨d, run, hd, shape, bound, found⟩ := h.advance (c.lists - c.least) (by omega)
      exact ⟨d, run, hd, shape, fun _ => by omega, fun small => found (by omega)⟩
    · rw [show c.lists - c.least = 0 by omega]
      exact ⟨c, rfl, h, ⟨rfl, rfl⟩, fun h => absurd h le, fun h => absurd h (by omega)⟩
  have answer : firstIn c.lists L = if d.least < d.lists then some d.least else none := by
    split
    · refine List.find?_range_eq_some.mpr ⟨?_, List.mem_range.mpr (by omega), fun k small => ?_⟩
      · simpa [hd.least_pos] using found (by omega)
      · by_cases pos : 0 < k
        · simp [hd.least_empty k (by omega) pos small]
        · simp [pos]
    · refine List.find?_range_eq_none.mpr fun k hk => ?_
      by_cases pos : 0 < k
      · simp [hd.least_empty k (by omega) pos (by omega)]
      · simp [pos]
  refine ⟨d, ?_, hd, elements, lists⟩
  rw [answer]
  unfold CountLists.leastNonempty
  simp only [get_bind]
  rw [bind_of_ok run]
  rfl

end Holds

end SimplexBasis.CountLists
