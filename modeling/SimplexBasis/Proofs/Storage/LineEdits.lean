import Mathlib.Algebra.Order.BigOperators.Group.List
import Mathlib.Algebra.Order.Monoid.Unbundled.Basic
import Mathlib.Algebra.Order.Ring.Nat
import SimplexBasis.Options
import SimplexBasis.Proofs.Storage.LineReplacement

/-!
# Edits of line files

Histories of line files. However often lines are replaced, cleared, shortened, extended and packed,
the file stores what the same edits make of a list of lists, and an edit is refused only when the
lines leave no room for it.
-/

namespace SimplexBasis

variable {α : Type} [Scalar α]

/-- Spare entries for a line of `length` entries, where no sum exceeds the words. -/
def Options.fullSpare (o : Options α) (length : Nat) : Nat :=
  Scalar.truncNat (o.stretch * Scalar.ofNat length) + o.pad

theorem Options.spare_le (o : Options α) (length : Nat) : o.spare length ≤ o.fullSpare length :=
  Nat.mod_le _ _

theorem Options.spare_eq {o : Options α} {length : Nat} (word : o.fullSpare length < UInt64.size) :
    o.spare length = o.fullSpare length :=
  Word.add_of_lt word

namespace LineFile

variable {ε : Type} {f g : LineFile ε} {o : Options α} {n capacity k extra used : Nat}
  {back : List Nat} {lines : Nat → List ε}

theorem loosely_mono {spare spare' : Nat → Nat} (le : ∀ length, spare length ≤ spare' length)
    (lines : Nat → List ε) (order : List Nat) :
    loosely spare lines order ≤ loosely spare' lines order :=
  List.sum_le_sum fun _ _ => Nat.add_le_add_left (le _) _

theorem Packs.spare (h : f.Packs o.fullSpare used extra back) : f.Packs o.spare used extra back := by
  induction back generalizing used extra with
  | nil => exact h
  | cons k back ih =>
    have word := h.2.lt_size
    exact ⟨h.1, by rw [Options.spare_eq (by omega)]; exact ih h.2⟩

theorem CompressesWithin.spare (h : f.CompressesWithin o.fullSpare) : f.CompressesWithin o.spare :=
  h.imp fun _ ⟨arranged, packs⟩ => ⟨arranged, packs.spare⟩

theorem ReservesWithin.spare (h : f.ReservesWithin o.fullSpare k extra) :
    f.ReservesWithin o.spare k extra := by
  refine h.imp_right fun ⟨word, enough⟩ => ?_
  rw [Options.spare_eq (by omega)]
  exact ⟨word, enough.imp_right CompressesWithin.spare⟩

/-- An edit. The ones that may move lines read the stretch and the padding of options. -/
inductive Edit (α ε : Type) where
  | setLine (o : Options α) (line : Nat) (entries : List ε)
  | clearLine (line : Nat)
  /-- Remove an entry of a line and put the last one in its place. -/
  | swapRemove (line offset : Nat)
  | reserve (o : Options α) (line extra : Nat)
  | compress (o : Options α)

namespace Edit

def run : Edit α ε → Action (LineFile ε) Unit
  | setLine o line entries => LineFile.setLine line entries o.spare
  | clearLine line => LineFile.clearLine line
  | swapRemove line offset => LineFile.swapRemove line offset
  | reserve o line extra => LineFile.reserve line extra o.spare
  | compress o => LineFile.compress o.spare

def apply (lines : Nat → List ε) : Edit α ε → Nat → List ε
  | setLine _ line entries => Function.update lines line entries
  | clearLine line => Function.update lines line []
  | swapRemove line offset => Function.update lines line (swapRemoved (lines line) offset)
  | reserve _ _ _ => lines
  | compress _ => lines

/-- The edit is about a line, and an entry, that the file has, and no sum that it forms exceeds the
words. -/
def Allowed (f : LineFile ε) : Edit α ε → Prop
  | setLine o line entries => line < f.lineCount ∧ ((f.content line).length < entries.length →
      f.ReservesWithin o.fullSpare line (entries.length - (f.content line).length))
  | clearLine line => line < f.lineCount
  | swapRemove line offset => line < f.lineCount ∧ offset < (f.content line).length
  | reserve o line extra => line < f.lineCount ∧ f.ReservesWithin o.fullSpare line extra
  | compress o => f.CompressesWithin o.fullSpare

/-- The lines with their spare entries leave no room for another copy of line `k` that is `extra`
entries longer. -/
def Crowded (o : Options α) (n capacity : Nat) (lines : Nat → List ε) (k extra : Nat) : Prop :=
  capacity < ((List.range n).map fun l => (lines l).length +
    (Scalar.truncNat (o.stretch * Scalar.ofNat (lines l).length) + o.pad)).sum +
      (lines k).length + extra

def Refusal (n capacity : Nat) (lines : Nat → List ε) : Edit α ε → Prop
  | setLine o line entries => (lines line).length < entries.length ∧
      Crowded o n capacity lines line (entries.length - (lines line).length)
  | reserve o line extra => Crowded o n capacity lines line extra
  | clearLine _ | swapRemove _ _ | compress _ => False

end Edit

theorem crowded_of_loosely (full : capacity < loosely o.spare lines (List.range n) +
    ((lines k).length + extra)) : Edit.Crowded o n capacity lines k extra := by
  have bound := loosely_mono o.spare_le lines (List.range n)
  change _ < loosely o.fullSpare lines (List.range n) + _ + _
  omega

theorem Stores.edit (h : f.Stores n capacity lines) (small : capacity < UInt64.size)
    (edit : Edit α ε) (allowed : edit.Allowed f) :
    Ends (fun _ g => g.Stores n capacity (edit.apply lines))
      (fun e g => e = .outOfMemory ∧ g.Stores n capacity lines ∧ edit.Refusal n capacity lines)
      (edit.run f) := by
  have count := h.lineCount
  cases edit with
  | setLine o k entries =>
    obtain ⟨hk, within⟩ := allowed
    rw [count] at hk
    rw [h.content k hk] at within
    refine (h.replace hk small fun longer => (within longer).spare).mono (fun _ _ => id) ?_
    rintro e g ⟨rfl, stored, longer, full⟩
    exact ⟨rfl, stored, longer, crowded_of_loosely (by omega)⟩
  | clearLine k =>
    obtain ⟨g, run, stored⟩ := h.clearLine (k := k) (Nat.lt_of_lt_of_eq allowed count)
    exact .of_ok run stored
  | swapRemove k offset =>
    obtain ⟨hk, inside⟩ := allowed
    rw [count] at hk
    obtain ⟨g, run, stored⟩ := h.swapRemove hk (h.content k hk ▸ inside)
    exact .of_ok run stored
  | reserve o k extra =>
    obtain ⟨hk, within⟩ := allowed
    refine (h.reserve (count ▸ hk) small within.spare).mono (fun _ g => And.left) ?_
    rintro e g ⟨rfl, stored, full⟩
    exact ⟨rfl, stored, crowded_of_loosely full⟩
  | compress o =>
    obtain ⟨g, run, stored, _⟩ := h.compress (CompressesWithin.spare allowed)
    exact .of_ok run stored

/-- The files that edits of an empty file lead to, with what the same edits make of a list of empty
lists. A refused edit changes no list. -/
inductive Edited (α : Type) [Scalar α] (n capacity : Nat) :
    LineFile ε → (Nat → List ε) → Prop
  | blank (filler : ε) : Edited α n capacity (blank n capacity filler) fun _ => []
  | edit {f g : LineFile ε} {lines : Nat → List ε} (edit : Edit α ε)
      (edited : Edited α n capacity f lines) (allowed : edit.Allowed f)
      (run : edit.run f = .ok () g) : Edited α n capacity g (edit.apply lines)
  | refused {f g : LineFile ε} {lines : Nat → List ε} {stop : Stop} (edit : Edit α ε)
      (edited : Edited α n capacity f lines) (allowed : edit.Allowed f)
      (run : edit.run f = .error stop g) : Edited α n capacity g lines

theorem Edited.stores (small : capacity < UInt64.size) (h : Edited α n capacity f lines) :
    f.Stores n capacity lines := by
  induction h with
  | blank filler => exact stores_blank filler
  | edit edit _ allowed run stored => exact (stored.edit small edit allowed).result run
  | @refused _ _ _ stop edit _ allowed run stored =>
    have ends := stored.edit small edit allowed
    cases stop with
    | status e => exact (ends.failure run).2.1
    | breach b =>
      rw [run] at ends
      exact ends.elim

/-- A line file behaves as so many independent lists. The lines stand apart from each other in the
memory order and inside the file, they read as the lists, no contract is broken by a further edit,
and a refused one leaves every line alone and finds the file too full. -/
theorem edited_refines (small : capacity < UInt64.size) (h : Edited α n capacity f lines) :
    (∃ order, order.Perm (List.range n) ∧ Path f.next f.prev n order n ∧
      Tiles f.first f.last 0 order (f.first n) ∧ f.first n ≤ capacity) ∧
    (∀ k < n, ∀ l < n, k ≠ l → f.last k ≤ f.first l ∨ f.last l ≤ f.first k) ∧
    (∀ k < n, f.line k = .ok (lines k) ∧ f.length k = .ok (lines k).length) ∧
    ∀ edit : Edit α ε, edit.Allowed f → Ends (fun _ g => Edited α n capacity g (edit.apply lines))
      (fun e g => e = .outOfMemory ∧ Edited α n capacity g lines ∧ edit.Refusal n capacity lines)
      (edit.run f) := by
  have stored := h.stores small
  obtain ⟨order, arranged⟩ := stored.arranged
  refine ⟨⟨order, ?_, ?_, ?_, ?_⟩, fun k hk l hl ne => ?_, fun k hk => ?_, fun edit allowed => ?_⟩
  · exact stored.lineCount ▸ arranged.perm
  · exact stored.lineCount ▸ arranged.ring
  · exact stored.lineCount ▸ arranged.tiles
  · exact stored.lineCount ▸ stored.size_data ▸ arranged.unused
  · rw [← stored.lineCount, ← arranged.mem_order] at hk hl
    exact arranged.tiles.apart hk hl ne
  · exact ⟨stored.line_eq hk, stored.length_eq hk⟩
  · have ends := stored.edit small edit allowed
    revert ends
    rcases run : edit.run f with ⟨x, g⟩ | ⟨e | b, g⟩
    · exact fun _ => .edit edit h allowed run
    · exact fun ⟨full, _, crowded⟩ => ⟨full, .refused edit h allowed run, crowded⟩
    · exact id

/-- Two lines of two entries in a file of five. -/
def paired : LineFile Nat where
  lineCount := 2
  start := #[0, 2, 4]
  stop := #[2, 4, 5]
  next := #[1, 2, 0]
  prev := #[2, 0, 1]
  data := #[1, 2, 3, 4, 0]
  compressions := 0

/-- Nothing is left behind a line. -/
def tightly : Options Rat := { Options.standard with pad := 0, stretch := 0 }

theorem edited_refines_paired : ∃ lines f g,
    Edited Rat 2 5 paired lines ∧ lines 0 = [1, 2] ∧ lines 1 = [3, 4] ∧
    (Edit.setLine tightly 1 [3, 4, 6]).run paired = .ok () f ∧
    Edited Rat 2 5 f (Function.update lines 1 [3, 4, 6]) ∧
    (Edit.setLine tightly 0 [1, 2, 5]).run paired = .error (.status .outOfMemory) g ∧
    g.compressions = 1 ∧ Edited Rat 2 5 g lines := by
  have roomy : Roomy tightly.fullSpare 3 5 := by
    unfold Roomy
    decide +kernel
  have allowed : ∀ {f : LineFile Nat} {lines : Nat → List Nat} {k : Nat} {entries : List Nat},
      f.Stores 2 5 lines → (∀ l < 2, (lines l).length ≤ 3) → k < 2 → entries.length ≤ 3 →
      (Edit.setLine tightly k entries).Allowed f := fun stored short hk fits =>
    ⟨stored.lineCount.symm ▸ hk, fun _ => stored.reservesWithin hk roomy short (by
      rw [stored.content _ hk]; have := short _ hk; omega)⟩
  have small : 5 < UInt64.size := by decide
  -- Both edits of the history are run at once; `run₁` and `run₂` are its halves.
  obtain ⟨_, t, history, same⟩ := @exists_ok_of_check _ _
    ((Edit.setLine tightly 0 [1, 2]).run >>= fun _ => (Edit.setLine tightly 1 [3, 4]).run)
    (blank 2 5 0) (fun _ t => decide (t = paired)) (by decide +kernel)
  obtain rfl := of_decide_eq_true same
  obtain ⟨_, f₁, run₁, run₂⟩ := ok_of_bind history
  have unused : Edited Rat 2 5 (blank 2 5 0) fun _ => [] := .blank 0
  have first := unused.edit _
    (allowed (stores_blank 0) (by decide) (by decide) (by decide)) run₁
  have second := first.edit _
    (allowed (first.stores small) (by decide) (by decide) (by decide)) run₂
  have allowed' := fun k entries => @allowed _ _ k entries (second.stores small) (by decide)
  obtain ⟨_, _, _, further⟩ := edited_refines small second
  obtain ⟨_, f, run, _⟩ := @exists_ok_of_check _ _ (Edit.setLine tightly 1 [3, 4, 6]).run paired
    (fun _ _ => true) (by decide +kernel)
  obtain ⟨g, run', once⟩ := stoppedBy_iff.mp (show stoppedBy (.status .outOfMemory)
    (fun g : LineFile Nat => g.compressions == 1)
    ((Edit.setLine tightly 0 [1, 2, 5]).run paired) = true by decide +kernel)
  rw [beq_iff_eq] at once
  refine ⟨_, f, g, second, rfl, rfl, run, ?_, run', once, ?_⟩
  · exact (further _ (allowed' 1 [3, 4, 6] (by decide) (by decide))).result run
  · exact ((further _ (allowed' 0 [1, 2, 5] (by decide) (by decide))).failure run').2.1

end LineFile

end SimplexBasis
