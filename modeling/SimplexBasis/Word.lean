/-!
# Words

Positions and sizes in storage are machine words. A sum, difference or product of words that is out
of range is reduced modulo the number of words; within the range it is the one of the natural
numbers.
-/

namespace SimplexBasis.Word

def last : Nat := UInt64.size - 1

def add (a b : Nat) : Nat := (a + b) % UInt64.size

def sub (a b : Nat) : Nat := if b ≤ a then a - b else a + UInt64.size - b

def mul (a b : Nat) : Nat := (a * b) % UInt64.size

theorem add_of_lt {a b : Nat} (h : a + b < UInt64.size) : add a b = a + b :=
  Nat.mod_eq_of_lt h

theorem mul_of_lt {a b : Nat} (h : a * b < UInt64.size) : mul a b = a * b :=
  Nat.mod_eq_of_lt h

theorem sub_of_le {a b : Nat} (h : b ≤ a) : sub a b = a - b := if_pos h

/-- A difference is what has to be added to the smaller word. -/
theorem add_sub {a b : Nat} (ha : a < UInt64.size) (hb : b < UInt64.size) :
    add (sub a b) b = a := by
  unfold add sub
  split
  · rw [Nat.sub_add_cancel ‹_›, Nat.mod_eq_of_lt ha]
  · rw [Nat.sub_add_cancel (by omega), Nat.add_mod_right, Nat.mod_eq_of_lt ha]

end SimplexBasis.Word
