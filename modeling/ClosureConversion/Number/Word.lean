/-!
32-bit words, as the natural numbers below `Word.size`.

Offsets, lines, columns and the counters of a session are words, and what is computed of them wraps.
-/

namespace ClosureConversion.Word

/-- How many words there are, 2 to the power of 32. -/
def size : Nat := 4294967296

/-- The word of a number. -/
def wrap (n : Nat) : Nat := n % size

/-- The difference of two words. -/
def sub (a b : Nat) : Nat := wrap (a + size - b)

theorem wrap_of_lt {n : Nat} (h : n < size) : wrap n = n := Nat.mod_eq_of_lt h

theorem wrap_size : wrap size = 0 := Nat.mod_self size

/-- The one increment of a word that wraps. -/
theorem wrap_of_last {n m : Nat} (hn : n < size) (he : m = n + 1) (hm : ¬ m < size) : wrap m = 0 := by
  obtain rfl : m = size := by omega
  exact wrap_size

theorem wrap_wrap (n : Nat) : wrap (wrap n) = wrap n := Nat.mod_mod n size

/-- An increment of the word of a number gives the word of the next number. -/
theorem wrap_wrap_succ (n : Nat) : wrap (wrap n + 1) = wrap (n + 1) := Nat.mod_add_mod n size 1

theorem sub_of_le {a b : Nat} (h : b ≤ a) (ha : a < size) : sub a b = a - b := by
  have e : a + size - b = a - b + size := by omega
  rw [sub, e, wrap, Nat.add_mod_right, Nat.mod_eq_of_lt (by omega)]

end ClosureConversion.Word
