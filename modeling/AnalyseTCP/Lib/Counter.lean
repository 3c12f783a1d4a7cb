import Mathlib.Tactic.Linarith

/-!
# Fixed-width counters

A `w`-bit counter that is only ever incremented.  A program reads `val`, the low `w` bits; `total`
is ghost state, the number of increments, so that "the counter did not exceed its range" can be
said of a run without a second, unbounded copy of the program.
-/

structure Counter (w : ℕ) where
  total : ℕ
deriving DecidableEq, Repr

namespace Counter

variable {w : ℕ}

instance (n : ℕ) : OfNat (Counter w) n := ⟨⟨n⟩⟩

instance : HAdd (Counter w) ℕ (Counter w) := ⟨fun c n => ⟨c.total + n⟩⟩

/-- What the program reads. -/
def val (c : Counter w) : ℕ := c.total % 2 ^ w

/-- The counter never wrapped. -/
def Fits (c : Counter w) : Prop := c.total < 2 ^ w

instance (c : Counter w) : Decidable c.Fits := inferInstanceAs (Decidable (_ < _))

@[simp] theorem total_add (c : Counter w) (n : ℕ) : (c + n).total = c.total + n := rfl

@[simp] theorem total_zero : (0 : Counter w).total = 0 := rfl

@[simp] theorem total_one : (1 : Counter w).total = 1 := rfl

theorem val_add (c : Counter w) (n : ℕ) : (c + n).val = (c.val + n) % 2 ^ w := by
  unfold val
  rw [total_add, Nat.mod_add_mod]

theorem val_zero : (0 : Counter w).val = 0 := Nat.zero_mod _

theorem val_lt (c : Counter w) : c.val < 2 ^ w := Nat.mod_lt _ (Nat.two_pow_pos w)

theorem val_of_fits {c : Counter w} (h : c.Fits) : c.val = c.total := Nat.mod_eq_of_lt h

theorem val_le_total (c : Counter w) : c.val ≤ c.total := Nat.mod_le _ _

theorem val_eq_total_iff {c : Counter w} : c.val = c.total ↔ c.Fits :=
  Nat.mod_eq_iff_lt (Nat.two_pow_pos w).ne'

end Counter
