import Mathlib.Tactic.Linarith

/-!
# Counting over lists of intervals

A weight assigns a number to every interval `[a, b)` so that cutting an interval cuts its weight:
the number of positions, or whether a given position lies inside.  The mass of a list of counted
intervals adds count times weight.  Cutting an interval and keeping its count on both pieces does
not change the mass, for any weight; and the weight of a single position reads the count there.
-/

structure IntervalWeight where
  weight : ℕ → ℕ → ℕ
  weight_add : ∀ {a c b : ℕ}, a ≤ c → c ≤ b → weight a c + weight c b = weight a b

namespace IntervalWeight

instance : CoeFun IntervalWeight fun _ => ℕ → ℕ → ℕ := ⟨weight⟩

theorem weight_self (w : IntervalWeight) (a : ℕ) : w a a = 0 := by
  have := w.weight_add (le_refl a) (le_refl a)
  omega

/-- The number of positions. -/
def length : IntervalWeight where
  weight a b := b - a
  weight_add := by omega

/-- Whether the position `x` lies inside. -/
def point (x : ℕ) : IntervalWeight where
  weight a b := if a ≤ x ∧ x < b then 1 else 0
  weight_add := by
    intro a c b _ _
    split_ifs <;> omega

theorem length_apply (a b : ℕ) : length a b = b - a := rfl

theorem point_apply (x a b : ℕ) : point x a b = if a ≤ x ∧ x < b then 1 else 0 := rfl

end IntervalWeight

section Mass

variable {α : Type*} (w : IntervalWeight) (lo hi cnt : α → ℕ)

def intervalMass (l : List α) : ℕ := (l.map fun x => cnt x * w (lo x) (hi x)).sum

@[simp] theorem intervalMass_nil : intervalMass w lo hi cnt [] = 0 := rfl

@[simp] theorem intervalMass_cons (x : α) (l : List α) :
    intervalMass w lo hi cnt (x :: l) = cnt x * w (lo x) (hi x) + intervalMass w lo hi cnt l := by
  simp [intervalMass]

@[simp] theorem intervalMass_append (l₁ l₂ : List α) :
    intervalMass w lo hi cnt (l₁ ++ l₂) =
      intervalMass w lo hi cnt l₁ + intervalMass w lo hi cnt l₂ := by
  simp [intervalMass]

variable {lo hi}

/-- No interval contains `x`. -/
theorem intervalMass_point_eq_zero {x : ℕ} {l : List α} (h : ∀ y ∈ l, ¬(lo y ≤ x ∧ x < hi y)) :
    intervalMass (.point x) lo hi cnt l = 0 := by
  induction l with
  | nil => rfl
  | cons y l ih =>
      rw [intervalMass_cons, IntervalWeight.point_apply, if_neg (h y List.mem_cons_self),
        ih fun z hz => h z (List.mem_cons_of_mem y hz)]
      rfl

/-- In a list of disjoint intervals the mass at `x` is the count of the interval that contains
`x`. -/
theorem intervalMass_point {x : ℕ} {l : List α} (hdisj : l.Pairwise fun a b => hi a ≤ lo b) {y : α}
    (hy : y ∈ l) (hx : lo y ≤ x ∧ x < hi y) : intervalMass (.point x) lo hi cnt l = cnt y := by
  induction l with
  | nil => cases hy
  | cons z l ih =>
      obtain ⟨hz, hl⟩ := List.pairwise_cons.mp hdisj
      rw [intervalMass_cons, IntervalWeight.point_apply]
      rcases List.mem_cons.mp hy with rfl | hy
      · have hrest : ∀ u ∈ l, ¬(lo u ≤ x ∧ x < hi u) := fun u hu => by
          have := hz u hu
          omega
        rw [if_pos hx, intervalMass_point_eq_zero cnt hrest, mul_one, add_zero]
      · have hne : ¬(lo z ≤ x ∧ x < hi z) := by
          have := hz y hy
          omega
        rw [if_neg hne, ih hl hy, mul_zero, zero_add]

end Mass
