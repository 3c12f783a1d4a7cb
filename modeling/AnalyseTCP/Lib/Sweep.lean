import Mathlib.Data.List.TakeWhile
import Mathlib.Order.Lattice

/-!
# Sweeps with a second pointer

A pointer into a list is given one bound after the other, and each time moves past the items whose
key lies below the bound, up to the first one whose key does not.  Where it stands depends on the
bounds together, whatever their order.
-/

namespace Sweep

variable {α β : Type*} [LinearOrder β] (key : α → β)

/-- The key lies below one of the bounds. -/
def below (bounds : List β) (x : α) : Bool := bounds.any fun b => decide (key x < b)

/-- The items that the pointer has passed. -/
def passed (bounds : List β) (l : List α) : List α := l.takeWhile (below key bounds)

/-- The items from the pointer on. -/
def ahead (bounds : List β) (l : List α) : List α := l.dropWhile (below key bounds)

theorem passed_append_ahead (bounds : List β) (l : List α) :
    passed key bounds l ++ ahead key bounds l = l :=
  List.takeWhile_append_dropWhile

theorem length_passed_add (bounds : List β) (l : List α) :
    (passed key bounds l).length + (ahead key bounds l).length = l.length := by
  rw [← List.length_append, passed_append_ahead]

theorem ahead_nil (l : List α) : ahead key [] l = l := by
  cases l with
  | nil => rfl
  | cons x l => rfl

/-- Passing over more in a second go is passing over it at once. -/
theorem dropWhile_dropWhile {p q : α → Bool} (h : ∀ x, p x = true → q x = true) (l : List α) :
    (l.dropWhile p).dropWhile q = l.dropWhile q := by
  induction l with
  | nil => rfl
  | cons x l ih =>
    by_cases hp : p x = true
    · rw [List.dropWhile_cons_of_pos hp, List.dropWhile_cons_of_pos (h x hp), ih]
    · rw [List.dropWhile_cons_of_neg hp]

/-- One bound more. -/
theorem ahead_concat (bounds : List β) (b : β) (l : List α) :
    ahead key (bounds ++ [b]) l = (ahead key bounds l).dropWhile fun x => decide (key x < b) := by
  have hor : ∀ x, below key (bounds ++ [b]) x = (below key bounds x || decide (key x < b)) := by
    intro x
    unfold below
    rw [List.any_append, List.any_cons, List.any_nil, Bool.or_false]
  by_cases hmax : ∃ c ∈ bounds, b ≤ c
  · -- the pointer has stopped at a key that is not below the new bound either
    obtain ⟨c, hc, hle⟩ := hmax
    have hsame : ∀ x, below key (bounds ++ [b]) x = below key bounds x := by
      intro x
      rw [hor]
      by_cases hlt : key x < b
      · have hin : below key bounds x = true :=
          List.any_eq_true.mpr ⟨c, hc, decide_eq_true (hlt.trans_le hle)⟩
        rw [hin, Bool.true_or]
      · rw [decide_eq_false hlt, Bool.or_false]
    unfold ahead
    rw [funext hsame]
    cases hdrop : l.dropWhile (below key bounds) with
    | nil => rfl
    | cons x xs =>
      have hnot : ¬below key bounds x = true := by
        have hhead := List.head?_dropWhile_not (below key bounds) l
        rw [hdrop] at hhead
        simpa using hhead
      have hge : ¬key x < b := fun hlt =>
        hnot (List.any_eq_true.mpr ⟨c, hc, decide_eq_true (hlt.trans_le hle)⟩)
      rw [List.dropWhile_cons_of_neg (by rw [decide_eq_true_eq]; exact hge)]
  · have hmax : ∀ c ∈ bounds, c < b := fun c hc => lt_of_not_ge fun hle => hmax ⟨c, hc, hle⟩
    have himp : ∀ x, below key bounds x = true → decide (key x < b) = true := by
      intro x hx
      obtain ⟨c, hc, hlt⟩ := List.any_eq_true.mp hx
      exact decide_eq_true ((of_decide_eq_true hlt).trans (hmax c hc))
    have hsame : ∀ x, below key (bounds ++ [b]) x = decide (key x < b) := by
      intro x
      rw [hor]
      by_cases hx : below key bounds x = true
      · rw [hx, himp x hx, Bool.true_or]
      · rw [eq_false_of_ne_true hx, Bool.false_or]
    unfold ahead
    rw [dropWhile_dropWhile himp, funext hsame]

theorem takeWhile_stop {p : α → Bool} {x : α} (hx : ¬p x = true) (u v : List α) :
    (u ++ x :: v).takeWhile p = u.takeWhile p := by
  induction u with
  | nil => rw [List.nil_append, List.takeWhile_cons_of_neg hx, List.takeWhile_nil]
  | cons y u ih =>
    rw [List.cons_append]
    by_cases hy : p y = true
    · rw [List.takeWhile_cons_of_pos hy, List.takeWhile_cons_of_pos hy, ih]
    · rw [List.takeWhile_cons_of_neg hy, List.takeWhile_cons_of_neg hy]

theorem dropWhile_stop {p : α → Bool} {x : α} (hx : ¬p x = true) (u v : List α) :
    (u ++ x :: v).dropWhile p = u.dropWhile p ++ x :: v := by
  induction u with
  | nil => rw [List.nil_append, List.dropWhile_cons_of_neg hx, List.dropWhile_nil, List.nil_append]
  | cons y u ih =>
    rw [List.cons_append]
    by_cases hy : p y = true
    · rw [List.dropWhile_cons_of_pos hy, List.dropWhile_cons_of_pos hy, ih]
    · rw [List.dropWhile_cons_of_neg hy, List.dropWhile_cons_of_neg hy, List.cons_append]

/-- In a list that is sorted by the keys nothing ahead of the pointer lies below a bound. -/
theorem not_below_of_mem_ahead {bounds : List β} {l : List α} {x : α}
    (hsorted : l.Pairwise fun a b => key a ≤ key b) (hx : x ∈ ahead key bounds l) :
    ¬below key bounds x = true := by
  induction l with
  | nil => cases hx
  | cons y l ih =>
    unfold ahead at hx
    by_cases hy : below key bounds y = true
    · rw [List.dropWhile_cons_of_pos hy] at hx
      exact ih hsorted.tail hx
    · rw [List.dropWhile_cons_of_neg hy] at hx
      intro hbelow
      obtain ⟨b, hb, hlt⟩ := List.any_eq_true.mp hbelow
      have hle : key y ≤ key x := by
        rcases List.mem_cons.mp hx with heq | hmem
        · rw [heq]
        · exact List.rel_of_pairwise_cons hsorted hmem
      exact hy (List.any_eq_true.mpr ⟨b, hb, decide_eq_true (hle.trans_lt (of_decide_eq_true hlt))⟩)

/-- What a condition that the skipped items do not meet counts. -/
theorem countP_dropWhile {p q : α → Bool} (h : ∀ x, q x = true → p x = false) (l : List α) :
    (l.dropWhile q).countP p = l.countP p := by
  induction l with
  | nil => rfl
  | cons x l ih =>
    by_cases hq : q x = true
    · rw [List.dropWhile_cons_of_pos hq, ih,
        List.countP_cons_of_neg (by rw [h x hq]; exact Bool.false_ne_true)]
    · rw [List.dropWhile_cons_of_neg hq]

end Sweep
