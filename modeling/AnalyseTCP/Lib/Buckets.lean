import Mathlib.Algebra.Order.BigOperators.Group.List
import Mathlib.Data.Nat.ModEq
import Mathlib.Tactic.Linarith

/-!
# Growing vectors of buckets

A histogram kept in a vector that is lengthened on demand: `bump` pads the vector with `z` until
the index exists and changes the entry there.  What a pass over many items leaves in the vector is
read through an observation of the whole vector to which every item adds its own amount.
-/

namespace Buckets

variable {α : Type*} (z : α)

/-- `while (v.size() < n) v.push_back(z)`. -/
def grow (v : List α) (n : ℕ) : List α := v ++ List.replicate (n - v.length) z

/-- Lengthen `v` until `i` is an index, then change the entry at `i`. -/
def bump (v : List α) (i : ℕ) (f : α → α) : List α := (grow z v (i + 1)).modify i f

theorem length_grow (v : List α) (n : ℕ) : (grow z v n).length = max v.length n := by
  rw [grow, List.length_append, List.length_replicate]
  omega

theorem length_bump (v : List α) (i : ℕ) (f : α → α) :
    (bump z v i f).length = max v.length (i + 1) := by
  rw [bump, List.length_modify, length_grow]

theorem getElem?_grow (v : List α) (n j : ℕ) (hj : j < max v.length n) :
    (grow z v n)[j]? = some (v.getD j z) := by
  rw [grow, List.getD_eq_getElem?_getD]
  rcases Nat.lt_or_ge j v.length with hlt | hge
  · rw [List.getElem?_append_left hlt, List.getElem?_eq_getElem hlt, Option.getD_some]
  · rw [List.getElem?_append_right hge, List.getElem?_eq_none hge, Option.getD_none,
      List.getElem?_replicate, if_pos (by omega)]

/-- Padding is invisible to a reader with default `z`. -/
theorem getD_grow (v : List α) (n j : ℕ) : (grow z v n).getD j z = v.getD j z := by
  rcases Nat.lt_or_ge j (max v.length n) with hlt | hge
  · rw [List.getD_eq_getElem?_getD, getElem?_grow z v n j hlt, Option.getD_some]
  · have hgrow : (grow z v n).length ≤ j := by
      rw [length_grow]
      exact hge
    rw [List.getD_eq_getElem?_getD, List.getD_eq_getElem?_getD, List.getElem?_eq_none hgrow,
      List.getElem?_eq_none (by omega)]

theorem getD_bump (v : List α) (i j : ℕ) (f : α → α) :
    (bump z v i f).getD j z = if i = j then f (v.getD j z) else v.getD j z := by
  rw [← getD_grow z v (i + 1) j, bump, List.getD_eq_getElem?_getD, List.getElem?_modify]
  split
  · next hij =>
      subst hij
      have hlt : i < max v.length (i + 1) := by omega
      rw [getD_grow, getElem?_grow z v (i + 1) i hlt]
      rfl
  · rw [List.getD_eq_getElem?_getD]
    cases (grow z v (i + 1))[j]? <;> rfl

/-- Nothing is appended in front of an index that exists. -/
theorem bump_of_lt {v : List α} {i : ℕ} (h : i < v.length) (f : α → α) :
    bump z v i f = v.modify i f := by
  rw [bump, grow, Nat.sub_eq_zero_of_le h, List.replicate_zero, List.append_nil]

/-- A loop that changes the entries below `k` one after the other. -/
theorem foldl_modify (f : ℕ → α → α) (v : List α) {k : ℕ} (hk : k ≤ v.length) :
    ((List.range k).foldl (fun v i => v.modify i (f i)) v).length = v.length ∧
      ∀ i, ((List.range k).foldl (fun v i => v.modify i (f i)) v).getD i z =
        if i < k then f i (v.getD i z) else v.getD i z := by
  induction k with
  | zero => exact ⟨rfl, fun _ => rfl⟩
  | succ k ih =>
      obtain ⟨hlength, hentries⟩ := ih (by omega)
      rw [List.range_succ, List.foldl_append, List.foldl_cons, List.foldl_nil,
        ← bump_of_lt z (by omega)]
      constructor
      · rw [length_bump, hlength]
        omega
      · intro i
        rw [getD_bump, hentries]
        by_cases hik : k = i
        · subst hik
          rw [if_pos rfl, if_neg (lt_irrefl _), if_pos (Nat.lt_succ_self _)]
        · rw [if_neg hik]
          by_cases hlt : i < k
          · rw [if_pos hlt, if_pos (by omega)]
          · rw [if_neg hlt, if_neg (by omega)]

/-- Adding up the entries through `π`, under which `f` adds `d` and padding adds nothing. -/
theorem sum_bump {π : α → ℕ} (hz : π z = 0) {f : α → α} {d : ℕ} (hf : ∀ x, π (f x) = π x + d)
    (v : List α) (i : ℕ) : ((bump z v i f).map π).sum = (v.map π).sum + d := by
  have hgrow : ((grow z v (i + 1)).map π).sum = (v.map π).sum := by
    simp [grow, hz]
  have hlt : i < (grow z v (i + 1)).length := by
    rw [length_grow]
    omega
  have hmod : ∀ (u : List α) (i : ℕ), i < u.length →
      ((u.modify i f).map π).sum = (u.map π).sum + d := by
    intro u
    induction u with
    | nil => exact fun i h => absurd h (Nat.not_lt_zero i)
    | cons x u ih =>
        intro i h
        cases i with
        | zero =>
            simp only [List.modify_zero_cons, List.map_cons, List.sum_cons, hf]
            omega
        | succ i =>
            simp only [List.modify_succ_cons, List.map_cons, List.sum_cons]
            rw [ih i (Nat.lt_of_succ_lt_succ h), add_assoc]
  rw [bump, hmod _ i hlt, hgrow]

/-- Reading the vector index by index, past its end too. -/
theorem sum_range_getD {π : α → ℕ} (hz : π z = 0) (v : List α) {n : ℕ} (hn : v.length ≤ n) :
    ((List.range n).map fun i => π (v.getD i z)).sum = (v.map π).sum := by
  induction v generalizing n with
  | nil =>
      apply List.sum_eq_zero
      intro x hx
      obtain ⟨i, -, rfl⟩ := List.mem_map.mp hx
      exact hz
  | cons x v ih =>
      obtain ⟨m, rfl⟩ := Nat.exists_eq_succ_of_ne_zero (Nat.ne_zero_of_lt hn)
      rw [List.range_succ_eq_map, List.map_cons, List.sum_cons, List.map_map, List.map_cons,
        List.sum_cons, ← ih (Nat.le_of_succ_le_succ hn)]
      rfl

section Passes

variable {β ε : Type*} {F : β → ε → β}

/-- An observation to which every item adds its amount is, after the pass, the sum of the amounts. -/
theorem foldl_adds (ρ : β → ℕ) (amount : ε → ℕ) (h : ∀ v e, ρ (F v e) = ρ v + amount e) (v : β)
    (es : List ε) : ρ (es.foldl F v) = ρ v + (es.map amount).sum := by
  induction es generalizing v with
  | nil => simp
  | cons e es ih => rw [List.foldl_cons, ih, h, List.map_cons, List.sum_cons, add_assoc]

/-- A property that an item may establish and that none destroys. -/
theorem foldl_reaches {P : β → Prop} {Q : ε → Prop} (h : ∀ v e, P (F v e) ↔ P v ∨ Q e) (v : β)
    (es : List ε) : P (es.foldl F v) ↔ P v ∨ ∃ e ∈ es, Q e := by
  induction es generalizing v with
  | nil => simp
  | cons e es ih =>
      rw [List.foldl_cons, ih, h]
      simp only [List.mem_cons, exists_eq_or_imp]
      tauto

end Passes

theorem sum_map_one {α : Type*} (l : List α) : (l.map fun _ => 1).sum = l.length := by
  rw [List.map_const', List.sum_replicate_nat, mul_one]

/-- A sum of one amount for every item that meets `p`. -/
theorem sum_ite_const {α : Type*} (l : List α) (p : α → Prop) [DecidablePred p] (k : ℕ) :
    (l.map fun x => if p x then k else 0).sum = k * (l.filter fun x => p x).length := by
  induction l with
  | nil => rfl
  | cons x l ih =>
      rw [List.map_cons, List.sum_cons, List.filter_cons, ih]
      by_cases hx : p x
      · simp [hx, Nat.mul_add, Nat.add_comm]
      · simp [hx]

/-- Sums of terms that agree up to a multiple of `m`. -/
theorem sum_map_modEq {α : Type*} {l : List α} {f g : α → ℕ} {m : ℕ}
    (h : ∀ x ∈ l, f x ≡ g x [MOD m]) : (l.map f).sum ≡ (l.map g).sum [MOD m] := by
  induction l with
  | nil => rfl
  | cons x l ih =>
      obtain ⟨hx, hl⟩ := List.forall_mem_cons.mp h
      rw [List.map_cons, List.map_cons, List.sum_cons, List.sum_cons]
      exact hx.add (ih hl)

/-- Sums of which one is below the other term by term are equal only term by term. -/
theorem sum_map_eq_iff_of_le {α : Type*} {l : List α} {f g : α → ℕ} (hle : ∀ x ∈ l, f x ≤ g x) :
    (l.map f).sum = (l.map g).sum ↔ ∀ x ∈ l, f x = g x := by
  constructor
  · intro heq x hx
    by_contra hne
    have hlt : f x < g x := lt_of_le_of_ne (hle x hx) hne
    exact absurd heq (List.sum_lt_sum f g hle ⟨x, hx, hlt⟩).ne
  · intro h
    rw [List.map_congr_left h]

/-- Leaving terms out of a sum keeps the sum only if they are zero. -/
theorem sum_ite_eq_sum_iff {α : Type} (l : List α) (p : α → Prop) [DecidablePred p] (n : α → ℕ) :
    (l.map fun x => if p x then n x else 0).sum = (l.map n).sum ↔ ∀ x ∈ l, ¬p x → n x = 0 := by
  have hle : ∀ x ∈ l, (if p x then n x else 0) ≤ n x := by
    intro x _
    split
    · exact le_refl _
    · exact Nat.zero_le _
  rw [sum_map_eq_iff_of_le hle]
  apply forall₂_congr
  intro x _
  by_cases hx : p x
  · simp [hx]
  · rw [if_neg hx]
    exact ⟨fun h _ => h.symm, fun h => (h hx).symm⟩

/-- What holds of an entry that padding appends holds of all entries as soon as it holds of what a
reader with default `z` gets at every index. -/
theorem forall_mem_iff_getD {P : α → Prop} (hz : P z) (v : List α) :
    (∀ x ∈ v, P x) ↔ ∀ k, P (v.getD k z) := by
  constructor
  · intro h k
    rw [List.getD_eq_getElem?_getD]
    cases hk : v[k]? with
    | none => exact hz
    | some x => exact h x (List.mem_of_getElem? hk)
  · intro h x hx
    obtain ⟨k, hk⟩ := List.mem_iff_getElem?.mp hx
    have := h k
    rwa [List.getD_eq_getElem?_getD, hk] at this

/-! ## Buckets of a sorted list -/

/-- Next to each other in a list that is sorted by their numbers. -/
theorem filter_append_filter {α : Type*} {l : List α} {b : α → ℤ}
    (h : l.Pairwise fun x y => b x ≤ b y) (n : ℕ) :
    (l.filter fun x => decide (0 ≤ b x ∧ b x < n)) ++ (l.filter fun x => b x == (n : ℤ)) =
      l.filter fun x => decide (0 ≤ b x ∧ b x < (n + 1 : ℕ)) := by
  induction l with
  | nil => rfl
  | cons x l ih =>
      obtain ⟨hx, hl⟩ := List.pairwise_cons.mp h
      have ih := ih hl
      simp only [List.filter_cons]
      by_cases hn : b x = n
      · -- nothing behind `x` has a smaller number
        have hnone : (l.filter fun y => decide (0 ≤ b y ∧ b y < n)) = [] := by
          apply List.filter_eq_nil_iff.mpr
          intro y hy
          have := hx y hy
          simp only [decide_eq_true_eq]
          omega
        rw [hnone, List.nil_append] at ih
        rw [if_neg (by simp only [decide_eq_true_eq]; omega), hnone, List.nil_append,
          if_pos (by rw [hn]; exact beq_self_eq_true _),
          if_pos (by simp only [decide_eq_true_eq]; omega), ih]
      · have hbeq : ¬(b x == (n : ℤ)) = true := fun heq => hn (eq_of_beq heq)
        rw [if_neg hbeq]
        by_cases hlow : 0 ≤ b x ∧ b x < n
        · rw [if_pos (decide_eq_true hlow), if_pos (by simp only [decide_eq_true_eq]; omega),
            List.cons_append, ih]
        · rw [if_neg (by simpa only [decide_eq_true_eq] using hlow),
            if_neg (by simp only [decide_eq_true_eq]; omega), ih]

/-- The buckets of a sorted list, one behind the other, are the list again. -/
theorem flatMap_range_filter {α : Type*} {l : List α} {b : α → ℤ}
    (h : l.Pairwise fun x y => b x ≤ b y) (n : ℕ) :
    ((List.range n).flatMap fun k : ℕ => l.filter fun x => b x == (k : ℤ)) =
      l.filter fun x => decide (0 ≤ b x ∧ b x < n) := by
  induction n with
  | zero =>
      symm
      apply List.filter_eq_nil_iff.mpr
      intro x _
      simp only [decide_eq_true_eq]
      omega
  | succ n ih =>
      rw [List.range_succ, List.flatMap_append, ih, List.flatMap_singleton,
        filter_append_filter h]

/-- A vector is its entries, read one after the other. -/
theorem flatten_eq_flatMap_getD {α : Type*} (v : List (List α)) :
    v.flatten = (List.range v.length).flatMap fun k => v.getD k [] := by
  induction v with
  | nil => rfl
  | cons bucket v ih =>
      rw [List.flatten_cons, List.length_cons, List.range_succ_eq_map, List.flatMap_cons,
        List.flatMap_map, ih]
      rfl

/-- Buckets of the items of a sorted list that hold as many items as it does are the list, one
behind the other. -/
theorem flatten_of_sorted {α ε : Type*} {l : List ε} {b : ε → ℤ} {g : ε → α} {v : List (List α)}
    (hsorted : l.Pairwise fun x y => b x ≤ b y)
    (hbuckets : ∀ k : ℕ, v.getD k [] = (l.filter fun x => b x == (k : ℤ)).map g)
    (hlength : v.flatten.length = l.length) : v.flatten = l.map g := by
  have hflatten : v.flatten =
      (l.filter fun x => decide (0 ≤ b x ∧ b x < v.length)).map g := by
    rw [← flatMap_range_filter hsorted, List.map_flatMap, flatten_eq_flatMap_getD]
    exact congrArg (List.range v.length).flatMap (funext hbuckets)
  rw [hflatten, List.length_map] at hlength
  rw [hflatten, List.filter_sublist.eq_of_length hlength]

end Buckets
