import Mathlib.Data.List.Basic
import Mathlib.Tactic.Linarith

/-!
# The first least element of a list

A scan that keeps the least value seen so far changes its mind at the record lows, the elements
below everything before them, and ends at the last of these, which is the first of the least
elements.
-/

variable {α β : Type*} [LinearOrder β] {f : α → β} {l : List α} {a b d : α}

/-- `a` is below everything before it. -/
def RecordLow (f : α → β) (l : List α) (a : α) : Prop :=
  ∃ pre post, l = pre ++ a :: post ∧ ∀ x ∈ pre, f a < f x

/-- `a` is the first of the least elements. -/
structure FirstLeast (f : α → β) (l : List α) (a : α) : Prop where
  low : RecordLow f l a
  least : ∀ x ∈ l, f a ≤ f x

theorem RecordLow.mem (h : RecordLow f l a) : a ∈ l := by
  obtain ⟨pre, post, rfl, -⟩ := h
  exact List.mem_append_right _ List.mem_cons_self

theorem RecordLow.append (h : RecordLow f l a) (l' : List α) : RecordLow f (l ++ l') a := by
  obtain ⟨pre, post, rfl, hpre⟩ := h
  exact ⟨pre, post ++ l', by simp, hpre⟩

theorem recordLow_last (h : ∀ x ∈ l, f d < f x) : RecordLow f (l ++ [d]) d := ⟨l, [], rfl, h⟩

/-- What one more element makes a record. -/
theorem recordLow_concat_iff :
    RecordLow f (l ++ [d]) a ↔ RecordLow f l a ∨ (a = d ∧ ∀ x ∈ l, f d < f x) := by
  constructor
  · rintro ⟨pre, post, heq, hpre⟩
    rcases List.eq_nil_or_concat post with rfl | ⟨post', e, rfl⟩
    · obtain ⟨rfl, hd⟩ := List.append_inj' heq rfl
      obtain rfl : d = a := List.head_eq_of_cons_eq hd
      exact .inr ⟨rfl, hpre⟩
    · rw [List.concat_eq_append, ← List.cons_append, ← List.append_assoc] at heq
      obtain ⟨rfl, -⟩ := List.append_inj' heq rfl
      exact .inl ⟨pre, post', rfl, hpre⟩
  · rintro (h | ⟨rfl, h⟩)
    · exact h.append [d]
    · exact recordLow_last h

theorem FirstLeast.concat_of_le (h : FirstLeast f l a) (hle : f a ≤ f d) :
    FirstLeast f (l ++ [d]) a := by
  refine ⟨h.low.append [d], fun x hx => ?_⟩
  rcases List.mem_append.mp hx with hx | hx
  · exact h.least x hx
  · rw [List.mem_singleton.mp hx]
    exact hle

theorem firstLeast_concat (h : ∀ x ∈ l, f d < f x) : FirstLeast f (l ++ [d]) d := by
  refine ⟨recordLow_last h, fun x hx => ?_⟩
  rcases List.mem_append.mp hx with hx | hx
  · exact (h x hx).le
  · rw [List.mem_singleton.mp hx]

/-- A new element is a record when it is below the least of the old ones. -/
theorem FirstLeast.lt_all_iff (h : FirstLeast f l a) : (∀ x ∈ l, f d < f x) ↔ f d < f a :=
  ⟨fun hall => hall a h.low.mem, fun hlt x hx => hlt.trans_le (h.least x hx)⟩

theorem FirstLeast.unique (ha : FirstLeast f l a) (hb : FirstLeast f l b) : a = b := by
  obtain ⟨pre, post, rfl, hpre⟩ := ha.low
  obtain ⟨pre', post', heq, hpre'⟩ := hb.low
  have hab := ha.least b hb.low.mem
  have hba := hb.least a ha.low.mem
  -- neither stands before the other
  rcases List.append_eq_append_iff.mp heq with ⟨mid, rfl, hmid⟩ | ⟨mid, rfl, hmid⟩
  · cases mid with
    | nil => exact List.head_eq_of_cons_eq hmid
    | cons c mid =>
      obtain rfl := List.head_eq_of_cons_eq hmid
      exact absurd (hpre' a (by simp)) (not_lt.mpr hab)
  · cases mid with
    | nil => exact (List.head_eq_of_cons_eq hmid).symm
    | cons c mid =>
      obtain rfl := List.head_eq_of_cons_eq hmid
      exact absurd (hpre b (by simp)) (not_lt.mpr hba)
