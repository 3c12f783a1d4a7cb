import Mathlib.Data.List.TakeWhile
import Mathlib.Order.Lattice

/-!
# Windows over a sequence of intervals

Items with a start `lo` and an end `hi` are met in the order of their starts and selected by a list
of closed windows.  `wanted` selects by the start.  `sweep` keeps one current window, which it
leaves for good as soon as an item ends beyond it.  The two agree exactly if no item reaches out of
a window before the last item that starts in it.
-/

namespace Windows

variable {ι α : Type*} [LinearOrder α]

/-- The windows follow each other without touching. -/
structure Ascending (ws : List (α × α)) : Prop where
  ordered : ∀ w ∈ ws, w.1 ≤ w.2
  apart : ws.Pairwise fun v w => v.2 < w.1

instance (ws : List (α × α)) : Decidable (Ascending ws) :=
  decidable_of_iff ((∀ w ∈ ws, w.1 ≤ w.2) ∧ ws.Pairwise fun v w => v.2 < w.1)
    ⟨fun h => ⟨h.1, h.2⟩, fun h => ⟨h.ordered, h.apart⟩⟩

theorem Ascending.tail {w : α × α} {ws : List (α × α)} (h : Ascending (w :: ws)) : Ascending ws :=
  ⟨fun v hv => h.ordered v (List.mem_cons_of_mem w hv), h.apart.of_cons⟩

theorem Ascending.lt {v w : α × α} {ws : List (α × α)} (h : Ascending (w :: ws)) (hv : v ∈ ws) :
    w.2 < v.1 := List.rel_of_pairwise_cons h.apart hv

variable (lo hi : ι → α)

/-- The item starts in one of the windows. -/
def wanted (ws : List (α × α)) (x : ι) : Bool := ws.any fun w => w.1 ≤ lo x && lo x ≤ w.2

theorem wanted_iff {ws : List (α × α)} {x : ι} :
    wanted lo ws x = true ↔ ∃ w ∈ ws, w.1 ≤ lo x ∧ lo x ≤ w.2 := by
  simp only [wanted, List.any_eq_true, Bool.and_eq_true, decide_eq_true_eq]

/-- The item does not reach beyond the window. -/
def endsBy (w : α × α) (x : ι) : Bool := hi x ≤ w.2

/-- Each window sees the items up to the first one that ends beyond it, and selects those that do
not start before it; the next window goes on from there. -/
def sweep : List (α × α) → List ι → List ι
  | [], _ => []
  | w :: ws, l =>
      (l.takeWhile (endsBy hi w)).filter (fun x => w.1 ≤ lo x) ++
        sweep ws (l.dropWhile (endsBy hi w))

/-- Whenever an item starts in a window, it and all items that start earlier end in or before the
window. -/
def StaysInside (ws : List (α × α)) (l : List ι) : Prop :=
  ∀ w ∈ ws, ∀ x ∈ l, w.1 ≤ lo x → lo x ≤ w.2 → ∀ y ∈ l, lo y ≤ lo x → hi y ≤ w.2

instance (ws : List (α × α)) (l : List ι) : Decidable (StaysInside lo hi ws l) :=
  inferInstanceAs (Decidable (∀ w ∈ ws, ∀ x ∈ l, _))

variable {lo hi}

theorem sweep_nil (ws : List (α × α)) : sweep lo hi ws [] = [] := by
  induction ws with
  | nil => rfl
  | cons w ws ih => exact ih

theorem endsBy_iff {w : α × α} {x : ι} : endsBy hi w x = true ↔ hi x ≤ w.2 := decide_eq_true_iff

theorem sweep_cons_of_lt {w : α × α} {ws : List (α × α)} {x : ι} {l : List ι} (h : w.2 < hi x) :
    sweep lo hi (w :: ws) (x :: l) = sweep lo hi ws (x :: l) := by
  have hneg : ¬endsBy hi w x = true := fun hend => absurd (endsBy_iff.mp hend) h.not_ge
  rw [sweep, List.takeWhile_cons_of_neg hneg, List.dropWhile_cons_of_neg hneg]
  rfl

theorem sweep_cons_of_le {w : α × α} {ws : List (α × α)} {x : ι} {l : List ι} (h : hi x ≤ w.2) :
    sweep lo hi (w :: ws) (x :: l) =
      if lo x < w.1 then sweep lo hi (w :: ws) l else x :: sweep lo hi (w :: ws) l := by
  have hpos : endsBy hi w x = true := endsBy_iff.mpr h
  rw [sweep, List.takeWhile_cons_of_pos hpos, List.dropWhile_cons_of_pos hpos]
  split
  · next hlt =>
      rw [List.filter_cons_of_neg (by simpa using hlt)]
      rfl
  · next hge =>
      rw [List.filter_cons_of_pos (by simpa using hge)]
      rfl

/-- Nothing is selected that does not start in a window. -/
theorem wanted_of_mem_sweep {ws : List (α × α)} {l : List ι} (hle : ∀ x ∈ l, lo x ≤ hi x) {x : ι}
    (hx : x ∈ sweep lo hi ws l) : wanted lo ws x = true := by
  induction ws generalizing l with
  | nil => exact absurd hx List.not_mem_nil
  | cons w ws ih =>
      rw [wanted_iff]
      rcases List.mem_append.mp hx with hnow | hlater
      · obtain ⟨htake, hstart⟩ := List.mem_filter.mp hnow
        have hend : hi x ≤ w.2 := endsBy_iff.mp (List.mem_takeWhile_imp htake)
        have hmem : x ∈ l := (List.takeWhile_sublist _).mem htake
        exact ⟨w, List.mem_cons_self, of_decide_eq_true hstart, (hle x hmem).trans hend⟩
      · have hrest := ih (fun y hy => hle y ((List.dropWhile_sublist _).mem hy)) hlater
        obtain ⟨v, hv, hin⟩ := (wanted_iff lo).mp hrest
        exact ⟨v, List.mem_cons_of_mem w hv, hin⟩

section Agreement

variable {w : α × α} {ws : List (α × α)} {l : List ι}

/-- An item that starts in the first window starts in no later one. -/
theorem not_wanted_tail (hws : Ascending (w :: ws)) {x : ι} (hx : lo x ≤ w.2) :
    wanted lo ws x = false := by
  rw [Bool.eq_false_iff]
  intro hlater
  obtain ⟨v, hv, hstart, -⟩ := (wanted_iff lo).mp hlater
  exact absurd ((hws.lt hv).trans_le hstart) hx.not_gt

/-- Among the items that the first window sees, the selection is right. -/
theorem filter_takeWhile (hws : Ascending (w :: ws)) (hle : ∀ x ∈ l, lo x ≤ hi x) :
    (l.takeWhile (endsBy hi w)).filter (fun x => w.1 ≤ lo x) =
      (l.takeWhile (endsBy hi w)).filter (wanted lo (w :: ws)) := by
  apply List.filter_congr
  intro x hx
  have hend : hi x ≤ w.2 := endsBy_iff.mp (List.mem_takeWhile_imp hx)
  have hstart : lo x ≤ w.2 := (hle x ((List.takeWhile_sublist _).mem hx)).trans hend
  have hlater := not_wanted_tail hws hstart
  unfold wanted at hlater ⊢
  rw [List.any_cons, hlater, Bool.or_false, decide_eq_true hstart, Bool.and_true]

/-- Behind the first item that reaches out of the first window, the selection is right if no item
starts in that window and the later windows select rightly. -/
theorem sweep_eq_filter_cons (hws : Ascending (w :: ws)) (hle : ∀ x ∈ l, lo x ≤ hi x) :
    sweep lo hi ws l = l.filter (wanted lo (w :: ws)) ↔
      (∀ x ∈ l, ¬(w.1 ≤ lo x ∧ lo x ≤ w.2)) ∧ sweep lo hi ws l = l.filter (wanted lo ws) := by
  have hcons : ∀ x, ¬(w.1 ≤ lo x ∧ lo x ≤ w.2) → wanted lo (w :: ws) x = wanted lo ws x := by
    intro x hx
    unfold wanted
    rw [List.any_cons, ← Bool.decide_and, decide_eq_false hx, Bool.false_or]
  constructor
  · intro heq
    have hnone : ∀ x ∈ l, ¬(w.1 ≤ lo x ∧ lo x ≤ w.2) := by
      intro x hx hin
      have hwanted : wanted lo (w :: ws) x = true := (wanted_iff lo).mpr ⟨w, List.mem_cons_self, hin⟩
      -- such an item would have to be selected by a later window
      have hsel : x ∈ sweep lo hi ws l := by
        rw [heq]
        exact List.mem_filter.mpr ⟨hx, hwanted⟩
      exact absurd (wanted_of_mem_sweep hle hsel) (by rw [not_wanted_tail hws hin.2]; decide)
    refine ⟨hnone, ?_⟩
    rw [heq]
    exact List.filter_congr fun x hx => hcons x (hnone x hx)
  · rintro ⟨hnone, heq⟩
    rw [heq]
    exact List.filter_congr fun x hx => (hcons x (hnone x hx)).symm

/-- The item at which a window is left reaches out of it. -/
theorem lt_of_dropWhile_eq {b : ι} {B : List ι} (h : l.dropWhile (endsBy hi w) = b :: B) :
    w.2 < hi b := by
  have hne : l.dropWhile (endsBy hi w) ≠ [] := by
    rw [h]
    exact List.cons_ne_nil b B
  have hhead := List.head_dropWhile_not (endsBy hi w) hne
  simp only [h, List.head_cons] at hhead
  exact not_le.mp (of_decide_eq_false hhead)

theorem staysInside_cons (hws : Ascending (w :: ws)) (hle : ∀ x ∈ l, lo x ≤ hi x)
    (hasc : l.Pairwise fun x y => lo x < lo y) :
    StaysInside lo hi (w :: ws) l ↔
      (∀ x ∈ l.dropWhile (endsBy hi w), ¬(w.1 ≤ lo x ∧ lo x ≤ w.2)) ∧
        StaysInside lo hi ws (l.dropWhile (endsBy hi w)) := by
  have hcut : l.takeWhile (endsBy hi w) ++ l.dropWhile (endsBy hi w) = l :=
    List.takeWhile_append_dropWhile
  have hrest : ∀ x ∈ l.dropWhile (endsBy hi w), x ∈ l :=
    fun x hx => (List.dropWhile_sublist _).mem hx
  constructor
  · intro h
    refine ⟨fun x hx hin => ?_, fun v hv x hx hlo hup y hy => ?_⟩
    · -- the item at which the window was left reaches out of it, and starts no later than `x`
      cases hdrop : l.dropWhile (endsBy hi w) with
      | nil =>
          rw [hdrop] at hx
          exact absurd hx List.not_mem_nil
      | cons b B =>
          have hbx : lo b ≤ lo x := by
            have hasc' : (b :: B).Pairwise fun x y => lo x < lo y := by
              rw [← hdrop]
              exact hasc.sublist (List.dropWhile_sublist _)
            rw [hdrop] at hx
            rcases List.mem_cons.mp hx with rfl | hxB
            · exact le_refl _
            · exact (List.rel_of_pairwise_cons hasc' hxB).le
          have hmem : b ∈ l := hrest b (by rw [hdrop]; exact List.mem_cons_self)
          have hend := h w List.mem_cons_self x (hrest x hx) hin.1 hin.2 b hmem hbx
          exact absurd (lt_of_dropWhile_eq hdrop) hend.not_gt
    · exact h v (List.mem_cons_of_mem w hv) x (hrest x hx) hlo hup y (hrest y hy)
  · rintro ⟨hnone, hlater⟩ v hv x hx hlo hup y hy hyx
    have hsplit := List.pairwise_append.mp (hcut.symm ▸ hasc)
    rw [← hcut] at hx hy
    rcases List.mem_append.mp hx with hxA | hxB
    · have hendx : hi x ≤ w.2 := endsBy_iff.mp (List.mem_takeWhile_imp hxA)
      have hstart : lo x ≤ w.2 := (hle x ((List.takeWhile_sublist _).mem hxA)).trans hendx
      rcases List.mem_append.mp hy with hyA | hyB
      · rcases List.mem_cons.mp hv with rfl | hv
        · exact endsBy_iff.mp (List.mem_takeWhile_imp hyA)
        · exact absurd ((hws.lt hv).trans_le hlo) hstart.not_gt
      · exact absurd (hsplit.2.2 x hxA y hyB) hyx.not_gt
    · rcases List.mem_cons.mp hv with rfl | hv
      · exact absurd ⟨hlo, hup⟩ (hnone x hxB)
      · rcases List.mem_append.mp hy with hyA | hyB
        · have hendy : hi y ≤ w.2 := endsBy_iff.mp (List.mem_takeWhile_imp hyA)
          exact hendy.trans ((hws.lt hv).le.trans (hlo.trans hup))
        · exact hlater v hv x hxB hlo hup y hyB hyx

end Agreement

/-- The sweep selects by the start exactly if every item that starts in a window, and every item
before it, ends in or before that window. -/
theorem sweep_eq_filter_iff {ws : List (α × α)} {l : List ι} (hws : Ascending ws)
    (hle : ∀ x ∈ l, lo x ≤ hi x) (hasc : l.Pairwise fun x y => lo x < lo y) :
    sweep lo hi ws l = l.filter (wanted lo ws) ↔ StaysInside lo hi ws l := by
  induction ws generalizing l with
  | nil =>
      have hnil : l.filter (wanted lo []) = [] := List.filter_eq_nil_iff.mpr fun x _ => nofun
      rw [hnil]
      exact iff_of_true rfl fun w hw => absurd hw List.not_mem_nil
  | cons w ws ih =>
      have hsub := List.dropWhile_sublist (endsBy hi w) (l := l)
      have hle' : ∀ x ∈ l.dropWhile (endsBy hi w), lo x ≤ hi x := fun x hx => hle x (hsub.mem hx)
      have hfilter : l.filter (wanted lo (w :: ws)) =
          (l.takeWhile (endsBy hi w)).filter (wanted lo (w :: ws)) ++
            (l.dropWhile (endsBy hi w)).filter (wanted lo (w :: ws)) := by
        rw [← List.filter_append, List.takeWhile_append_dropWhile]
      rw [sweep, hfilter, filter_takeWhile hws hle, List.append_cancel_left_eq,
        sweep_eq_filter_cons hws hle', staysInside_cons hws hle hasc,
        ih hws.tail hle' (hasc.sublist hsub)]

/-- Where no item reaches into a later one, each item only has to end in its own window. -/
theorem staysInside_iff_of_apart {ws : List (α × α)} {l : List ι}
    (hapart : l.Pairwise fun x y => lo x < lo y ∧ hi x ≤ lo y) :
    StaysInside lo hi ws l ↔ ∀ w ∈ ws, ∀ x ∈ l, w.1 ≤ lo x → lo x ≤ w.2 → hi x ≤ w.2 := by
  have hbefore : ∀ y ∈ l, ∀ x ∈ l, lo y ≤ lo x → y = x ∨ hi y ≤ lo x := by
    intro y hy x hx
    refine List.Pairwise.forall_of_forall_of_flip
      (R := fun y x => lo y ≤ lo x → y = x ∨ hi y ≤ lo x) (fun _ _ _ => .inl rfl)
      (hapart.imp ?_) (hapart.imp ?_) hy hx
    · exact fun h _ => .inr h.2
    · exact fun h hle => absurd h.1 hle.not_gt
  constructor
  · intro h w hw x hx hlo hup
    exact h w hw x hx hlo hup x hx (le_refl _)
  · intro h w hw x hx hlo hup y hy hle
    rcases hbefore y hy x hx hle with rfl | hend
    · exact h w hw y hy hlo hup
    · exact hend.trans hup

end Windows
