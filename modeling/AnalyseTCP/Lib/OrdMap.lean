import Mathlib.Tactic.Linarith
import Mathlib.Data.List.Perm.Subperm
import Mathlib.Data.List.TakeWhile
import Mathlib.Algebra.BigOperators.Group.Finset.Basic

/-!
# Ordered maps as sorted association lists

The operations of an ordered container (`find`, a non-overwriting `insert`, mutation through an
iterator, `lower_bound`, predecessor and successor) over a list of entries whose keys strictly
increase.  The sortedness proof travels with the map, so no operation needs it as a hypothesis.

Proofs work with *cuts*: `m.entries = pre ++ (k, v) :: post` says where an entry sits, and each
operation has one lemma that says what it does to a cut.
-/

variable {α β : Type*} [LinearOrder α]

/-- A finite map in key order. -/
structure OrdMap (α β : Type*) [LinearOrder α] where
  entries : List (α × β)
  sorted : entries.Pairwise fun a b => a.1 < b.1

namespace OrdMap

@[ext] theorem ext {m n : OrdMap α β} (h : m.entries = n.entries) : m = n := by
  cases m; cases n; simp_all

def empty : OrdMap α β := ⟨[], List.Pairwise.nil⟩

@[simp] theorem entries_empty : (empty : OrdMap α β).entries = [] := rfl

def find? (m : OrdMap α β) (k : α) : Option β :=
  (m.entries.find? fun e => decide (e.1 = k)).map Prod.snd

/-- The entries with a key below `k`: everything before `lower_bound k`. -/
def below (m : OrdMap α β) (k : α) : List (α × β) :=
  m.entries.takeWhile fun e => decide (e.1 < k)

/-- The entries from `lower_bound k` on. -/
def atLeast (m : OrdMap α β) (k : α) : List (α × β) :=
  m.entries.dropWhile fun e => decide (e.1 < k)

/-- The entry after the one at `k`. -/
def next? (m : OrdMap α β) (k : α) : Option (α × β) :=
  m.entries.find? fun e => decide (k < e.1)

/-- The entry with the largest key. -/
def last? (m : OrdMap α β) : Option (α × β) := m.entries.getLast?

/-! ## Where an entry sits -/

section Cuts

variable {m : OrdMap α β} {k : α} {v : β} {pre post : List (α × β)} {e : α × β}

theorem lt_of_mem_pre (h : m.entries = pre ++ (k, v) :: post) (he : e ∈ pre) : e.1 < k := by
  have hs := m.sorted
  rw [h] at hs
  exact (List.pairwise_append.mp hs).2.2 e he (k, v) List.mem_cons_self

theorem lt_of_mem_post (h : m.entries = pre ++ (k, v) :: post) (he : e ∈ post) : k < e.1 := by
  have hs := m.sorted
  rw [h] at hs
  exact List.rel_of_pairwise_cons (List.pairwise_append.mp hs).2.1 he

theorem find?_eq_some_iff : m.find? k = some v ↔ (k, v) ∈ m.entries := by
  constructor
  · intro h
    obtain ⟨⟨k', v'⟩, he, rfl⟩ := Option.map_eq_some_iff.mp h
    have hk : k' = k := by simpa using List.find?_some he
    exact hk ▸ List.mem_of_find?_eq_some he
  · intro h
    obtain ⟨pre, post, hcut⟩ := List.append_of_mem h
    have hpre : pre.find? (fun e => decide (e.1 = k)) = none := by
      simp only [List.find?_eq_none, decide_eq_true_eq]
      intro e he
      exact ne_of_lt (lt_of_mem_pre hcut he)
    simp [find?, hcut, hpre]

theorem find?_eq_none_iff : m.find? k = none ↔ ∀ e ∈ m.entries, e.1 ≠ k := by
  simp [find?]

theorem exists_cut_of_find? (h : m.find? k = some v) :
    ∃ pre post, m.entries = pre ++ (k, v) :: post :=
  List.append_of_mem (find?_eq_some_iff.mp h)

theorem find?_of_cut (h : m.entries = pre ++ (k, v) :: post) : m.find? k = some v := by
  rw [find?_eq_some_iff, h]
  simp

theorem find?_of_gap (h : m.entries = pre ++ post) (hpre : ∀ e ∈ pre, e.1 < k)
    (hpost : ∀ e ∈ post, k < e.1) : m.find? k = none := by
  rw [find?_eq_none_iff, h]
  intro e he
  rcases List.mem_append.mp he with he | he
  · exact (hpre e he).ne
  · exact (hpost e he).ne'

/-- A key occurs once, so membership determines the value. -/
theorem eq_of_mem {w : β} (h₁ : (k, v) ∈ m.entries) (h₂ : (k, w) ∈ m.entries) : v = w := by
  rw [← find?_eq_some_iff] at h₁ h₂
  exact Option.some.inj (h₁.symm.trans h₂)

theorem below_append_atLeast (m : OrdMap α β) (k : α) : m.below k ++ m.atLeast k = m.entries :=
  List.takeWhile_append_dropWhile

theorem lt_of_mem_below (h : e ∈ m.below k) : e.1 < k := by
  simpa using List.mem_takeWhile_imp h

theorem le_of_mem_atLeast (h : e ∈ m.atLeast k) : k ≤ e.1 := by
  have hs := m.sorted
  rw [← m.below_append_atLeast k] at hs
  have hs := (List.pairwise_append.mp hs).2.1
  cases hd : m.atLeast k with
  | nil => rw [hd] at h; cases h
  | cons d ds =>
      have hhead : k ≤ d.1 := by
        have := List.head?_dropWhile_not (fun e : α × β => decide (e.1 < k)) m.entries
        unfold atLeast at hd
        rw [hd] at this
        simpa using this
      rw [hd] at h hs
      rcases List.mem_cons.mp h with rfl | h
      · exact hhead
      · exact hhead.trans (List.rel_of_pairwise_cons hs h).le

theorem mem_below (hmem : e ∈ m.entries) (hlt : e.1 < k) : e ∈ m.below k := by
  rw [← m.below_append_atLeast k] at hmem
  rcases List.mem_append.mp hmem with he | he
  · exact he
  · exact absurd hlt (le_of_mem_atLeast he).not_gt

/-- The last entry below `k`. -/
theorem getLast?_below_iff : (m.below k).getLast? = some e ↔
    e ∈ m.entries ∧ e.1 < k ∧ ∀ d ∈ m.entries, d.1 < k → d.1 ≤ e.1 := by
  have hmem : ∀ d, d ∈ m.below k → d ∈ m.entries := fun d hd => by
    rw [← m.below_append_atLeast k]
    exact List.mem_append_left _ hd
  have hsorted : (m.below k).Pairwise fun a b => a.1 < b.1 :=
    m.sorted.sublist (List.takeWhile_sublist _)
  constructor
  · intro h
    obtain ⟨init, hinit⟩ := List.getLast?_eq_some_iff.mp h
    have he : e ∈ m.below k := List.mem_of_getLast? h
    refine ⟨hmem e he, lt_of_mem_below he, fun d hd hdk => ?_⟩
    have hd' := mem_below hd hdk
    rw [hinit] at hd' hsorted
    rcases List.mem_append.mp hd' with hd' | hd'
    · exact ((List.pairwise_append.mp hsorted).2.2 d hd' e (List.mem_singleton_self e)).le
    · exact (congrArg Prod.fst (List.mem_singleton.mp hd')).le
  · rintro ⟨he, hlt, hlast⟩
    have he' := mem_below he hlt
    cases h : (m.below k).getLast? with
    | none =>
        rw [List.getLast?_eq_none_iff.mp h] at he'
        cases he'
    | some d =>
        obtain ⟨init, hinit⟩ := List.getLast?_eq_some_iff.mp h
        have hd : d ∈ m.below k := List.mem_of_getLast? h
        have hle := hlast d (hmem d hd) (lt_of_mem_below hd)
        rw [hinit] at he' hsorted
        rcases List.mem_append.mp he' with he' | he'
        · have hlt' := (List.pairwise_append.mp hsorted).2.2 e he' d (List.mem_singleton_self d)
          exact absurd hlt' hle.not_gt
        · rw [List.mem_singleton.mp he']

theorem below_of_cut (h : m.entries = pre ++ (k, v) :: post) : m.below k = pre := by
  have hpre : ∀ e ∈ pre, decide (e.1 < k) = true := fun e he => by
    simpa using lt_of_mem_pre h he
  rw [below, h, List.takeWhile_append_of_pos hpre]
  simp

theorem atLeast_of_cut (h : m.entries = pre ++ (k, v) :: post) : m.atLeast k = (k, v) :: post := by
  have hpre : ∀ e ∈ pre, decide (e.1 < k) = true := fun e he => by
    simpa using lt_of_mem_pre h he
  rw [atLeast, h, List.dropWhile_append_of_pos hpre]
  simp

theorem next?_of_cut (h : m.entries = pre ++ (k, v) :: post) : m.next? k = post.head? := by
  have hpre : pre.find? (fun e => decide (k < e.1)) = none := by
    simp only [List.find?_eq_none, decide_eq_true_eq]
    exact fun e he => not_lt.mpr (lt_of_mem_pre h he).le
  rw [next?, h, List.find?_append, hpre]
  cases post with
  | nil => simp
  | cons p ps =>
      have hp : k < p.1 := lt_of_mem_post h List.mem_cons_self
      simp [hp]

omit [LinearOrder α] in
theorem sum_map_eq_zero {l : List (α × β)} {g : α × β → ℕ} (h : ∀ e ∈ l, g e = 0) :
    (l.map g).sum = 0 := by
  induction l with
  | nil => rfl
  | cons d ds ih =>
      rw [List.map_cons, List.sum_cons, h d List.mem_cons_self,
        ih fun e he => h e (List.mem_cons_of_mem d he)]

/-- A sum that only counts one key reads the value at that key. -/
theorem sum_ite_key (m : OrdMap α β) (k : α) (f : β → ℕ) :
    (m.entries.map fun e => if e.1 = k then f e.2 else 0).sum = ((m.find? k).map f).getD 0 := by
  cases hfind : m.find? k with
  | none =>
      exact sum_map_eq_zero fun e he => if_neg (find?_eq_none_iff.mp hfind e he)
  | some v =>
      obtain ⟨pre, post, hcut⟩ := exists_cut_of_find? hfind
      have hpre := sum_map_eq_zero (g := fun e => if e.1 = k then f e.2 else 0)
        fun e he => if_neg (lt_of_mem_pre hcut he).ne
      have hpost := sum_map_eq_zero (g := fun e => if e.1 = k then f e.2 else 0)
        fun e he => if_neg (lt_of_mem_post hcut he).ne'
      simp [hcut, hpre, hpost]

end Cuts

/-- A map with natural keys below `n` has at most `n` entries. -/
theorem length_le {m : OrdMap ℕ β} {n : ℕ} (h : ∀ e ∈ m.entries, e.1 < n) : m.entries.length ≤ n := by
  have hnodup : (m.entries.map Prod.fst).Nodup :=
    List.pairwise_map.mpr (m.sorted.imp fun {a b} hab => ne_of_lt hab)
  have hsub : m.entries.map Prod.fst ⊆ List.range n := by
    intro k hk
    obtain ⟨e, he, rfl⟩ := List.mem_map.mp hk
    exact List.mem_range.mpr (h e he)
  have hlen := (hnodup.subperm hsub).length_le
  rwa [List.length_map, List.length_range] at hlen

/-! ## Mutation through an iterator -/

/-- Apply `f` to the value at `k`, if there is one. -/
def modify (m : OrdMap α β) (k : α) (f : β → β) : OrdMap α β where
  entries := m.entries.map fun e => if e.1 = k then (e.1, f e.2) else e
  sorted := by
    rw [List.pairwise_map]
    refine m.sorted.imp fun {a b} h => ?_
    split <;> split <;> exact h

theorem entries_modify_of_cut {m : OrdMap α β} {k : α} {v : β} {pre post : List (α × β)}
    (h : m.entries = pre ++ (k, v) :: post) (f : β → β) :
    (m.modify k f).entries = pre ++ (k, f v) :: post := by
  have hpre : pre.map (fun e => if e.1 = k then (e.1, f e.2) else e) = pre :=
    (List.map_congr_left fun e he => if_neg (lt_of_mem_pre h he).ne).trans (List.map_id _)
  have hpost : post.map (fun e => if e.1 = k then (e.1, f e.2) else e) = post :=
    (List.map_congr_left fun e he => if_neg (lt_of_mem_post h he).ne').trans (List.map_id _)
  simp [modify, h, hpre, hpost]

theorem mem_modify {m : OrdMap α β} {k : α} {f : β → β} {e : α × β}
    (h : e ∈ (m.modify k f).entries) :
    e ∈ m.entries ∨ ∃ v, (k, v) ∈ m.entries ∧ e = (k, f v) := by
  obtain ⟨d, hd, rfl⟩ := List.mem_map.mp h
  split
  · next hk => exact .inr ⟨d.2, hk ▸ hd, by rw [hk]⟩
  · exact .inl hd

theorem mem_modify_iff {m : OrdMap α β} {k : α} {f : β → β} {e : α × β} :
    e ∈ (m.modify k f).entries ↔
      e ∈ m.entries ∧ e.1 ≠ k ∨ ∃ v, (k, v) ∈ m.entries ∧ e = (k, f v) := by
  constructor
  · intro h
    obtain ⟨d, hd, rfl⟩ := List.mem_map.mp h
    split
    · next hk => exact .inr ⟨d.2, hk ▸ hd, by rw [hk]⟩
    · next hk => exact .inl ⟨hd, hk⟩
  · rintro (⟨he, hk⟩ | ⟨v, hv, rfl⟩)
    · exact List.mem_map.mpr ⟨e, he, if_neg hk⟩
    · exact List.mem_map.mpr ⟨(k, v), hv, if_pos rfl⟩

theorem keys_modify (m : OrdMap α β) (k : α) (f : β → β) :
    (m.modify k f).entries.map Prod.fst = m.entries.map Prod.fst := by
  rw [modify, List.map_map]
  refine List.map_congr_left fun e _ => ?_
  show (if e.1 = k then (e.1, f e.2) else e).1 = e.1
  split <;> rfl

/-- `n` has every key of `m`. -/
def KeysKept (m n : OrdMap α β) : Prop := ∀ e ∈ m.entries, ∃ d ∈ n.entries, d.1 = e.1

theorem KeysKept.refl (m : OrdMap α β) : KeysKept m m := fun e he => ⟨e, he, rfl⟩

theorem KeysKept.trans {m n p : OrdMap α β} (h : KeysKept m n) (h' : KeysKept n p) :
    KeysKept m p := by
  intro e he
  obtain ⟨d, hd, hde⟩ := h e he
  obtain ⟨c, hc, hcd⟩ := h' d hd
  exact ⟨c, hc, hcd.trans hde⟩

/-- A key that none of the later entries has was free before. -/
theorem free_of_kept {m : OrdMap α β} {l : List (α × β)} {k : α}
    (hkeys : ∀ e ∈ m.entries, ∃ d ∈ l, d.1 = e.1) (hfree : ∀ d ∈ l, d.1 ≠ k) :
    ∀ e ∈ m.entries, e.1 ≠ k := by
  intro e he hkey
  obtain ⟨d, hd, hde⟩ := hkeys e he
  exact hfree d hd (hde.trans hkey)

theorem keysKept_modify (m : OrdMap α β) (k : α) (f : β → β) : KeysKept m (m.modify k f) := by
  intro e he
  refine ⟨_, List.mem_map.mpr ⟨e, he, rfl⟩, ?_⟩
  split <;> rfl

/-! ## Insertion -/

/-- `std::map::insert`: a key that is already present keeps its value. -/
def insertEntry (k : α) (v : β) : List (α × β) → List (α × β)
  | [] => [(k, v)]
  | e :: es =>
      if e.1 < k then e :: insertEntry k v es
      else if e.1 = k then e :: es
      else (k, v) :: e :: es

theorem mem_insertEntry {k : α} {v : β} {l : List (α × β)} {e : α × β}
    (h : e ∈ insertEntry k v l) : e = (k, v) ∨ e ∈ l := by
  induction l with
  | nil => simpa [insertEntry] using h
  | cons d ds ih =>
      rw [insertEntry] at h
      split_ifs at h
      · rcases List.mem_cons.mp h with rfl | h
        · exact .inr List.mem_cons_self
        · exact (ih h).imp_right (List.mem_cons_of_mem d)
      · exact .inr h
      · exact List.mem_cons.mp h

theorem sorted_insertEntry {k : α} {v : β} {l : List (α × β)}
    (h : l.Pairwise fun a b => a.1 < b.1) :
    (insertEntry k v l).Pairwise fun a b => a.1 < b.1 := by
  induction l with
  | nil => simp [insertEntry]
  | cons d ds ih =>
      have ⟨hd, hds⟩ := List.pairwise_cons.mp h
      rw [insertEntry]
      split_ifs with hlt heq
      · refine List.pairwise_cons.mpr ⟨fun e he => ?_, ih hds⟩
        rcases mem_insertEntry he with rfl | he
        · exact hlt
        · exact hd e he
      · exact h
      · have hk : k < d.1 := lt_of_le_of_ne (not_lt.mp hlt) (Ne.symm heq)
        refine List.pairwise_cons.mpr ⟨fun e he => ?_, h⟩
        rcases List.mem_cons.mp he with rfl | he
        · exact hk
        · exact hk.trans (hd e he)

def insert (m : OrdMap α β) (k : α) (v : β) : OrdMap α β :=
  ⟨insertEntry k v m.entries, sorted_insertEntry m.sorted⟩

theorem mem_insert {m : OrdMap α β} {k : α} {v : β} {e : α × β}
    (h : e ∈ (m.insert k v).entries) : e = (k, v) ∨ e ∈ m.entries := mem_insertEntry h

theorem mem_insertEntry_of_mem {k : α} {v : β} {l : List (α × β)} {e : α × β} (h : e ∈ l) :
    e ∈ insertEntry k v l := by
  induction l with
  | nil => cases h
  | cons d ds ih =>
      rw [insertEntry]
      split_ifs
      · rcases List.mem_cons.mp h with rfl | h
        · exact List.mem_cons_self
        · exact List.mem_cons_of_mem _ (ih h)
      · exact h
      · exact List.mem_cons_of_mem _ h

/-- The new entry is there only if its key was free. -/
theorem mem_insert_free {m : OrdMap α β} {k : α} {v : β} {e : α × β}
    (h : e ∈ (m.insert k v).entries) : e ∈ m.entries ∨ e = (k, v) ∧ ∀ d ∈ m.entries, d.1 ≠ k := by
  rcases mem_insert h with rfl | he
  · by_cases hfree : ∀ d ∈ m.entries, d.1 ≠ k
    · exact .inr ⟨rfl, hfree⟩
    · left
      push Not at hfree
      obtain ⟨⟨k', w⟩, hd, rfl⟩ := hfree
      -- the old entry with this key is still there
      have hd' : (k', w) ∈ (m.insert k' v).entries := mem_insertEntry_of_mem hd
      rw [← eq_of_mem hd' h]
      exact hd
  · exact .inl he

theorem mem_insertEntry_self {k : α} (v : β) {l : List (α × β)} (hfree : ∀ e ∈ l, e.1 ≠ k) :
    (k, v) ∈ insertEntry k v l := by
  induction l with
  | nil => exact List.mem_singleton_self _
  | cons d ds ih =>
      rw [insertEntry]
      split_ifs with hlt heq
      · exact List.mem_cons_of_mem _ (ih fun e he => hfree e (List.mem_cons_of_mem _ he))
      · exact absurd heq (hfree d List.mem_cons_self)
      · exact List.mem_cons_self

theorem mem_insert_iff {m : OrdMap α β} {k : α} {v : β} {e : α × β}
    (hfree : ∀ e ∈ m.entries, e.1 ≠ k) :
    e ∈ (m.insert k v).entries ↔ e = (k, v) ∨ e ∈ m.entries := by
  constructor
  · exact mem_insert
  · rintro (rfl | he)
    · exact mem_insertEntry_self v hfree
    · exact mem_insertEntry_of_mem he

theorem keysKept_insert (m : OrdMap α β) (k : α) (v : β) : KeysKept m (m.insert k v) :=
  fun e he => ⟨e, mem_insertEntry_of_mem he, rfl⟩

theorem mem_keys_insert {m : OrdMap α β} {k k' : α} {v : β} :
    k' ∈ (m.insert k v).entries.map Prod.fst ↔ k' = k ∨ k' ∈ m.entries.map Prod.fst := by
  constructor
  · intro h
    obtain ⟨e, he, rfl⟩ := List.mem_map.mp h
    rcases mem_insert he with rfl | he
    · exact .inl rfl
    · exact .inr (List.mem_map_of_mem he)
  · rintro (rfl | h)
    · by_cases hfree : ∀ e ∈ m.entries, e.1 ≠ k'
      · exact List.mem_map.mpr ⟨_, mem_insertEntry_self v hfree, rfl⟩
      · push Not at hfree
        obtain ⟨e, he, rfl⟩ := hfree
        exact List.mem_map_of_mem (mem_insertEntry_of_mem he)
    · obtain ⟨e, he, rfl⟩ := List.mem_map.mp h
      exact List.mem_map_of_mem (mem_insertEntry_of_mem he)

theorem insertEntry_append {k : α} {v : β} {pre post : List (α × β)}
    (hpre : ∀ e ∈ pre, e.1 < k) (hpost : ∀ e ∈ post, k < e.1) :
    insertEntry k v (pre ++ post) = pre ++ (k, v) :: post := by
  induction pre with
  | nil =>
      cases post with
      | nil => rfl
      | cons e es =>
          have he : k < e.1 := hpost e List.mem_cons_self
          simp [insertEntry, he.not_gt, he.ne']
  | cons e es ih =>
      have he : e.1 < k := hpre e List.mem_cons_self
      have ih := ih fun d hd => hpre d (List.mem_cons_of_mem e hd)
      simp [insertEntry, he, ih]

theorem entries_insert_of_cut {m : OrdMap α β} {k : α} {pre post : List (α × β)}
    (h : m.entries = pre ++ post) (hpre : ∀ e ∈ pre, e.1 < k) (hpost : ∀ e ∈ post, k < e.1)
    (v : β) : (m.insert k v).entries = pre ++ (k, v) :: post := by
  change insertEntry k v m.entries = _
  rw [h, insertEntry_append hpre hpost]

theorem lt_of_mem_atLeast {m : OrdMap α β} {k : α} (h : m.find? k = none) :
    ∀ e ∈ m.atLeast k, k < e.1 := by
  intro e he
  have hmem : e ∈ m.entries := by
    rw [← m.below_append_atLeast k]
    exact List.mem_append_right _ he
  exact lt_of_le_of_ne (le_of_mem_atLeast he) (Ne.symm (find?_eq_none_iff.mp h e hmem))

/-- An absent key falls between the entries below it and the others. -/
theorem entries_insert_of_find?_eq_none {m : OrdMap α β} {k : α} (h : m.find? k = none) (v : β) :
    (m.insert k v).entries = m.below k ++ (k, v) :: m.atLeast k :=
  entries_insert_of_cut (m.below_append_atLeast k).symm (fun _ he => lt_of_mem_below he)
    (lt_of_mem_atLeast h) v

/-- A key that is present keeps its value. -/
theorem entries_insert_of_find? {m : OrdMap α β} {k : α} {w : β} (h : m.find? k = some w) (v : β) :
    (m.insert k v).entries = m.entries := by
  obtain ⟨pre, post, hcut⟩ := exists_cut_of_find? h
  change insertEntry k v m.entries = m.entries
  have hlt : ∀ e ∈ pre, e.1 < k := fun e he => lt_of_mem_pre hcut he
  rw [hcut]
  clear hcut
  induction pre with
  | nil => simp [insertEntry]
  | cons e pre ih =>
      have he : e.1 < k := hlt e List.mem_cons_self
      have ih := ih fun d hd => hlt d (List.mem_cons_of_mem e hd)
      simp [insertEntry, he, ih]

/-! ## Counting entries by their keys -/

/-- The keys of the entries with `p`. -/
def keysWith (m : OrdMap α β) (p : β → Bool) : List α := (m.entries.filter fun e => p e.2).map Prod.fst

theorem mem_keysWith {m : OrdMap α β} {p : β → Bool} {k : α} :
    k ∈ m.keysWith p ↔ ∃ v, (k, v) ∈ m.entries ∧ p v = true := by
  simp [keysWith]

theorem nodup_keys (m : OrdMap α β) : (m.entries.map Prod.fst).Nodup := by
  unfold List.Nodup
  rw [List.pairwise_map]
  exact m.sorted.imp fun h => h.ne

theorem nodup_keysWith (m : OrdMap α β) (p : β → Bool) : (m.keysWith p).Nodup :=
  m.nodup_keys.sublist (List.filter_sublist.map Prod.fst)

theorem length_keysWith (m : OrdMap α β) (p : β → Bool) :
    (m.keysWith p).length = m.entries.countP fun e => p e.2 := by
  rw [keysWith, List.length_map, List.countP_eq_length_filter]

/-- At most the keys in `extra` are new among those with `p`. -/
theorem countP_le_add {m n : OrdMap α β} {p : β → Bool} {extra : List α}
    (h : ∀ k v, (k, v) ∈ n.entries → p v = true → k ∈ m.keysWith p ∨ k ∈ extra) :
    (n.entries.countP fun e => p e.2) ≤ (m.entries.countP fun e => p e.2) + extra.length := by
  rw [← length_keysWith, ← length_keysWith, ← List.length_append]
  refine ((nodup_keysWith n p).subperm fun k hk => ?_).length_le
  obtain ⟨v, hv, hp⟩ := mem_keysWith.mp hk
  exact List.mem_append.mpr (h k v hv hp)

/-- All keys with `p` have it still, and so do those in `extra`. -/
theorem countP_add_le {m n : OrdMap α β} {p : β → Bool} {extra : List α} (hextra : extra.Nodup)
    (hfree : ∀ k ∈ extra, k ∉ m.keysWith p) (hnew : ∀ k ∈ extra, k ∈ n.keysWith p)
    (hold : ∀ k ∈ m.keysWith p, k ∈ n.keysWith p) :
    (m.entries.countP fun e => p e.2) + extra.length ≤ n.entries.countP fun e => p e.2 := by
  rw [← length_keysWith, ← length_keysWith, ← List.length_append]
  have hnodup : (m.keysWith p ++ extra).Nodup :=
    List.nodup_append.mpr ⟨nodup_keysWith m p, hextra, fun a ha b hb hab => hfree b hb (hab ▸ ha)⟩
  refine (hnodup.subperm fun k hk => ?_).length_le
  rcases List.mem_append.mp hk with hk | hk
  · exact hold k hk
  · exact hnew k hk

/-! ## Sums over the entries -/

/-- What the entry at `k` contributes; an absent key contributes nothing. -/
def valueAt (m : OrdMap α β) (f : β → ℕ) (k : α) : ℕ := ((m.find? k).map f).getD 0

theorem valueAt_of_mem {m : OrdMap α β} (f : β → ℕ) {k : α} {v : β} (h : (k, v) ∈ m.entries) :
    m.valueAt f k = f v := by
  unfold valueAt
  rw [find?_eq_some_iff.mpr h]
  rfl

theorem valueAt_of_free {m : OrdMap α β} (f : β → ℕ) {k : α} (h : ∀ e ∈ m.entries, e.1 ≠ k) :
    m.valueAt f k = 0 := by
  unfold valueAt
  rw [find?_eq_none_iff.mpr h]
  rfl

theorem sum_eq_sum_keys (m : OrdMap α β) (f : β → ℕ) :
    (m.entries.map fun e => f e.2).sum =
      ∑ k ∈ (m.entries.map Prod.fst).toFinset, m.valueAt f k := by
  rw [List.sum_toFinset _ m.nodup_keys, List.map_map]
  refine congrArg List.sum (List.map_congr_left fun e he => ?_)
  exact (valueAt_of_mem f he).symm

/-- Entries with new keys that contribute nothing do not change a sum. -/
theorem sum_of_keysKept {m n : OrdMap α β} (hkeys : KeysKept m n) {f : β → ℕ}
    (h : ∀ e ∈ n.entries, f e.2 = m.valueAt f e.1) :
    (n.entries.map fun e => f e.2).sum = (m.entries.map fun e => f e.2).sum := by
  have hvalue : ∀ k ∈ (n.entries.map Prod.fst).toFinset, n.valueAt f k = m.valueAt f k := by
    intro k hk
    obtain ⟨e, he, rfl⟩ := List.mem_map.mp (List.mem_toFinset.mp hk)
    rw [valueAt_of_mem f he, h e he]
  rw [sum_eq_sum_keys, sum_eq_sum_keys, Finset.sum_congr rfl hvalue]
  symm
  apply Finset.sum_subset
  · intro k hk
    obtain ⟨e, he, rfl⟩ := List.mem_map.mp (List.mem_toFinset.mp hk)
    obtain ⟨d, hd, hde⟩ := hkeys e he
    rw [List.mem_toFinset, ← hde]
    exact List.mem_map_of_mem hd
  · intro k _ hk
    apply valueAt_of_free
    intro e he hkey
    apply hk
    rw [List.mem_toFinset, ← hkey]
    exact List.mem_map_of_mem he

/-! ## Values, one by one -/

section Values

variable {m : OrdMap α β} {f g h : β → β} {k : α}

def mapVals (f : β → β) (m : OrdMap α β) : OrdMap α β where
  entries := m.entries.map fun e => (e.1, f e.2)
  sorted := by
    rw [List.pairwise_map]
    exact m.sorted

theorem entries_mapVals (f : β → β) (m : OrdMap α β) :
    (m.mapVals f).entries = m.entries.map fun e => (e.1, f e.2) := rfl

theorem find?_mapVals (f : β → β) (m : OrdMap α β) (k : α) :
    (m.mapVals f).find? k = (m.find? k).map f := by
  unfold find?
  rw [entries_mapVals, List.find?_map, Option.map_map, Option.map_map]
  rfl

theorem below_mapVals (f : β → β) (m : OrdMap α β) (k : α) :
    (m.mapVals f).below k = (m.below k).map fun e => (e.1, f e.2) := by
  unfold below
  rw [entries_mapVals, List.takeWhile_map]
  rfl

theorem atLeast_mapVals (f : β → β) (m : OrdMap α β) (k : α) :
    (m.mapVals f).atLeast k = (m.atLeast k).map fun e => (e.1, f e.2) := by
  unfold atLeast
  rw [entries_mapVals, List.dropWhile_map]
  rfl

/-- Mutating a changed value is changing the mutated one. -/
theorem modify_mapVals (m : OrdMap α β) (k : α) (hcomm : ∀ v, g (f v) = f (h v)) :
    (m.mapVals f).modify k g = (m.modify k h).mapVals f := by
  apply ext
  show (m.entries.map _).map _ = (m.entries.map _).map _
  rw [List.map_map, List.map_map]
  apply List.map_congr_left
  intro e _
  show (if e.1 = k then (e.1, g (f e.2)) else (e.1, f e.2)) =
    ((if e.1 = k then (e.1, h e.2) else e).1, f (if e.1 = k then (e.1, h e.2) else e).2)
  split
  · rw [hcomm]
  · rfl

theorem insertEntry_map (f : β → β) (k : α) (v : β) (l : List (α × β)) :
    insertEntry k (f v) (l.map fun e => (e.1, f e.2)) =
      (insertEntry k v l).map fun e => (e.1, f e.2) := by
  induction l with
  | nil => rfl
  | cons e l ih =>
      rw [List.map_cons, insertEntry, insertEntry, ih]
      split_ifs <;> rfl

theorem insert_mapVals (f : β → β) (m : OrdMap α β) (k : α) (v : β) :
    (m.mapVals f).insert k (f v) = (m.insert k v).mapVals f :=
  ext (insertEntry_map f k v m.entries)

end Values

/-! ## Assignment -/

section Put

variable {m n : OrdMap α β} {k k' : α} {v w : β}

theorem find?_modify (m : OrdMap α β) (k k' : α) (f : β → β) :
    (m.modify k f).find? k' = if k' = k then (m.find? k).map f else m.find? k' := by
  by_cases hk : k' = k
  · subst hk
    rw [if_pos rfl]
    cases hfind : m.find? k' with
    | none =>
        apply find?_eq_none_iff.mpr
        intro e he
        rcases mem_modify he with he | ⟨v, hv, rfl⟩
        · exact find?_eq_none_iff.mp hfind e he
        · exact absurd rfl (find?_eq_none_iff.mp hfind _ hv)
    | some v =>
        apply find?_eq_some_iff.mpr
        exact mem_modify_iff.mpr (.inr ⟨v, find?_eq_some_iff.mp hfind, rfl⟩)
  · rw [if_neg hk]
    apply Option.ext
    intro v
    rw [find?_eq_some_iff, find?_eq_some_iff, mem_modify_iff]
    constructor
    · rintro (⟨he, -⟩ | ⟨w, -, he⟩)
      · exact he
      · exact absurd (congrArg Prod.fst he) hk
    · intro he
      exact .inl ⟨he, hk⟩

theorem find?_insert_of_ne (hk : k' ≠ k) : (m.insert k v).find? k' = m.find? k' := by
  apply Option.ext
  intro w
  rw [find?_eq_some_iff, find?_eq_some_iff]
  constructor
  · intro he
    rcases mem_insert he with he | he
    · exact absurd (congrArg Prod.fst he) hk
    · exact he
  · exact mem_insertEntry_of_mem

theorem find?_insert_isSome (m : OrdMap α β) (k : α) (v : β) :
    ((m.insert k v).find? k).isSome = true := by
  cases hfind : (m.insert k v).find? k with
  | some w => rfl
  | none =>
      have hkey : k ∈ (m.insert k v).entries.map Prod.fst := mem_keys_insert.mpr (.inl rfl)
      obtain ⟨e, he, hek⟩ := List.mem_map.mp hkey
      exact absurd hek (find?_eq_none_iff.mp hfind e he)

/-- `m[k] = v`: the key is inserted if it is missing, and then the value assigned. -/
def put (m : OrdMap α β) (k : α) (v : β) : OrdMap α β := (m.insert k v).modify k fun _ => v

theorem find?_put (m : OrdMap α β) (k : α) (v : β) (k' : α) :
    (m.put k v).find? k' = if k' = k then some v else m.find? k' := by
  unfold put
  rw [find?_modify]
  by_cases hk : k' = k
  · rw [if_pos hk, if_pos hk]
    obtain ⟨w, hw⟩ := Option.isSome_iff_exists.mp (find?_insert_isSome m k v)
    rw [hw, Option.map_some]
  · rw [if_neg hk, if_neg hk, find?_insert_of_ne hk]

theorem mem_put_iff {e : α × β} :
    e ∈ (m.put k v).entries ↔ e = (k, v) ∨ e ∈ m.entries ∧ e.1 ≠ k := by
  obtain ⟨k', w⟩ := e
  rw [← find?_eq_some_iff, find?_put]
  by_cases hk : k' = k
  · rw [if_pos hk, hk]
    simp [eq_comm]
  · rw [if_neg hk, find?_eq_some_iff]
    simp [hk]

/-- A map is what it finds. -/
theorem ext_find? (h : ∀ k, m.find? k = n.find? k) : m = n := by
  apply ext
  have hmem : ∀ e, e ∈ m.entries ↔ e ∈ n.entries := by
    intro e
    rw [← find?_eq_some_iff, ← find?_eq_some_iff, h e.1]
  have hperm : m.entries.Perm n.entries := by
    refine (List.perm_ext_iff_of_nodup ?_ ?_).mpr hmem
    · exact m.nodup_keys.of_map
    · exact n.nodup_keys.of_map
  exact hperm.eq_of_pairwise (fun a b _ _ hab hba => absurd (hab.trans hba) (lt_irrefl _))
    m.sorted n.sorted

/-- What an assignment does to a sum. -/
theorem sum_put (m : OrdMap α β) (k : α) (v : β) (f : β → ℕ) :
    ((m.put k v).entries.map fun e => f e.2).sum + m.valueAt f k =
      (m.entries.map fun e => f e.2).sum + f v := by
  cases hfind : m.find? k with
  | none =>
      have hvalue : m.valueAt f k = 0 := valueAt_of_free f (find?_eq_none_iff.mp hfind)
      have hcut := entries_insert_of_find?_eq_none hfind v
      have hput : (m.put k v).entries = m.below k ++ (k, v) :: m.atLeast k :=
        entries_modify_of_cut hcut fun _ => v
      rw [hvalue, hput, ← m.below_append_atLeast k]
      simp only [List.map_append, List.map_cons, List.sum_append, List.sum_cons]
      omega
  | some w =>
      have hvalue : m.valueAt f k = f w := valueAt_of_mem f (find?_eq_some_iff.mp hfind)
      obtain ⟨pre, post, hcut⟩ := exists_cut_of_find? hfind
      have hins : (m.insert k v).entries = pre ++ (k, w) :: post := by
        rw [← hcut]
        exact entries_insert_of_find? hfind v
      have hput : (m.put k v).entries = pre ++ (k, v) :: post :=
        entries_modify_of_cut hins fun _ => v
      rw [hvalue, hput, hcut]
      simp only [List.map_append, List.map_cons, List.sum_append, List.sum_cons]
      omega

end Put

end OrdMap
