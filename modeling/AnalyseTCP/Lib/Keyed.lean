import AnalyseTCP.Lib.OrdMap
import AnalyseTCP.Lib.Run

/-!
# Components behind keys

One stream of inputs serves many components, and the key of an input says which one it is for.  A
component comes into being with the first input that can start it; what arrives for it before is
lost.  `run_find?` says that nothing crosses over: each component is where a run of its own inputs
alone would have brought it.
-/

namespace Keyed

variable {κ σ ι ε : Type*} [LinearOrder κ]
  (key : ι → κ) (start : ι → Option σ) (act : σ → ι → Except ε σ)

/-- An input of a component that may not be there yet. -/
def part (c : Option σ) (i : ι) : Except ε (Option σ) :=
  match c.or (start i) with
  | none => .ok none
  | some s => (act s i).map some

/-- An input of the whole. -/
def step (m : OrdMap κ σ) (i : ι) : Except ε (OrdMap κ σ) :=
  match (m.find? (key i)).or (start i) with
  | none => .ok m
  | some s => (act s i).map (m.put (key i))

/-- The inputs for the component at `k`. -/
def inputs (k : κ) (is : List ι) : List ι := is.filter fun i => decide (key i = k)

variable {key start act}

theorem inputs_cons_self (i : ι) (is : List ι) :
    inputs key (key i) (i :: is) = i :: inputs key (key i) is := by
  simp [inputs]

theorem inputs_cons_of_ne {k : κ} {i : ι} (hk : key i ≠ k) (is : List ι) :
    inputs key k (i :: is) = inputs key k is := by
  simp [inputs, hk]

theorem inputs_inputs_self (k : κ) (is : List ι) :
    inputs key k (inputs key k is) = inputs key k is := by
  unfold inputs
  rw [List.filter_filter]
  simp

theorem inputs_inputs_of_ne {k k' : κ} (hk : k' ≠ k) (is : List ι) :
    inputs key k' (inputs key k is) = [] := by
  apply List.filter_eq_nil_iff.mpr
  intro i hi
  have hkey : key i = k := by simpa [inputs] using (List.mem_filter.mp hi).2
  simpa [hkey] using hk.symm

/-! ## One input -/

/-- What a step does to the component it is for. -/
theorem part_of_step {m m' : OrdMap κ σ} {i : ι} (h : step key start act m i = .ok m') :
    part start act (m.find? (key i)) i = .ok (m'.find? (key i)) := by
  unfold step at h
  unfold part
  cases hs : (m.find? (key i)).or (start i) with
  | none =>
      rw [hs] at h
      obtain rfl := Except.ok.inj h
      rw [(Option.or_eq_none_iff.mp hs).1]
  | some s =>
      rw [hs] at h
      dsimp only at h ⊢
      cases hact : act s i with
      | error e =>
          rw [hact] at h
          cases h
      | ok s' =>
          rw [hact] at h
          obtain rfl := Except.ok.inj h
          rw [OrdMap.find?_put, if_pos rfl]
          rfl

/-- A step leaves every other component alone. -/
theorem find?_of_step {m m' : OrdMap κ σ} {i : ι} (h : step key start act m i = .ok m') {k : κ}
    (hk : key i ≠ k) : m'.find? k = m.find? k := by
  unfold step at h
  cases hs : (m.find? (key i)).or (start i) with
  | none =>
      rw [hs] at h
      rw [Except.ok.inj h]
  | some s =>
      rw [hs] at h
      dsimp only at h
      cases hact : act s i with
      | error e =>
          rw [hact] at h
          cases h
      | ok s' =>
          rw [hact] at h
          obtain rfl := Except.ok.inj h
          rw [OrdMap.find?_put, if_neg (Ne.symm hk)]

/-- A step succeeds where the component's own step does. -/
theorem exists_step {m : OrdMap κ σ} {i : ι} {c : Option σ}
    (h : part start act (m.find? (key i)) i = .ok c) :
    ∃ m', step key start act m i = .ok m' := by
  unfold part at h
  unfold step
  cases hs : (m.find? (key i)).or (start i) with
  | none => exact ⟨m, rfl⟩
  | some s =>
      rw [hs] at h
      dsimp only at h ⊢
      cases hact : act s i with
      | error e =>
          rw [hact] at h
          cases h
      | ok s' => exact ⟨_, rfl⟩

/-! ## Runs -/

/-- Each component goes through its own inputs and no others. -/
theorem run_find? {m m' : OrdMap κ σ} {is : List ι}
    (h : Run.run (step key start act) m is = .ok m') (k : κ) :
    Run.run (part start act) (m.find? k) (inputs key k is) = .ok (m'.find? k) := by
  induction is generalizing m with
  | nil =>
      obtain rfl := Except.ok.inj h
      rfl
  | cons i is ih =>
      obtain ⟨n, hn, hrun⟩ := Run.exists_of_run_cons h
      have ih := ih hrun
      by_cases hk : key i = k
      · subst hk
        rw [inputs_cons_self, Run.run_cons_ok (part_of_step hn)]
        exact ih
      · rw [inputs_cons_of_ne hk, ← find?_of_step hn hk]
        exact ih

/-- The whole goes through if every component does. -/
theorem exists_run {m : OrdMap κ σ} {is : List ι}
    (h : ∀ k, ∃ c, Run.run (part start act) (m.find? k) (inputs key k is) = .ok c) :
    ∃ m', Run.run (step key start act) m is = .ok m' := by
  induction is generalizing m with
  | nil => exact ⟨m, rfl⟩
  | cons i is ih =>
      -- the first input is the first one of its component too
      have hfirst := h (key i)
      rw [inputs_cons_self] at hfirst
      obtain ⟨c, hc⟩ := hfirst
      obtain ⟨c₁, hc₁, -⟩ := Run.exists_of_run_cons hc
      obtain ⟨n, hn⟩ := exists_step hc₁
      have hrest : ∀ k, ∃ c, Run.run (part start act) (n.find? k) (inputs key k is) = .ok c := by
        intro k
        obtain ⟨d, hd⟩ := h k
        by_cases hk : key i = k
        · subst hk
          rw [inputs_cons_self, Run.run_cons_ok (part_of_step hn)] at hd
          exact ⟨d, hd⟩
        · rw [inputs_cons_of_ne hk, ← find?_of_step hn hk] at hd
          exact ⟨d, hd⟩
      obtain ⟨m', hm'⟩ := ih hrest
      exact ⟨m', (Run.run_cons_ok hn).trans hm'⟩

/-- Two orders of the inputs that no component can tell apart have the same result. -/
theorem run_congr {m m' : OrdMap κ σ} {is js : List ι}
    (hsame : ∀ k, inputs key k is = inputs key k js)
    (h : Run.run (step key start act) m is = .ok m') :
    Run.run (step key start act) m js = .ok m' := by
  obtain ⟨n, hn⟩ : ∃ n, Run.run (step key start act) m js = .ok n := by
    apply exists_run
    intro k
    rw [← hsame k]
    exact ⟨_, run_find? h k⟩
  have hfind : ∀ k, n.find? k = m'.find? k := by
    intro k
    have hjs := run_find? hn k
    rw [← hsame k, run_find? h k] at hjs
    exact (Except.ok.inj hjs).symm
  rw [hn, OrdMap.ext_find? hfind]

/-- The inputs of one component alone bring it to the same state, and touch no other. -/
theorem run_inputs {m m' : OrdMap κ σ} {is : List ι}
    (h : Run.run (step key start act) m is = .ok m') (k : κ) :
    ∃ n, Run.run (step key start act) m (inputs key k is) = .ok n ∧ n.find? k = m'.find? k ∧
      ∀ k', k' ≠ k → n.find? k' = m.find? k' := by
  have halone : ∃ n, Run.run (step key start act) m (inputs key k is) = .ok n := by
    apply exists_run
    intro k'
    by_cases hk : k' = k
    · rw [hk, inputs_inputs_self]
      exact ⟨_, run_find? h k⟩
    · rw [inputs_inputs_of_ne hk]
      exact ⟨_, rfl⟩
  obtain ⟨n, hn⟩ := halone
  refine ⟨n, hn, ?_, fun k' hk => ?_⟩
  · have hself := run_find? hn k
    rw [inputs_inputs_self, run_find? h k] at hself
    exact (Except.ok.inj hself).symm
  · have hother := run_find? hn k'
    rw [inputs_inputs_of_ne hk] at hother
    exact (Except.ok.inj hother).symm

/-- The whole goes through exactly if the inputs of each component alone do. -/
theorem exists_run_iff_each {m : OrdMap κ σ} {is : List ι} :
    (∃ m', Run.run (step key start act) m is = .ok m') ↔
      ∀ k, ∃ n, Run.run (step key start act) m (inputs key k is) = .ok n := by
  constructor
  · rintro ⟨m', h⟩ k
    obtain ⟨n, hn, -⟩ := run_inputs h k
    exact ⟨n, hn⟩
  · intro h
    apply exists_run
    intro k
    obtain ⟨n, hn⟩ := h k
    have hself := run_find? hn k
    rw [inputs_inputs_self] at hself
    exact ⟨_, hself⟩

/-! ## A component from its start on -/

theorem run_part_some {s : σ} {is : List ι} {c : Option σ}
    (h : Run.run (part start act) (some s) is = .ok c) :
    ∃ t, c = some t ∧ Run.run act s is = .ok t := by
  induction is generalizing s with
  | nil => exact ⟨s, (Except.ok.inj h).symm, rfl⟩
  | cons i is ih =>
      obtain ⟨d, hd, hrun⟩ := Run.exists_of_run_cons h
      unfold part at hd
      rw [Option.some_or] at hd
      dsimp only at hd
      cases hact : act s i with
      | error e =>
          rw [hact] at hd
          cases hd
      | ok s' =>
          rw [hact] at hd
          obtain rfl := Except.ok.inj hd
          obtain ⟨t, ht, hrun⟩ := ih hrun
          exact ⟨t, ht, (Run.run_cons_ok hact).trans hrun⟩

/-- What arrives before the component can start is lost, and nothing else. -/
theorem run_part_none {is : List ι} {t : σ}
    (h : Run.run (part start act) none is = .ok (some t)) :
    ∃ lost i rest s, is = lost ++ i :: rest ∧ (∀ j ∈ lost, start j = none) ∧ start i = some s ∧
      Run.run act s (i :: rest) = .ok t := by
  induction is with
  | nil => cases h
  | cons i is ih =>
      obtain ⟨c, hc, hrun⟩ := Run.exists_of_run_cons h
      unfold part at hc
      rw [Option.none_or] at hc
      cases hs : start i with
      | none =>
          rw [hs] at hc
          obtain rfl := Except.ok.inj hc
          obtain ⟨lost, j, rest, s, rfl, hlost, hj, hact⟩ := ih hrun
          refine ⟨i :: lost, j, rest, s, rfl, ?_, hj, hact⟩
          exact List.forall_mem_cons.mpr ⟨hs, hlost⟩
      | some s =>
          rw [hs] at hc
          dsimp only at hc
          cases hact : act s i with
          | error e =>
              rw [hact] at hc
              cases hc
          | ok s' =>
              rw [hact] at hc
              obtain rfl := Except.ok.inj hc
              obtain ⟨t', ht', hrun⟩ := run_part_some hrun
              obtain rfl := Option.some.inj ht'
              refine ⟨[], i, is, s, rfl, fun _ hj => (nomatch hj), hs, ?_⟩
              exact (Run.run_cons_ok hact).trans hrun

/-- A component that is there at the end was started by one of its inputs. -/
theorem exists_of_run_find? {m' : OrdMap κ σ} {is : List ι} {k : κ} {t : σ}
    (h : Run.run (step key start act) OrdMap.empty is = .ok m') (ht : m'.find? k = some t) :
    ∃ lost i rest s, inputs key k is = lost ++ i :: rest ∧ (∀ j ∈ lost, start j = none) ∧
      start i = some s ∧ Run.run act s (i :: rest) = .ok t := by
  have hpart := run_find? h k
  rw [ht] at hpart
  exact run_part_none hpart

end Keyed
