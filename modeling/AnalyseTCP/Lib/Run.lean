import Mathlib.Data.List.Forall2
import Mathlib.Tactic.Linarith

/-!
# Runs of a fallible step function

A run feeds a list of inputs to `step`, one after the other, and stops at the first error.
`Run.Steps ok s is` says that every input of the run meets `ok` in the state in which it arrives.
The two rules below are the only inductions over runs: what each step keeps, every run keeps, and
if each step succeeds, so does the run.
-/

namespace Run

theorem ok_bind {ε : Type*} {α β : Type} (a : α) (f : α → Except ε β) :
    (Except.ok a >>= f) = f a := rfl

/-- A computation in two steps succeeds only if both do. -/
theorem exists_of_bind_ok {ε : Type*} {α β : Type} {x : Except ε α} {f : α → Except ε β} {b : β}
    (h : (x >>= f) = .ok b) : ∃ a, x = .ok a ∧ f a = .ok b :=
  match x, h with
  | .ok a, h => ⟨a, rfl, h⟩

/-- A computation in two steps fails where one of them does. -/
theorem of_bind_error {ε : Type*} {α β : Type} {x : Except ε α} {f : α → Except ε β} {e : ε}
    (h : (x >>= f) = .error e) : x = .error e ∨ ∃ a, x = .ok a ∧ f a = .error e :=
  match x, h with
  | .error _, rfl => .inl rfl
  | .ok a, h => .inr ⟨a, rfl, h⟩

theorem mapM_eq_ok_iff {ε : Type*} {α β : Type} {f : α → Except ε β} {l : List α} {ys : List β} :
    l.mapM f = .ok ys ↔ List.Forall₂ (fun a b => f a = .ok b) l ys := by
  induction l generalizing ys with
  | nil =>
      rw [List.mapM_nil, List.forall₂_nil_left_iff]
      exact ⟨fun h => (Except.ok.inj h).symm, fun h => h ▸ rfl⟩
  | cons a l ih =>
      rw [List.mapM_cons]
      constructor
      · intro h
        obtain ⟨b, hb, h⟩ := exists_of_bind_ok h
        obtain ⟨bs, hbs, h⟩ := exists_of_bind_ok h
        obtain rfl := Except.ok.inj h
        exact .cons hb (ih.mp hbs)
      · intro h
        cases h with
        | cons hb hbs =>
            rw [hb, ih.mpr hbs]
            rfl

/-- A decidable property of the result, checked by evaluation. -/
theorem of_all_toOption {ε α : Type*} {x : Except ε α} {p : α → Prop} [DecidablePred p]
    (h : (x.toOption.all fun a => decide (p a)) = true) {a : α} (hx : x = .ok a) : p a := by
  subst hx
  simpa [Except.toOption] using h

/-- A result with a decidable property, found by evaluation. -/
theorem exists_of_any_toOption {ε α : Type*} {x : Except ε α} {p : α → Bool}
    (h : x.toOption.any p = true) : ∃ a, x = .ok a ∧ p a = true :=
  match x, h with
  | .ok a, h => ⟨a, rfl, h⟩

variable {σ ι ε : Type*} (step : σ → ι → Except ε σ)

/-- The state after all inputs. -/
def run : σ → List ι → Except ε σ
  | s, [] => .ok s
  | s, i :: is =>
      match step s i with
      | .ok s' => run s' is
      | .error e => .error e

/-- Every input meets `ok` in the state it arrives in. -/
def Steps (ok : σ → ι → Prop) : σ → List ι → Prop
  | _, [] => True
  | s, i :: is => ok s i ∧ ∀ s', step s i = .ok s' → Steps ok s' is

variable {step} {ok : σ → ι → Prop}

instance decidableSteps [∀ s i, Decidable (ok s i)] :
    (s : σ) → (is : List ι) → Decidable (Steps step ok s is)
  | _, [] => .isTrue trivial
  | s, i :: is =>
      match hs : step s i with
      | .error _ =>
          decidable_of_iff (ok s i) ⟨fun h => ⟨h, fun _ hs' => nomatch hs.symm.trans hs'⟩, And.left⟩
      | .ok s' =>
          have := decidableSteps s' is
          decidable_of_iff (ok s i ∧ Steps step ok s' is)
            ⟨fun h => ⟨h.1, fun _ ht => Except.ok.inj (hs.symm.trans ht) ▸ h.2⟩,
              fun h => ⟨h.1, h.2 s' hs⟩⟩

theorem run_cons_ok {s s' : σ} {i : ι} {is : List ι} (h : step s i = .ok s') :
    run step s (i :: is) = run step s' is := by
  rw [run, h]

theorem exists_of_run_cons {s t : σ} {i : ι} {is : List ι} (h : run step s (i :: is) = .ok t) :
    ∃ s', step s i = .ok s' ∧ run step s' is = .ok t := by
  rw [run] at h
  split at h
  · next s' hs => exact ⟨s', hs, h⟩
  · cases h

theorem run_append_of_ok {s t : σ} {is js : List ι} (h : run step s is = .ok t) :
    run step s (is ++ js) = run step t js := by
  induction is generalizing s with
  | nil => rw [Except.ok.inj h, List.nil_append]
  | cons i is ih =>
      obtain ⟨s', hs, hrun⟩ := exists_of_run_cons h
      rw [List.cons_append, run_cons_ok hs, ih hrun]

/-- A run of an input more is a run, and one step. -/
theorem exists_of_run_concat {s u : σ} {is : List ι} {i : ι}
    (h : run step s (is ++ [i]) = .ok u) :
    ∃ t, run step s is = .ok t ∧ step t i = .ok u := by
  induction is generalizing s with
  | nil =>
      obtain ⟨t, ht, hrun⟩ := exists_of_run_cons h
      obtain rfl := Except.ok.inj hrun
      exact ⟨s, rfl, ht⟩
  | cons j is ih =>
      obtain ⟨s', hs, hrun⟩ := exists_of_run_cons h
      obtain ⟨t, ht, hstep⟩ := ih hrun
      exact ⟨t, (run_cons_ok hs).trans ht, hstep⟩

/-- A part of the state that takes steps of its own: its runs are those of the whole. -/
theorem run_map {τ ε' : Type*} {step' : τ → ι → Except ε' τ} {f : σ → τ}
    (hok : ∀ s i s', step s i = .ok s' → step' (f s) i = .ok (f s')) {s t : σ} {is : List ι}
    (h : run step s is = .ok t) : run step' (f s) is = .ok (f t) := by
  induction is generalizing s with
  | nil => rw [Except.ok.inj h, run]
  | cons i is ih =>
      obtain ⟨s', hs, hrun⟩ := exists_of_run_cons h
      rw [run_cons_ok (hok s i s' hs), ih hrun]

/-- A run over two lists is two runs. -/
theorem exists_of_run_append {s u : σ} {is js : List ι} (h : run step s (is ++ js) = .ok u) :
    ∃ t, run step s is = .ok t ∧ run step t js = .ok u := by
  induction is generalizing s with
  | nil => exact ⟨s, rfl, h⟩
  | cons i is ih =>
      obtain ⟨s', hs, hrun⟩ := exists_of_run_cons h
      obtain ⟨t, ht, hrest⟩ := ih hrun
      exact ⟨t, (run_cons_ok hs).trans ht, hrest⟩

theorem steps_true (s : σ) (is : List ι) : Steps step (fun _ _ => True) s is := by
  induction is generalizing s with
  | nil => trivial
  | cons i is ih => exact ⟨trivial, fun s' _ => ih s'⟩

theorem Steps.and {ok' : σ → ι → Prop} {s : σ} {is : List ι} (h : Steps step ok s is)
    (h' : Steps step ok' s is) : Steps step (fun s i => ok s i ∧ ok' s i) s is := by
  induction is generalizing s with
  | nil => trivial
  | cons i is ih => exact ⟨⟨h.1, h'.1⟩, fun s' hs => ih (h.2 s' hs) (h'.2 s' hs)⟩

/-- A condition on the inputs alone may be checked before the run. -/
theorem Steps.and_forall {P : ι → Prop} {s : σ} {is : List ι} (h : Steps step ok s is)
    (hP : ∀ i ∈ is, P i) : Steps step (fun s i => ok s i ∧ P i) s is := by
  induction is generalizing s with
  | nil => trivial
  | cons i is ih =>
      refine ⟨⟨h.1, hP i List.mem_cons_self⟩, fun s' hs => ?_⟩
      exact ih (h.2 s' hs) fun j hj => hP j (List.mem_cons_of_mem i hj)

/-- What every step keeps, every run keeps.  `I` may also speak of the inputs seen so far. -/
theorem invariant {I : σ → List ι → Prop}
    (hstep : ∀ s i s' d, I s d → ok s i → step s i = .ok s' → I s' (d ++ [i]))
    {s t : σ} {d is : List ι} (hinv : I s d) (hok : Steps step ok s is)
    (hrun : run step s is = .ok t) : I t (d ++ is) := by
  induction is generalizing s d with
  | nil =>
      obtain rfl := Except.ok.inj hrun
      simpa using hinv
  | cons i is ih =>
      obtain ⟨s', hs, hrun⟩ := exists_of_run_cons hrun
      have hinv' := hstep s i s' d hinv hok.1 hs
      simpa using ih hinv' (hok.2 s' hs) hrun

/-- A run that fails does so in one of its steps. -/
theorem error_of_run {I : σ → Prop} {P : ι → Prop} {E : ε → Prop}
    (hstep : ∀ s i s', I s → P i → step s i = .ok s' → I s')
    (herror : ∀ s i e, I s → P i → step s i = .error e → E e) {s : σ} {is : List ι} {e : ε}
    (hinv : I s) (his : ∀ i ∈ is, P i) (hrun : run step s is = .error e) : E e := by
  induction is generalizing s with
  | nil => cases hrun
  | cons i is ih =>
      have hi := his i List.mem_cons_self
      rw [run] at hrun
      split at hrun
      · next s' hs => exact ih (hstep s i s' hinv hi hs) (fun j hj => his j (.tail i hj)) hrun
      · next e' hs =>
          rw [← Except.error.inj hrun]
          exact herror s i e' hinv hi hs

/-- When every step of a run succeeds, the run reaches a final state. -/
theorem exists_ok {I : σ → List ι → Prop}
    (hstep : ∀ s i d, I s d → ok s i → ∃ s', step s i = .ok s' ∧ I s' (d ++ [i]))
    {s : σ} {d is : List ι} (hinv : I s d) (hok : Steps step ok s is) :
    ∃ t, run step s is = .ok t ∧ I t (d ++ is) := by
  induction is generalizing s d with
  | nil => exact ⟨s, rfl, by simpa using hinv⟩
  | cons i is ih =>
      obtain ⟨s', hs, hinv'⟩ := hstep s i d hinv hok.1
      obtain ⟨t, ht, hfin⟩ := ih hinv' (hok.2 s' hs)
      exact ⟨t, (run_cons_ok hs).trans ht, by simpa using hfin⟩

/-- A run returns exactly when every step does, if `ok` says when a step returns. -/
theorem exists_ok_iff {I : σ → Prop} {P : ι → Prop}
    (hstep : ∀ s i s', I s → P i → step s i = .ok s' → I s')
    (hok : ∀ s i, I s → P i → ((∃ s', step s i = .ok s') ↔ ok s i))
    {s : σ} {is : List ι} (hinv : I s) (his : ∀ i ∈ is, P i) :
    (∃ t, run step s is = .ok t) ↔ Steps step ok s is := by
  induction is generalizing s with
  | nil => exact iff_of_true ⟨s, rfl⟩ trivial
  | cons i is ih =>
      have hi := his i List.mem_cons_self
      have hrest : ∀ s', step s i = .ok s' → ((∃ t, run step s' is = .ok t) ↔ Steps step ok s' is) :=
        fun s' hs => ih (hstep s i s' hinv hi hs) fun j hj => his j (List.mem_cons_of_mem i hj)
      constructor
      · rintro ⟨t, hrun⟩
        obtain ⟨s', hs, hrun⟩ := exists_of_run_cons hrun
        refine ⟨(hok s i hinv hi).mp ⟨s', hs⟩, fun s'' hs' => ?_⟩
        obtain rfl := Except.ok.inj (hs.symm.trans hs')
        exact (hrest s' hs).mp ⟨t, hrun⟩
      · rintro ⟨hfirst, hsteps⟩
        obtain ⟨s', hs⟩ := (hok s i hinv hi).mpr hfirst
        obtain ⟨t, hrun⟩ := (hrest s' hs).mpr (hsteps s' hs)
        exact ⟨t, (run_cons_ok hs).trans hrun⟩

/-! ## Conditions on the inputs before -/

section After

variable (step) (okAfter : List ι → σ → ι → Prop)

/-- Every input meets `okAfter`, which may also speak of the inputs before it. -/
def StepsAfter : List ι → σ → List ι → Prop
  | _, _, [] => True
  | d, s, i :: is => okAfter d s i ∧ ∀ s', step s i = .ok s' → StepsAfter (d ++ [i]) s' is

variable {step} {okAfter}

instance decidableStepsAfter [∀ d s i, Decidable (okAfter d s i)] :
    (d : List ι) → (s : σ) → (is : List ι) → Decidable (StepsAfter step okAfter d s is)
  | _, _, [] => .isTrue trivial
  | d, s, i :: is =>
      match hs : step s i with
      | .error _ =>
          decidable_of_iff (okAfter d s i)
            ⟨fun h => ⟨h, fun _ hs' => nomatch hs.symm.trans hs'⟩, And.left⟩
      | .ok s' =>
          have := decidableStepsAfter (d ++ [i]) s' is
          decidable_of_iff (okAfter d s i ∧ StepsAfter step okAfter (d ++ [i]) s' is)
            ⟨fun h => ⟨h.1, fun _ ht => Except.ok.inj (hs.symm.trans ht) ▸ h.2⟩,
              fun h => ⟨h.1, h.2 s' hs⟩⟩

/-- What the input `i` of a run meets in the state it arrives in. -/
theorem StepsAfter.meets {s t : σ} {d before after : List ι} {i : ι}
    (h : StepsAfter step okAfter d s (before ++ i :: after)) (hrun : run step s before = .ok t) :
    okAfter (d ++ before) t i := by
  induction before generalizing s d with
  | nil =>
      obtain rfl := Except.ok.inj hrun
      rw [List.append_nil]
      exact h.1
  | cons j before ih =>
      obtain ⟨s', hs, hrun⟩ := exists_of_run_cons hrun
      simpa using ih (h.2 s' hs) hrun

/-- A relation between the inputs holds between an input and all before it. -/
theorem stepsAfter_of_pairwise {R : ι → ι → Prop} {s : σ} {d is : List ι}
    (h : (d ++ is).Pairwise R) : StepsAfter step (fun d _ i => ∀ j ∈ d, R j i) d s is := by
  induction is generalizing s d with
  | nil => trivial
  | cons i is ih =>
      refine ⟨fun j hj => ?_, fun s' _ => ?_⟩
      · exact (List.pairwise_append.mp h).2.2 j hj i List.mem_cons_self
      · apply ih
        simpa using h

/-- `Run.invariant` for conditions on the inputs before. -/
theorem invariant_after {I : σ → List ι → Prop} {P : ι → Prop}
    (hstep : ∀ s i s' d, I s d → okAfter d s i → P i → step s i = .ok s' → I s' (d ++ [i]))
    {s t : σ} {d is : List ι} (hinv : I s d) (hok : StepsAfter step okAfter d s is)
    (hP : ∀ i ∈ is, P i) (hrun : run step s is = .ok t) : I t (d ++ is) := by
  induction is generalizing s d with
  | nil =>
      obtain rfl := Except.ok.inj hrun
      simpa using hinv
  | cons i is ih =>
      obtain ⟨s', hs, hrun⟩ := exists_of_run_cons hrun
      obtain ⟨hi, his⟩ := List.forall_mem_cons.mp hP
      have hinv' := hstep s i s' d hinv hok.1 hi hs
      simpa using ih hinv' (hok.2 s' hs) his hrun

/-- A second system that can answer every step of a run has a run of its own beside it. -/
theorem simulates_after {τ ε' : Type*} {step' : τ → ι → Except ε' τ} {R : σ → τ → List ι → Prop}
    {P : ι → Prop}
    (hstep : ∀ s u i s' d, R s u d → okAfter d s i → P i → step s i = .ok s' →
      ∃ u', step' u i = .ok u' ∧ R s' u' (d ++ [i]))
    {s s' : σ} {u : τ} {d is : List ι} (hrel : R s u d) (hok : StepsAfter step okAfter d s is)
    (hP : ∀ i ∈ is, P i) (hrun : run step s is = .ok s') :
    ∃ u', run step' u is = .ok u' ∧ R s' u' (d ++ is) := by
  induction is generalizing s u d with
  | nil =>
      obtain rfl := Except.ok.inj hrun
      exact ⟨u, rfl, by simpa using hrel⟩
  | cons i is ih =>
      obtain ⟨t, ht, hrun⟩ := exists_of_run_cons hrun
      obtain ⟨hi, his⟩ := List.forall_mem_cons.mp hP
      obtain ⟨v, hv, hrel'⟩ := hstep s u i t d hrel hok.1 hi ht
      obtain ⟨u', hu', hfin⟩ := ih hrel' (hok.2 t ht) his hrun
      exact ⟨u', (run_cons_ok hv).trans hu', by simpa using hfin⟩

end After

end Run
