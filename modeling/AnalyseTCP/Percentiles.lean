import AnalyseTCP.Common
import AnalyseTCP.Lib.OrdMap
import AnalyseTCP.Lib.Run
import Mathlib.Data.Rat.Floor
import Mathlib.Data.String.Basic
import Mathlib.Tactic.FieldSimp

/-!
# `Percentiles` and `BaseStats`

A `double` is an exact rational here, and `number` is what an `istringstream` reads from a token.

The value of a percentile is looked up at the position `ceil(n * p / 100)` of the sorted values, one
further than the percentage needs.  It is large enough wherever it exists, but for few values or a
high percentile it is the position behind the last one.
-/

namespace AnalyseTCP

namespace Percentiles

/-- `Percentiles::init` on the tokens of `GlobOpts::percentiles`. -/
def init (number : String → ℚ) (tokens : List String) : OrdMap String ℚ :=
  tokens.foldl (fun ps t => if 100 ≤ number t then ps else ps.insert t 0) .empty

/-- `(int) ceil(v.size() * (num / 100.0))`, before the conversion. -/
def position (n : ℕ) (num : ℚ) : ℤ := ⌈(n : ℚ) * (num / 100)⌉

/-- `*it_p`. -/
def valueAt (v : List ℚ) (num : ℚ) : Except Abort ℚ :=
  -- a position that is negative or no `int` is outside of the vector or undefined
  if 0 ≤ position v.length num ∧ position v.length num < 2 ^ 31 then
    match v[(position v.length num).toNat]? with
    | none => .error .outOfRange
    | some x => .ok x
  else .error .outOfRange

def computeAt (number : String → ℚ) (v : List ℚ) (ps : OrdMap String ℚ) (t : String) :
    Except Abort (OrdMap String ℚ) := do
  let x ← valueAt v (number t)
  return ps.modify t fun _ => x

def compute (number : String → ℚ) (ps : OrdMap String ℚ) (v : List ℚ) :
    Except Abort (OrdMap String ℚ) :=
  Run.run (computeAt number v) ps (ps.entries.map Prod.fst)

end Percentiles

/-- The standard deviation, which nothing reads, is left out, and so is the assertion that
`_counter`, which counts the values, is their number. -/
structure BaseStats where
  percentiles : OrdMap String ℚ
  counter : ℕ := 0
  min : ℕ := 2 ^ 64 - 1
  max : ℕ := 0
  cum : ℕ := 0
  valid : Bool := true
  values : List ℚ := []

namespace BaseStats

def init (number : String → ℚ) (tokens : List String) : BaseStats where
  percentiles := Percentiles.init number tokens

def add (s : BaseStats) (val : ℕ) : BaseStats :=
  { s with
    counter := add32 s.counter 1
    min := Nat.min s.min val
    max := Nat.max s.max val
    cum := add64 s.cum val
    values := s.values ++ [(val : ℚ)] }

def makeStats (number : String → ℚ) (s : BaseStats) : Except Abort BaseStats :=
  if s.values = [] then .ok { s with valid := false }
  else do
    let values := s.values.mergeSort
    let ps ← Percentiles.compute number s.percentiles values
    return { s with values := values, percentiles := ps }

end BaseStats

namespace Percentiles

section Lookup

variable {v : List ℚ} {num x : ℚ}

theorem position_nonneg (n : ℕ) (hnum : 0 ≤ num) : 0 ≤ position n num :=
  Int.ceil_nonneg (mul_nonneg (Nat.cast_nonneg n) (div_nonneg hnum (by norm_num)))

/-- A position at or below `m`, as a bound on the percentile. -/
theorem position_le_iff {n : ℕ} {m : ℤ} : position n num ≤ m ↔ n * num ≤ 100 * m := by
  unfold position
  rw [Int.ceil_le, ← mul_div_assoc, div_le_iff₀ (by norm_num), mul_comm (m : ℚ)]

/-- The percentile has a position in `n` values, and the position is an `int`. -/
def Lands (n : ℕ) (num : ℚ) : Prop := 100 ≤ n * (100 - num) ∧ n * num ≤ 100 * (2 ^ 31 - 1)

instance (n : ℕ) (num : ℚ) : Decidable (Lands n num) := inferInstanceAs (Decidable (_ ∧ _))

theorem lands_iff {n : ℕ} : Lands n num ↔ position n num < n ∧ position n num < 2 ^ 31 := by
  unfold Lands
  rw [← Int.le_sub_one_iff, ← Int.le_sub_one_iff, position_le_iff, position_le_iff]
  push_cast
  constructor
  · rintro ⟨h, h'⟩
    constructor <;> linarith
  · rintro ⟨h, h'⟩
    constructor <;> linarith

theorem valueAt_ok_iff (hnum : 0 ≤ num) :
    (∃ x, valueAt v num = .ok x) ↔ Lands v.length num := by
  have hnonneg := position_nonneg v.length hnum
  rw [lands_iff]
  unfold valueAt
  constructor
  · rintro ⟨x, hx⟩
    split_ifs at hx with hint
    split at hx
    · cases hx
    · next y hy =>
      have hlt := (List.getElem?_eq_some_iff.mp hy).1
      exact ⟨by omega, hint.2⟩
  · rintro ⟨hlt, hint⟩
    have hin : (position v.length num).toNat < v.length := by omega
    rw [if_pos ⟨hnonneg, hint⟩, List.getElem?_eq_getElem hin]
    exact ⟨_, rfl⟩

/-- In sorted values, those up to a position are at most the value there. -/
theorem lt_countP_of_sorted (hsorted : v.Pairwise (· ≤ ·)) {i : ℕ} (hi : i < v.length) :
    i < v.countP fun y => decide (y ≤ v[i]) := by
  have hfront : ∀ y ∈ v.take (i + 1), decide (y ≤ v[i]) = true := by
    intro y hy
    obtain ⟨j, hj, rfl⟩ := List.mem_take_iff_getElem.mp hy
    apply decide_eq_true
    rcases Nat.lt_or_ge j i with hlt | hge
    · exact List.pairwise_iff_getElem.mp hsorted j i (by omega) hi hlt
    · have hji : j = i := by omega
      subst hji
      exact le_rfl
  -- the values up to the position are `i + 1` of those counted
  have hcount := (List.take_sublist (i + 1) v).countP_le (p := fun y => decide (y ≤ v[i]))
  rw [List.countP_eq_length.mpr hfront, List.length_take, min_eq_left (by omega)] at hcount
  omega

/-- At least `num` percent of the values are at most `x`. -/
def Reaches (v : List ℚ) (num x : ℚ) : Prop :=
  num / 100 * v.length ≤ v.countP fun y => decide (y ≤ x)

instance (v : List ℚ) (num x : ℚ) : Decidable (Reaches v num x) :=
  inferInstanceAs (Decidable (_ ≤ _))

/-- Wherever it exists, the value is large enough. -/
theorem valueAt_reaches (hsorted : v.Pairwise (· ≤ ·)) (h : valueAt v num = .ok x) :
    Reaches v num x := by
  unfold valueAt at h
  split_ifs at h with hint
  split at h
  · cases h
  next y hy =>
  obtain rfl := Except.ok.inj h
  obtain ⟨hi, rfl⟩ := List.getElem?_eq_some_iff.mp hy
  have hceil := Int.le_ceil ((v.length : ℚ) * (num / 100))
  have hcast : ((position v.length num).toNat : ℚ) = ((position v.length num : ℤ) : ℚ) := by
    exact_mod_cast congrArg (Int.cast (R := ℚ)) (Int.toNat_of_nonneg hint.1)
  have hcount : ((position v.length num).toNat : ℚ) ≤
      v.countP fun y => decide (y ≤ v[(position v.length num).toNat]) := by
    exact_mod_cast (lt_countP_of_sorted hsorted hi).le
  unfold Reaches
  calc num / 100 * v.length = v.length * (num / 100) := mul_comm _ _
    _ ≤ (position v.length num : ℤ) := hceil
    _ = ((position v.length num).toNat : ℚ) := hcast.symm
    _ ≤ _ := hcount

end Lookup

/-! ## All percentiles -/

section Compute

variable {number : String → ℚ} {v : List ℚ} {ps ps' : OrdMap String ℚ}

theorem keys_init (number : String → ℚ) (tokens : List String) (t : String) :
    t ∈ (init number tokens).entries.map Prod.fst ↔ t ∈ tokens ∧ number t < 100 := by
  have hfold : ∀ (l : List String) (ps : OrdMap String ℚ),
      t ∈ (l.foldl (fun ps t => if 100 ≤ number t then ps else ps.insert t 0) ps).entries.map
          Prod.fst ↔ t ∈ ps.entries.map Prod.fst ∨ t ∈ l ∧ number t < 100 := by
    intro l
    induction l with
    | nil => simp
    | cons d l ih =>
      intro ps
      rw [List.foldl_cons, ih]
      by_cases hbig : 100 ≤ number d
      · rw [if_pos hbig, List.mem_cons]
        have hnot : ¬(t = d ∧ number t < 100) := by
          rintro ⟨rfl, hlt⟩
          exact absurd hbig (not_le.mpr hlt)
        tauto
      · rw [if_neg hbig, OrdMap.mem_keys_insert, List.mem_cons]
        have hself : t = d → number t < 100 := fun h => h ▸ not_le.mp hbig
        tauto
  rw [init, hfold]
  simp

theorem computeAt_ok {t : String} (h : computeAt number v ps t = .ok ps') :
    ∃ x, valueAt v (number t) = .ok x ∧ ps' = ps.modify t fun _ => x := by
  obtain ⟨x, hx, h⟩ := Run.exists_of_bind_ok h
  exact ⟨x, hx, (Except.ok.inj h).symm⟩

theorem run_computeAt_ok_iff {l : List String} :
    (∃ ps', Run.run (computeAt number v) ps l = .ok ps') ↔
      ∀ t ∈ l, ∃ x, valueAt v (number t) = .ok x := by
  induction l generalizing ps with
  | nil => exact iff_of_true ⟨ps, rfl⟩ (List.forall_mem_nil _)
  | cons t l ih =>
    rw [List.forall_mem_cons]
    constructor
    · rintro ⟨ps', hrun⟩
      obtain ⟨ps₁, hstep, hrun⟩ := Run.exists_of_run_cons hrun
      obtain ⟨x, hx, -⟩ := computeAt_ok hstep
      exact ⟨⟨x, hx⟩, ih.mp ⟨ps', hrun⟩⟩
    · rintro ⟨⟨x, hx⟩, hrest⟩
      have hstep : computeAt number v ps t = .ok (ps.modify t fun _ => x) := by
        unfold computeAt
        rw [hx, Run.ok_bind]
        rfl
      obtain ⟨ps', hrun⟩ := ih.mpr hrest
      exact ⟨ps', (Run.run_cons_ok hstep).trans hrun⟩

/-- After the loop the keys are the same, and every value is the one that was looked up. -/
theorem compute_values (h : compute number ps v = .ok ps') :
    ps'.entries.map Prod.fst = ps.entries.map Prod.fst ∧
      ∀ e ∈ ps'.entries, valueAt v (number e.1) = .ok e.2 := by
  -- the invariant: the percentiles that the loop has passed have their values
  have hinv : ps'.entries.map Prod.fst = ps.entries.map Prod.fst ∧
      ∀ e ∈ ps'.entries, e.1 ∈ [] ++ ps.entries.map Prod.fst →
        valueAt v (number e.1) = .ok e.2 := by
    refine Run.invariant
      (I := fun s d => s.entries.map Prod.fst = ps.entries.map Prod.fst ∧
        ∀ e ∈ s.entries, e.1 ∈ d → valueAt v (number e.1) = .ok e.2)
      ?_ ⟨rfl, fun e _ he => absurd he List.not_mem_nil⟩ (Run.steps_true _ _) h
    rintro s t s' d ⟨hkeys, hvals⟩ - hstep
    obtain ⟨x, hx, rfl⟩ := computeAt_ok hstep
    refine ⟨(OrdMap.keys_modify s t _).trans hkeys, fun e he hd => ?_⟩
    rcases OrdMap.mem_modify_iff.mp he with ⟨he, hne⟩ | ⟨y, -, rfl⟩
    · rcases List.mem_append.mp hd with hd | hd
      · exact hvals e he hd
      · exact absurd (List.mem_singleton.mp hd) hne
    · exact hx
  refine ⟨hinv.1, fun e he => hinv.2 e he ?_⟩
  rw [List.nil_append, ← hinv.1]
  exact List.mem_map_of_mem he

section Accepted

variable {tokens : List String} (hpos : ∀ t ∈ tokens, number t < 100 → 0 < number t)
include hpos

theorem nonneg_of_mem_keys {t : String} (h : t ∈ (init number tokens).entries.map Prod.fst) :
    0 ≤ number t := by
  obtain ⟨ht, hlt⟩ := (keys_init number tokens t).mp h
  exact (hpos t ht hlt).le

theorem compute_ok_iff : (∃ ps', compute number (init number tokens) v = .ok ps') ↔
    ∀ t ∈ tokens, number t < 100 → Lands v.length (number t) := by
  unfold compute
  rw [run_computeAt_ok_iff]
  constructor
  · intro h t ht hlt
    have hkey := (keys_init number tokens t).mpr ⟨ht, hlt⟩
    exact (valueAt_ok_iff (nonneg_of_mem_keys hpos hkey)).mp (h t hkey)
  · intro h t hkey
    obtain ⟨ht, hlt⟩ := (keys_init number tokens t).mp hkey
    exact (valueAt_ok_iff (nonneg_of_mem_keys hpos hkey)).mpr (h t ht hlt)

theorem compute_reaches (hsorted : v.Pairwise (· ≤ ·))
    (h : compute number (init number tokens) v = .ok ps') {e : String × ℚ} (he : e ∈ ps'.entries) :
    position v.length (number e.1) < v.length ∧ Reaches v (number e.1) e.2 := by
  obtain ⟨hkeys, hvals⟩ := compute_values h
  have hkey : e.1 ∈ (init number tokens).entries.map Prod.fst := hkeys ▸ List.mem_map_of_mem he
  have hval := hvals e he
  have hlands := (valueAt_ok_iff (nonneg_of_mem_keys hpos hkey)).mp ⟨e.2, hval⟩
  exact ⟨(lands_iff.mp hlands).1, valueAt_reaches hsorted hval⟩

end Accepted

/-- The loop reaches its end and leaves every percentile with a value that is large enough. -/
def Accurate (number : String → ℚ) (ps : OrdMap String ℚ) (v : List ℚ) : Prop :=
  ∃ ps', compute number ps v = .ok ps' ∧ ps'.entries.map Prod.fst = ps.entries.map Prod.fst ∧
    ∀ e ∈ ps'.entries, position v.length (number e.1) < v.length ∧ Reaches v (number e.1) e.2

end Compute

end Percentiles

/-- `makeStats` sorts the values and looks the percentiles up in them. -/
theorem BaseStats.makeStats_reaches {number : String → ℚ} {tokens : List String} {s s' : BaseStats}
    (hpos : ∀ t ∈ tokens, number t < 100 → 0 < number t)
    (hps : s.percentiles = Percentiles.init number tokens) (hne : s.values ≠ [])
    (h : s.makeStats number = .ok s') :
    s'.values.Perm s.values ∧ ∀ e ∈ s'.percentiles.entries,
      Percentiles.Reaches s'.values (number e.1) e.2 := by
  unfold makeStats at h
  rw [if_neg hne, hps] at h
  obtain ⟨ps', hps', h⟩ := Run.exists_of_bind_ok h
  obtain rfl := Except.ok.inj h
  have hsorted : s.values.mergeSort.Pairwise (· ≤ ·) := by
    simpa using @List.pairwise_mergeSort ℚ (fun a b => decide (a ≤ b))
      (fun a b c => by simpa using le_trans) (fun a b => by simpa using le_total a b) s.values
  exact ⟨List.mergeSort_perm _ _,
    fun e he => (Percentiles.compute_reaches hpos hsorted hps' he).2⟩

end AnalyseTCP
