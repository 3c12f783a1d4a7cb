import AnalyseTCP.TransmissionTimes
import Mathlib.Data.List.Sort
import Mathlib.Algebra.Order.Floor.Semifield
import Mathlib.Data.List.Perm.Basic

/-!
# Aggregated statistics

`printStatistics` adds the statistics of each connection to four others: `aggregated` takes over the
values, the other three get one sample for each connection, its smallest value, its average and its
largest value.  The values of a connection have been sorted by `makeStats` before they are taken
over, and the aggregated ones are sorted again.
-/

namespace AnalyseTCP

/-! ## The source's functions -/

namespace BaseStats

/-- A statistic that was found invalid is left out. -/
def addToAggregate (s rhs : BaseStats) : BaseStats :=
  if rhs.valid then
    { s with
      counter := add32 s.counter rhs.values.length
      min := Nat.min s.min rhs.min
      max := Nat.max s.max rhs.max
      cum := add64 s.cum rhs.cum
      values := s.values ++ rhs.values }
  else s

def getAvg (s : BaseStats) : ℚ := if s.counter = 0 then 0 else (s.cum : ℚ) / s.counter

end BaseStats

structure StreamStats where
  latency : BaseStats
  packetLength : BaseStats
  itt : BaseStats

def StreamStats.init (number : String → ℚ) (tokens : List String) : StreamStats where
  latency := .init number tokens
  packetLength := .init number tokens
  itt := .init number tokens

structure AggrPacketsStats where
  aggregated : PacketsStats
  minimum : StreamStats
  average : StreamStats
  maximum : StreamStats

def AggrPacketsStats.init (number : String → ℚ) (tokens : List String) : AggrPacketsStats where
  aggregated := .init number tokens
  minimum := .init number tokens
  average := .init number tokens
  maximum := .init number tokens

/-- The four statistics for one quantity. -/
structure AggrStats where
  aggregated : BaseStats
  minimum : BaseStats
  average : BaseStats
  maximum : BaseStats

/-- What `AggrPacketsStats::add` does for each of the three quantities. -/
def AggrStats.add (a : AggrStats) (bs : BaseStats) : AggrStats :=
  if bs.counter ≠ 0 then
    { aggregated := a.aggregated.addToAggregate bs
      average := a.average.add ⌊bs.getAvg⌋₊
      minimum := a.minimum.add bs.min
      maximum := a.maximum.add bs.max }
  else a

/-- The two loops for `retrans`, and for `dupacks`. -/
def addTable (v w : List ℕ) : List ℕ :=
  (List.range w.length).foldl (fun v i => v.modify i (· + w.getD i 0)) (Buckets.grow 0 v w.length)

namespace AggrPacketsStats

def latency (a : AggrPacketsStats) : AggrStats :=
  ⟨a.aggregated.latency, a.minimum.latency, a.average.latency, a.maximum.latency⟩

def packetLength (a : AggrPacketsStats) : AggrStats :=
  ⟨a.aggregated.packetLength, a.minimum.packetLength, a.average.packetLength,
    a.maximum.packetLength⟩

def itt (a : AggrPacketsStats) : AggrStats :=
  ⟨a.aggregated.itt, a.minimum.itt, a.average.itt, a.maximum.itt⟩

def add (a : AggrPacketsStats) (bs : PacketsStats) : AggrPacketsStats :=
  let latency := a.latency.add bs.latency
  let packetLength := a.packetLength.add bs.packetLength
  let itt := a.itt.add bs.itt
  { aggregated := { a.aggregated with
      latency := latency.aggregated
      packetLength := packetLength.aggregated
      itt := itt.aggregated
      retrans := addTable a.aggregated.retrans bs.retrans
      dupacks := addTable a.aggregated.dupacks bs.dupacks }
    minimum := ⟨latency.minimum, packetLength.minimum, itt.minimum⟩
    average := ⟨latency.average, packetLength.average, itt.average⟩
    maximum := ⟨latency.maximum, packetLength.maximum, itt.maximum⟩ }

end AggrPacketsStats

/-- `psAggregated` after the loop over the connections in `printStatistics`. -/
def psAggregated (number : String → ℚ) (tokens : List String) (conns : List PacketsStats) :
    AggrPacketsStats :=
  conns.foldl AggrPacketsStats.add (.init number tokens)

/-- The loops that make `retrans_accumed` and `dupacks_accumed`, from the last entry on. -/
def accumed (v : List ℕ) : List ℕ :=
  (v.foldr (fun x (value, out) => (x + value, (x + value) :: out)) (0, [])).2

/-! ## One statistic -/

namespace BaseStats

variable {s t u : BaseStats} {number : String → ℚ} {vals : List ℕ}

/-- The same statistic, with the values in another order. -/
structure Same (s t : BaseStats) : Prop where
  percentiles : s.percentiles = t.percentiles
  counter : s.counter = t.counter
  min : s.min = t.min
  max : s.max = t.max
  cum : s.cum = t.cum
  valid : s.valid = t.valid
  values : s.values.Perm t.values

theorem Same.refl (s : BaseStats) : Same s s := ⟨rfl, rfl, rfl, rfl, rfl, rfl, .refl _⟩

theorem Same.trans (h : Same s t) (h' : Same t u) : Same s u where
  percentiles := h.percentiles.trans h'.percentiles
  counter := h.counter.trans h'.counter
  min := h.min.trans h'.min
  max := h.max.trans h'.max
  cum := h.cum.trans h'.cum
  valid := h.valid.trans h'.valid
  values := h.values.trans h'.values

theorem Same.add (h : Same s t) (val : ℕ) : Same (s.add val) (t.add val) where
  percentiles := h.percentiles
  counter := congrArg (add32 · 1) h.counter
  min := congrArg (Nat.min · val) h.min
  max := congrArg (Nat.max · val) h.max
  cum := congrArg (add64 · val) h.cum
  valid := h.valid
  values := h.values.append_right _

theorem Same.foldl_add (h : Same s t) (vals : List ℕ) :
    Same (vals.foldl BaseStats.add s) (vals.foldl BaseStats.add t) := by
  induction vals generalizing s t with
  | nil => exact h
  | cons val vals ih => exact ih (h.add val)

/-- The order in which samples come does not matter. -/
theorem same_of_perm {vals' : List ℕ} (h : vals'.Perm vals) (s : BaseStats) :
    Same (vals'.foldl BaseStats.add s) (vals.foldl BaseStats.add s) := by
  induction h generalizing s with
  | nil => exact .refl _
  | cons val _ ih => exact ih (s.add val)
  | swap a b l =>
      show Same (l.foldl BaseStats.add ((s.add b).add a)) (l.foldl BaseStats.add ((s.add a).add b))
      apply Same.foldl_add
      constructor
      · rfl
      · rfl
      · show Nat.min (Nat.min s.min b) a = Nat.min (Nat.min s.min a) b
        exact min_right_comm _ _ _
      · show Nat.max (Nat.max s.max b) a = Nat.max (Nat.max s.max a) b
        exact max_right_comm _ _ _
      · show add64 (add64 s.cum b) a = add64 (add64 s.cum a) b
        unfold add64
        rw [Nat.mod_add_mod, Nat.mod_add_mod, add_right_comm]
      · rfl
      · show ((s.values ++ [(b : ℚ)]) ++ [(a : ℚ)]).Perm ((s.values ++ [(a : ℚ)]) ++ [(b : ℚ)])
        rw [List.append_assoc, List.append_assoc]
        exact (List.Perm.swap _ _ _).append_left _
  | trans _ _ ih ih' => exact (ih s).trans (ih' s)

theorem Same.eq (h : Same s t) (hvalues : s.values = t.values) : s = t := by
  obtain ⟨hpercentiles, hcounter, hmin, hmax, hcum, hvalid, -⟩ := h
  cases s
  cases t
  subst hpercentiles hcounter hmin hmax hcum hvalid hvalues
  rfl

/-- `makeStats` sorts, and so it cannot tell the two apart. -/
theorem Same.makeStats_eq (h : Same s t) : s.makeStats number = t.makeStats number := by
  by_cases hempty : t.values = []
  · rw [h.eq ((hempty ▸ h.values).eq_nil.trans hempty.symm)]
  have hne : s.values ≠ [] := fun hnil => hempty (hnil ▸ h.values).nil_eq.symm
  have hperm : s.values.mergeSort.Perm t.values.mergeSort :=
    (List.mergeSort_perm _ _).trans (h.values.trans (List.mergeSort_perm _ _).symm)
  have hsame : Same { s with values := s.values.mergeSort }
      { t with values := t.values.mergeSort } :=
    ⟨h.percentiles, h.counter, h.min, h.max, h.cum, h.valid, hperm⟩
  have hsorted := hsame.eq (hperm.eq_of_pairwise' (List.pairwise_mergeSort' (· ≤ ·) _)
    (List.pairwise_mergeSort' (· ≤ ·) _))
  unfold makeStats
  rw [if_neg hne, if_neg hempty]
  exact congrArg (fun u : BaseStats => do
    let ps ← Percentiles.compute number u.percentiles u.values
    return { u with percentiles := ps }) hsorted

/-! ## Samples taken over -/

/-- The numbers of a statistic fit their types. -/
def InRange (s : BaseStats) : Prop := s.counter < 2 ^ 32 ∧ s.min < 2 ^ 64 ∧ s.cum < 2 ^ 64

theorem inRange_init (number : String → ℚ) (tokens : List String) :
    InRange (.init number tokens) := by
  refine ⟨?_, ?_, ?_⟩
  · show 0 < 2 ^ 32
    decide
  · show 2 ^ 64 - 1 < 2 ^ 64
    decide
  · show 0 < 2 ^ 64
    decide

theorem InRange.add (h : InRange s) (val : ℕ) : InRange (s.add val) := by
  refine ⟨Nat.mod_lt _ (by decide), ?_, Nat.mod_lt _ (by decide)⟩
  exact lt_of_le_of_lt (Nat.min_le_left _ _) h.2.1

theorem InRange.foldl_add (h : InRange s) (vals : List ℕ) :
    InRange (vals.foldl BaseStats.add s) := by
  induction vals generalizing s with
  | nil => exact h
  | cons val vals ih => exact ih (h.add val)

theorem valid_foldl_add : (vals.foldl BaseStats.add s).valid = s.valid := by
  induction vals generalizing s with
  | nil => rfl
  | cons val vals ih => exact ih

theorem addToAggregate_init (hs : InRange s) (number : String → ℚ) (tokens : List String) :
    s.addToAggregate (.init number tokens) = s := by
  obtain ⟨hcounter, hmin, hcum⟩ := hs
  have h₁ : add32 s.counter 0 = s.counter := Nat.mod_eq_of_lt hcounter
  have h₂ : Nat.min s.min (2 ^ 64 - 1) = s.min := min_eq_left (by omega)
  have h₃ : add64 s.cum 0 = s.cum := Nat.mod_eq_of_lt hcum
  have h₄ : Nat.max s.max 0 = s.max := Nat.max_zero _
  unfold addToAggregate
  show BaseStats.mk s.percentiles (add32 s.counter 0) (Nat.min s.min (2 ^ 64 - 1))
    (Nat.max s.max 0) (add64 s.cum 0) s.valid (s.values ++ []) = s
  rw [h₁, h₂, h₃, h₄, List.append_nil]

theorem addToAggregate_add (ht : t.valid = true) (val : ℕ) :
    s.addToAggregate (t.add val) = (s.addToAggregate t).add val := by
  unfold addToAggregate
  rw [if_pos ht, if_pos (show (t.add val).valid = true from ht)]
  unfold BaseStats.add
  simp only [mk.injEq, List.append_assoc, List.length_append, List.length_singleton, and_true,
    true_and]
  refine ⟨?_, (Nat.min_assoc _ _ _).symm, (Nat.max_assoc _ _ _).symm, ?_⟩
  · unfold add32
    rw [Nat.mod_add_mod, add_assoc]
  · unfold add64
    rw [Nat.mod_add_mod, Nat.add_mod_mod, add_assoc]

/-- Taking over a statistic is adding its samples. -/
theorem addToAggregate_foldl (hs : InRange s) (number : String → ℚ) (tokens : List String)
    (vals : List ℕ) : s.addToAggregate (vals.foldl BaseStats.add (.init number tokens)) =
      vals.foldl BaseStats.add s := by
  induction vals using List.reverseRecOn with
  | nil => exact addToAggregate_init hs number tokens
  | append_singleton vals val ih =>
      rw [List.foldl_append, List.foldl_append, List.foldl_cons, List.foldl_cons, List.foldl_nil,
        List.foldl_nil, addToAggregate_add valid_foldl_add, ih]

/-- The values of the statistic that is taken over have been sorted. -/
theorem addToAggregate_made {made : BaseStats} (hs : InRange s) {tokens : List String}
    (hmade : (vals.foldl BaseStats.add (.init number tokens)).makeStats number = .ok made)
    (hne : vals ≠ []) : Same (s.addToAggregate made) (vals.foldl BaseStats.add s) := by
  rw [← addToAggregate_foldl hs number tokens vals]
  have hvalues : (vals.foldl BaseStats.add (.init number tokens)).values ≠ [] := by
    rw [RangeManager.foldl_add_values]
    simp [BaseStats.init, hne]
  unfold makeStats at hmade
  rw [if_neg hvalues] at hmade
  obtain ⟨ps, -, hmade⟩ := Run.exists_of_bind_ok hmade
  obtain rfl := Except.ok.inj hmade
  have hvalid : (vals.foldl BaseStats.add (.init number tokens)).valid = true := valid_foldl_add
  have hperm := List.mergeSort_perm (vals.foldl BaseStats.add (.init number tokens)).values
    (fun a b => decide (a ≤ b))
  unfold addToAggregate
  rw [if_pos hvalid, if_pos hvalid]
  refine ⟨rfl, ?_, rfl, rfl, rfl, rfl, hperm.append_left _⟩
  exact congrArg (add32 s.counter) hperm.length_eq

/-- The counter and the sum of the samples fit. -/
def Fits (vals : List ℕ) : Prop := vals.length < 2 ^ 32 ∧ vals.sum < 2 ^ 64

instance (vals : List ℕ) : Decidable (Fits vals) := inferInstanceAs (Decidable (_ ∧ _))

def smallest (vals : List ℕ) : ℕ := vals.foldl Nat.min (2 ^ 64 - 1)

def largest (vals : List ℕ) : ℕ := vals.foldl Nat.max 0

theorem min_foldl_add : (vals.foldl BaseStats.add s).min = vals.foldl Nat.min s.min := by
  induction vals generalizing s with
  | nil => rfl
  | cons val vals ih => exact ih

theorem max_foldl_add : (vals.foldl BaseStats.add s).max = vals.foldl Nat.max s.max := by
  induction vals generalizing s with
  | nil => rfl
  | cons val vals ih => exact ih

theorem counter_foldl_add (hs : InRange s) :
    (vals.foldl BaseStats.add s).counter = (s.counter + vals.length) % 2 ^ 32 := by
  induction vals generalizing s with
  | nil => exact (Nat.mod_eq_of_lt hs.1).symm
  | cons val vals ih =>
      rw [List.foldl_cons, ih (hs.add val), List.length_cons]
      show ((s.counter + 1) % 2 ^ 32 + vals.length) % 2 ^ 32 = _
      rw [Nat.mod_add_mod, add_assoc, add_comm 1]

/-- The numbers of a statistic made of `vals`. -/
theorem made_numbers {made : BaseStats} {tokens : List String} (hfits : Fits vals)
    (hmade : (vals.foldl BaseStats.add (.init number tokens)).makeStats number = .ok made) :
    made.counter = vals.length ∧ made.min = smallest vals ∧ made.max = largest vals ∧
      made.cum = vals.sum := by
  have hkeeps : made.counter = (vals.foldl BaseStats.add (.init number tokens)).counter ∧
      made.min = (vals.foldl BaseStats.add (.init number tokens)).min ∧
      made.max = (vals.foldl BaseStats.add (.init number tokens)).max := by
    unfold makeStats at hmade
    split at hmade
    · obtain rfl := Except.ok.inj hmade
      exact ⟨rfl, rfl, rfl⟩
    · obtain ⟨ps, -, hmade⟩ := Run.exists_of_bind_ok hmade
      obtain rfl := Except.ok.inj hmade
      exact ⟨rfl, rfl, rfl⟩
  obtain ⟨hcounter, hmin, hmax⟩ := hkeeps
  have hzero : (BaseStats.init number tokens).counter = 0 := rfl
  have hcum : (BaseStats.init number tokens).cum = 0 := rfl
  refine ⟨?_, hmin.trans min_foldl_add, hmax.trans max_foldl_add, ?_⟩
  · rw [hcounter, counter_foldl_add (inRange_init number tokens), hzero, Nat.zero_add,
      Nat.mod_eq_of_lt hfits.1]
  · rw [(makeStats_keeps hmade).2, RangeManager.foldl_add_cum _ _ (hcum ▸ by decide), hcum,
      Nat.zero_add, Nat.mod_eq_of_lt hfits.2]

theorem getAvg_made {made : BaseStats} {tokens : List String} (hfits : Fits vals)
    (hmade : (vals.foldl BaseStats.add (.init number tokens)).makeStats number = .ok made) :
    ⌊made.getAvg⌋₊ = vals.sum / vals.length := by
  obtain ⟨hcounter, -, -, hcum⟩ := made_numbers hfits hmade
  unfold getAvg
  rw [hcounter, hcum]
  by_cases hzero : vals.length = 0
  · rw [if_pos hzero, hzero, Nat.div_zero, Nat.floor_zero]
  · rw [if_neg hzero]
    exact Nat.floor_div_eq_div _ _

end BaseStats

/-! ## All connections -/

namespace AggrStats

open BaseStats

variable {a : AggrStats} {number : String → ℚ} {tokens : List String}

def init (number : String → ℚ) (tokens : List String) : AggrStats :=
  ⟨.init number tokens, .init number tokens, .init number tokens, .init number tokens⟩

/-- One sample for each connection that has any. -/
def perConn (f : List ℕ → ℕ) (groups : List (List ℕ)) : List ℕ :=
  (groups.filter fun vals => !vals.isEmpty).map f

/-- What the loop over the connections adds to the four statistics. -/
structure Adds (groups : List (List ℕ)) (a a' : AggrStats) : Prop where
  aggregated : Same a'.aggregated (groups.flatten.foldl BaseStats.add a.aggregated)
  minimum : a'.minimum = (perConn smallest groups).foldl BaseStats.add a.minimum
  average : a'.average = (perConn (fun vals => vals.sum / vals.length) groups).foldl
    BaseStats.add a.average
  maximum : a'.maximum = (perConn largest groups).foldl BaseStats.add a.maximum

theorem add_adds {vals : List ℕ} {made : BaseStats} (ha : InRange a.aggregated)
    (hfits : Fits vals)
    (hmade : (vals.foldl BaseStats.add (.init number tokens)).makeStats number = .ok made) :
    Adds [vals] a (a.add made) := by
  obtain ⟨hcounter, hmin, hmax, -⟩ := made_numbers hfits hmade
  unfold AggrStats.add
  rw [hcounter, hmin, hmax, getAvg_made hfits hmade]
  cases vals with
  | nil => exact ⟨.refl _, rfl, rfl, rfl⟩
  | cons val vals =>
      rw [if_pos (by simp)]
      refine ⟨?_, rfl, rfl, rfl⟩
      rw [List.flatten_singleton]
      exact addToAggregate_made ha hmade (List.cons_ne_nil _ _)

theorem foldl_adds {groups : List (List ℕ)} {mades : List BaseStats} (ha : InRange a.aggregated)
    (hfits : ∀ vals ∈ groups, Fits vals)
    (hmades : List.Forall₂ (fun (vals : List ℕ) made =>
      (vals.foldl BaseStats.add (.init number tokens)).makeStats number = .ok made) groups mades) :
    Adds groups a (mades.foldl AggrStats.add a) := by
  induction hmades generalizing a with
  | nil => exact ⟨.refl _, rfl, rfl, rfl⟩
  | @cons vals made groups mades hmade _ ih =>
      obtain ⟨hfirst, hrest⟩ := List.forall_mem_cons.mp hfits
      have hadds := add_adds ha hfirst hmade
      have hsame := hadds.aggregated
      rw [List.flatten_singleton] at hsame
      have hrange : InRange (a.add made).aggregated := by
        unfold InRange
        rw [hsame.counter, hsame.min, hsame.cum]
        exact ha.foldl_add vals
      obtain ⟨haggregated, hminimum, haverage, hmaximum⟩ := ih hrange hrest
      have hcons : ∀ f, perConn f (vals :: groups) = perConn f [vals] ++ perConn f groups := by
        intro f
        unfold perConn
        rw [← List.map_append, ← List.filter_append]
        rfl
      rw [List.foldl_cons]
      refine ⟨?_, ?_, ?_, ?_⟩
      · rw [List.flatten_cons, List.foldl_append]
        exact haggregated.trans (hsame.foldl_add _)
      · rw [hminimum, hadds.minimum, hcons, List.foldl_append]
      · rw [haverage, hadds.average, hcons, List.foldl_append]
      · rw [hmaximum, hadds.maximum, hcons, List.foldl_append]

/-- The smallest of the smallest samples, or the largest of the largest. -/
theorem foldl_perConn {f : ℕ → ℕ → ℕ} [Std.Associative f] [Std.Commutative f] {z : ℕ}
    (groups : List (List ℕ)) {x : ℕ} (hx : f x z = x) :
    (perConn (fun vals => vals.foldl f z) groups).foldl f x = groups.flatten.foldl f x := by
  induction groups generalizing x with
  | nil => rfl
  | cons vals groups ih =>
      have hout : ∀ y w, vals.foldl f (f y w) = f y (vals.foldl f w) :=
        fun _ _ => List.foldl_assoc
      have hcomm : ∀ y w, f y w = f w y := Std.Commutative.comm
      have hvals : f x (vals.foldl f z) = vals.foldl f x := by
        rw [← hout, hx]
      have hidentity : f (vals.foldl f x) z = vals.foldl f x := by
        rw [hcomm, ← hout, hcomm, hx]
      rw [List.flatten_cons, List.foldl_append, ← ih hidentity, ← hvals]
      cases vals with
      | nil =>
          rw [List.foldl_nil, hx]
          rfl
      | cons val vals => rfl

/-- The smallest sample of all connections, and the largest one. -/
theorem Adds.extremes {groups : List (List ℕ)} (h : Adds groups (.init number tokens) a) :
    a.minimum.min = a.aggregated.min ∧ a.maximum.max = a.aggregated.max := by
  rw [h.minimum, h.maximum, h.aggregated.min, h.aggregated.max]
  constructor
  · rw [min_foldl_add, min_foldl_add]
    exact foldl_perConn (f := min) groups (min_self _)
  · rw [max_foldl_add, max_foldl_add]
    exact foldl_perConn (f := max) groups (max_self _)

end AggrStats

/-! ## The connections of a dump -/

/-- The quantities that are aggregated. -/
inductive Quantity
  | latency | packetLength | itt
deriving DecidableEq

def PacketsStats.quantity (bs : PacketsStats) : Quantity → BaseStats
  | .latency => bs.latency
  | .packetLength => bs.packetLength
  | .itt => bs.itt

def AggrPacketsStats.quantity (a : AggrPacketsStats) : Quantity → AggrStats
  | .latency => a.latency
  | .packetLength => a.packetLength
  | .itt => a.itt

/-- What the analysed ranges of a connection add to its statistics. -/
structure Samples where
  latency : List ℕ
  packetLength : List ℕ
  itt : List ℕ
  /-- for each range that comes to this part of the loop -/
  retrans : List ℕ
  dupacks : List ℕ

def Samples.quantity (s : Samples) : Quantity → List ℕ
  | .latency => s.latency
  | .packetLength => s.packetLength
  | .itt => s.itt

namespace RangeManager

def recordItts (records : List SegmentStats) : List ℕ :=
  match records.mergeSort fun a b => decide (a.sendTimeUs ≤ b.sendTimeUs) with
  | [] => []
  | first :: rest => ittSamples first.sendTimeUs rest

def samples (rm : RangeManager) (iv : AnalyseRange) (bs : PacketsStats) : Except Abort Samples := do
  let analysed ← rm.analysedRanges iv
  let st ← rm.genSegments iv bs
  return {
    latency := analysed.flatMap fun en => en.2.latencySamples
    packetLength := analysed.flatMap fun en => en.2.payloadSamples
    itt := recordItts st.bs.packetStats
    retrans := (analysed.filter fun en => en.2.countsRetrans).map
      fun en => en.2.packetRetransCount.val
    dupacks := analysed.map fun en => en.2.dupackCount.val }

/-- The statistics of a connection are those of its samples. -/
theorem genStats_made {rm : RangeManager} {iv : AnalyseRange} {number : String → ℚ}
    {tokens : List String} {s : Samples} {out : PacketsStats}
    (hs : rm.samples iv (.init number tokens) = .ok s)
    (h : rm.genStats number iv (.init number tokens) = .ok out) :
    (∀ q, ((s.quantity q).foldl BaseStats.add (.init number tokens)).makeStats number =
      .ok (out.quantity q)) ∧
      out.retrans = s.retrans.foldl countTo [] ∧ out.dupacks = s.dupacks.foldl countTo [] := by
  obtain ⟨analysed, hanalysed, hs⟩ := Run.exists_of_bind_ok hs
  obtain ⟨st, hst, hs⟩ := Run.exists_of_bind_ok hs
  obtain rfl := Except.ok.inj hs
  obtain ⟨analysed', hanalysed', hitt, hlatency, hlength, hretrans, hdupacks⟩ := genSegments_ok hst
  obtain rfl := Except.ok.inj (hanalysed.symm.trans hanalysed')
  unfold genStats at h
  rw [hst, Run.ok_bind] at h
  obtain ⟨first, sorted, hsorted, -, hitts, hlatencies, hlengths, hretrans', hdupacks'⟩ :=
    finishStats_spec h
  refine ⟨fun q => ?_, hretrans'.trans hretrans, hdupacks'.trans hdupacks⟩
  cases q with
  | latency => exact hlatency ▸ hlatencies
  | packetLength => exact hlength ▸ hlengths
  | itt =>
      show ((recordItts st.bs.packetStats).foldl BaseStats.add (.init number tokens)).makeStats
        number = .ok out.itt
      unfold recordItts
      rw [← hsorted, ← hitt]
      exact hitts

end RangeManager

/-- `out` is what `genStats` makes of a connection with the samples `s`. -/
def Gathers (number : String → ℚ) (tokens : List String) (s : Samples) (out : PacketsStats) : Prop :=
  ∃ (rm : RangeManager) (iv : AnalyseRange), rm.samples iv (.init number tokens) = .ok s ∧
    rm.genStats number iv (.init number tokens) = .ok out

section Gathered

variable {number : String → ℚ} {tokens : List String} {samples : List Samples}
  {outs outs' : List PacketsStats}

theorem quantity_foldl_add (a : AggrPacketsStats) (outs : List PacketsStats) (q : Quantity) :
    (outs.foldl AggrPacketsStats.add a).quantity q =
      (outs.map fun out => out.quantity q).foldl AggrStats.add (a.quantity q) := by
  induction outs generalizing a with
  | nil => rfl
  | cons out outs ih =>
      rw [List.foldl_cons, ih, List.map_cons, List.foldl_cons]
      cases q <;> rfl

/-- The connections in another order. -/
theorem exists_gathers_perm (h : List.Forall₂ (Gathers number tokens) samples outs)
    (hperm : outs'.Perm outs) :
    ∃ samples', samples'.Perm samples ∧ List.Forall₂ (Gathers number tokens) samples' outs' := by
  obtain ⟨samples', hgathers, hperm'⟩ := List.perm_comp_forall₂ hperm h.flip
  exact ⟨samples', hperm', hgathers.flip⟩

theorem psAggregated_adds (h : List.Forall₂ (Gathers number tokens) samples outs) (q : Quantity)
    (hfits : ∀ s ∈ samples, BaseStats.Fits (s.quantity q)) :
    AggrStats.Adds (samples.map fun s => s.quantity q) (.init number tokens)
      ((psAggregated number tokens outs).quantity q) := by
  have hinit : (AggrPacketsStats.init number tokens).quantity q = .init number tokens := by
    cases q <;> rfl
  unfold psAggregated
  rw [quantity_foldl_add, hinit]
  apply AggrStats.foldl_adds (BaseStats.inRange_init number tokens)
  · intro vals hvals
    obtain ⟨s, hs, rfl⟩ := List.mem_map.mp hvals
    exact hfits s hs
  · rw [List.forall₂_map_left_iff, List.forall₂_map_right_iff]
    apply h.imp
    rintro s out ⟨rm, iv, hs, hout⟩
    exact (RangeManager.genStats_made hs hout).1 q

/-- The aggregated statistic is, once it is completed, the one of all samples of all connections,
and the other three have one sample for each connection that has any.  The order of the connections
does not matter. -/
theorem psAggregated_quantity (h : List.Forall₂ (Gathers number tokens) samples outs)
    (hperm : outs'.Perm outs) (q : Quantity)
    (hfits : ∀ s ∈ samples, BaseStats.Fits (s.quantity q)) :
    let a := (psAggregated number tokens outs').quantity q
    let groups := samples.map fun s => s.quantity q
    a.aggregated.makeStats number =
        (groups.flatten.foldl BaseStats.add (.init number tokens)).makeStats number ∧
      a.minimum.min = a.aggregated.min ∧ a.maximum.max = a.aggregated.max ∧
      BaseStats.Same a.minimum ((AggrStats.perConn BaseStats.smallest groups).foldl BaseStats.add
        (.init number tokens)) ∧
      BaseStats.Same a.average ((AggrStats.perConn (fun vals => vals.sum / vals.length) groups).foldl
        BaseStats.add (.init number tokens)) ∧
      BaseStats.Same a.maximum ((AggrStats.perConn BaseStats.largest groups).foldl BaseStats.add
        (.init number tokens)) := by
  intro a groups
  obtain ⟨samples', hperm', hgathers⟩ := exists_gathers_perm h hperm
  have hadds := psAggregated_adds hgathers q fun s hs => hfits s (hperm'.mem_iff.mp hs)
  have hgroups : (samples'.map fun s => s.quantity q).Perm groups := hperm'.map _
  have hsame : ∀ f, BaseStats.Same
      ((AggrStats.perConn f (samples'.map fun s => s.quantity q)).foldl BaseStats.add
        (.init number tokens))
      ((AggrStats.perConn f groups).foldl BaseStats.add (.init number tokens)) :=
    fun f => BaseStats.same_of_perm ((hgroups.filter _).map f) _
  have hflat := hadds.aggregated.trans (BaseStats.same_of_perm hgroups.flatten _)
  refine ⟨hflat.makeStats_eq, hadds.extremes.1, hadds.extremes.2, ?_, ?_, ?_⟩
  · exact hadds.minimum ▸ hsame _
  · exact hadds.average ▸ hsame _
  · exact hadds.maximum ▸ hsame _

end Gathered

/-- The connection with the resent segment has statistics. -/
theorem exists_gathers_resent : ∃ s out, Gathers (fun _ => 0) [] s out ∧
    BaseStats.Fits (s.quantity .latency) ∧ s.latency ≠ [] ∧ s.retrans ≠ [] := by
  have hrun : ∃ rm, Run.run RangeManager.senderStep (.new 0) RangeManager.resentSegment = .ok rm ∧
      ((rm.genSegments rm.wholeMap (.init (fun _ => 0) [])).toOption.any
        (fun st : RangeManager.GenState => !st.bs.packetStats.isEmpty) &&
        (rm.samples rm.wholeMap (.init (fun _ => 0) [])).toOption.any (fun s : Samples =>
          decide (BaseStats.Fits s.latency ∧ s.latency ≠ [] ∧ s.retrans ≠ []))) = true :=
    Run.exists_of_any_toOption (by decide +kernel)
  obtain ⟨rm, -, hboth⟩ := hrun
  obtain ⟨hrecord, hsamples⟩ := Bool.and_eq_true_iff.mp hboth
  obtain ⟨st, hst, hrecord⟩ := Run.exists_of_any_toOption hrecord
  obtain ⟨s, hs, hfits⟩ := Run.exists_of_any_toOption hsamples
  have hne : st.bs.packetStats ≠ [] := by
    intro hnil
    rw [hnil] at hrecord
    exact absurd hrecord (by decide)
  obtain ⟨out, hout⟩ := RangeManager.genStats_ok_of_empty hst hne
  exact ⟨s, out, ⟨rm, rm.wholeMap, hs, hout⟩, of_decide_eq_true hfits⟩

theorem psAggregated_quantity_resent : ∃ (s : Samples) (out : PacketsStats),
    Gathers (fun _ => 0) [] s out ∧
    let a := (psAggregated (fun _ => 0) [] [out, out]).quantity .latency
    let groups := [s, s].map fun s => s.quantity .latency
    a.aggregated.makeStats (fun _ => 0) =
        (groups.flatten.foldl BaseStats.add (.init (fun _ => 0) [])).makeStats (fun _ => 0) ∧
      a.minimum.min = a.aggregated.min ∧ a.maximum.max = a.aggregated.max ∧
      BaseStats.Same a.minimum ((AggrStats.perConn BaseStats.smallest groups).foldl BaseStats.add
        (.init (fun _ => 0) [])) ∧
      BaseStats.Same a.average ((AggrStats.perConn (fun vals => vals.sum / vals.length) groups).foldl
        BaseStats.add (.init (fun _ => 0) [])) ∧
      BaseStats.Same a.maximum ((AggrStats.perConn BaseStats.largest groups).foldl BaseStats.add
        (.init (fun _ => 0) [])) := by
  obtain ⟨s, out, hgathers, hfits, -⟩ := exists_gathers_resent
  refine ⟨s, out, hgathers, ?_⟩
  exact psAggregated_quantity (.cons hgathers (.cons hgathers .nil)) (.refl [out, out]) .latency
    (by simp [hfits])

end AnalyseTCP
