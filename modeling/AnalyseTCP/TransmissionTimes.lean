import AnalyseTCP.GenStatsTotals
import AnalyseTCP.PayloadSamples

/-!
# The times between transmissions

The second half of `genStats`: the records are sorted by their send times, and each one with a size
gets the time since the one before it that has a size, or since the first record.  Pure ACKs are
skipped, but not when one of them is the first record.
-/

namespace AnalyseTCP

/-- A record as it was before the loop wrote `itt_usec`. -/
def SegmentStats.untimed (ps : SegmentStats) : SegmentStats := { ps with ittUsec := 0 }

namespace RangeManager

/-- The values that the loop adds to `bs->itt`. -/
def ittSamples (prev : ℤ) : List SegmentStats → List ℕ
  | [] => []
  | ps :: l =>
      if ps.size = 0 then ittSamples prev l
      else ((ps.sendTimeUs - prev) % 2 ^ 64).toNat :: ittSamples ps.sendTimeUs l

/-- The send time of the last record with a size, if there is one behind `prev`. -/
def lastDataTime (prev : ℤ) (l : List SegmentStats) : ℤ :=
  l.foldl (fun t ps => if ps.size = 0 then t else ps.sendTimeUs) prev

/-- Each record with a size holds the time since `prev` or the last such record. -/
inductive IttsWritten : ℤ → List SegmentStats → Prop
  | nil {prev : ℤ} : IttsWritten prev []
  | skip {prev : ℤ} {ps : SegmentStats} {l : List SegmentStats} (hsize : ps.size = 0)
      (h : IttsWritten prev l) : IttsWritten prev (ps :: l)
  | data {prev : ℤ} {ps : SegmentStats} {l : List SegmentStats} (hsize : ps.size ≠ 0)
      (hitt : ps.ittUsec = ByteRange.toInt (ps.sendTimeUs - prev)) (h : IttsWritten ps.sendTimeUs l) :
      IttsWritten prev (ps :: l)

section Loop

variable {prev : ℤ} {itt : BaseStats} {l : List SegmentStats}

theorem addItts_itt : (addItts prev itt l).1 = (ittSamples prev l).foldl BaseStats.add itt := by
  induction l generalizing prev itt with
  | nil => rfl
  | cons ps l ih =>
      rw [addItts, ittSamples]
      by_cases hsize : ps.size = 0
      · rw [if_pos hsize, if_pos hsize]
        exact ih
      · rw [if_neg hsize, if_neg hsize]
        exact ih

/-- Nothing else of the records changes. -/
theorem addItts_untimed (prev : ℤ) (itt : BaseStats) (l : List SegmentStats) :
    (addItts prev itt l).2.map SegmentStats.untimed = l.map SegmentStats.untimed := by
  induction l generalizing prev itt with
  | nil => rfl
  | cons ps l ih =>
      rw [addItts]
      by_cases hsize : ps.size = 0
      · rw [if_pos hsize, List.map_cons, List.map_cons]
        exact congrArg (ps.untimed :: ·) (ih _ _)
      · rw [if_neg hsize, List.map_cons, List.map_cons]
        exact congrArg (ps.untimed :: ·) (ih _ _)

theorem addItts_written : IttsWritten prev (addItts prev itt l).2 := by
  induction l generalizing prev itt with
  | nil => exact .nil
  | cons ps l ih =>
      rw [addItts]
      by_cases hsize : ps.size = 0
      · rw [if_pos hsize]
        exact .skip hsize ih
      · rw [if_neg hsize]
        exact .data hsize rfl ih

/-- The loop looks at sizes and send times only. -/
theorem ittSamples_congr (prev : ℤ) {l' : List SegmentStats}
    (h : l'.map SegmentStats.untimed = l.map SegmentStats.untimed) :
    ittSamples prev l' = ittSamples prev l ∧ lastDataTime prev l' = lastDataTime prev l := by
  induction l generalizing prev l' with
  | nil =>
      obtain rfl := List.map_eq_nil_iff.mp h
      exact ⟨rfl, rfl⟩
  | cons ps l ih =>
      obtain ⟨ps', l', rfl, hps, hl⟩ := List.map_eq_cons_iff.mp h
      have hsize : ps'.size = ps.size := by
        show ps'.untimed.size = ps.untimed.size
        rw [hps]
      have htime : ps'.sendTimeUs = ps.sendTimeUs := by
        show ps'.untimed.sendTimeUs = ps.untimed.sendTimeUs
        rw [hps]
      unfold lastDataTime at ih ⊢
      rw [ittSamples, ittSamples, List.foldl_cons, List.foldl_cons, hsize, htime]
      by_cases hzero : ps.size = 0
      · rw [if_pos hzero, if_pos hzero, if_pos hzero]
        exact ih prev hl
      · rw [if_neg hzero, if_neg hzero, if_neg hzero, (ih _ hl).1, (ih _ hl).2]
        exact ⟨rfl, rfl⟩

/-- The samples add up to the time from `prev` to the last record with a size. -/
theorem sum_ittSamples :
    ((ittSamples prev l).sum : ℤ) % 2 ^ 64 = (lastDataTime prev l - prev) % 2 ^ 64 := by
  induction l generalizing prev with
  | nil =>
      show (0 : ℤ) % 2 ^ 64 = (prev - prev) % 2 ^ 64
      rw [sub_self]
  | cons ps l ih =>
      unfold lastDataTime at ih ⊢
      rw [ittSamples, List.foldl_cons]
      by_cases hsize : ps.size = 0
      · rw [if_pos hsize, if_pos hsize]
        exact ih
      · rw [if_neg hsize, if_neg hsize, List.sum_cons]
        rw [Nat.cast_add]
        have hrest := @ih ps.sendTimeUs
        omega

theorem length_ittSamples :
    (ittSamples prev l).length = l.countP fun ps => decide (ps.size ≠ 0) := by
  induction l generalizing prev with
  | nil => rfl
  | cons ps l ih =>
      rw [ittSamples, List.countP_cons]
      by_cases hsize : ps.size = 0
      · rw [if_pos hsize, ih]
        simp [hsize]
      · rw [if_neg hsize, List.length_cons, ih]
        simp [hsize]

end Loop

theorem foldl_add_values (s : BaseStats) (vals : List ℕ) :
    (vals.foldl BaseStats.add s).values = s.values ++ vals.map (Nat.cast : ℕ → ℚ) := by
  induction vals generalizing s with
  | nil => exact (List.append_nil _).symm
  | cons val vals ih =>
      rw [List.foldl_cons, ih]
      show (s.values ++ [(val : ℚ)]) ++ _ = _
      rw [List.append_assoc]
      rfl

theorem foldl_add_cum (s : BaseStats) (vals : List ℕ) (hcum : s.cum < 2 ^ 64) :
    (vals.foldl BaseStats.add s).cum = (s.cum + vals.sum) % 2 ^ 64 := by
  induction vals generalizing s with
  | nil => exact (Nat.mod_eq_of_lt hcum).symm
  | cons val vals ih =>
      rw [List.foldl_cons, ih (s.add val) (Nat.mod_lt _ (by decide)), List.sum_cons]
      show ((s.cum + val) % 2 ^ 64 + vals.sum) % 2 ^ 64 = _
      rw [Nat.mod_add_mod, add_assoc]

/-! ## The end of `genStats` -/

section Finish

variable {number : String → ℚ} {tokens : List String} {bs out : PacketsStats}

/-- `finishStats` sorts the records and writes their times; the three statistics are completed. -/
theorem finishStats_spec (h : finishStats number bs = .ok out) : ∃ first sorted,
    first :: sorted = bs.packetStats.mergeSort (fun a b => decide (a.sendTimeUs ≤ b.sendTimeUs)) ∧
      out.packetStats = first :: (addItts first.sendTimeUs bs.itt sorted).2 ∧
      ((ittSamples first.sendTimeUs sorted).foldl BaseStats.add bs.itt).makeStats number =
        .ok out.itt ∧
      bs.latency.makeStats number = .ok out.latency ∧
      bs.packetLength.makeStats number = .ok out.packetLength ∧
      out.retrans = bs.retrans ∧ out.dupacks = bs.dupacks := by
  unfold finishStats at h
  split at h
  · cases h
  · next first sorted hsorted =>
    dsimp only at h
    obtain ⟨latency, hlatency, h⟩ := Run.exists_of_bind_ok h
    obtain ⟨packetLength, hlength, h⟩ := Run.exists_of_bind_ok h
    obtain ⟨itt, hitt, h⟩ := Run.exists_of_bind_ok h
    obtain rfl := Except.ok.inj h
    rw [addItts_itt] at hitt
    exact ⟨first, sorted, hsorted.symm, rfl, hitt, hlatency, hlength, rfl, rfl⟩

/-- Records that differ in the written times only are in the same order. -/
theorem pairwise_of_untimed {l l' : List SegmentStats}
    (hsame : l'.map SegmentStats.untimed = l.map SegmentStats.untimed)
    (hsorted : l.Pairwise fun a b => a.sendTimeUs ≤ b.sendTimeUs) :
    l'.Pairwise fun a b => a.sendTimeUs ≤ b.sendTimeUs := by
  have hmap : ∀ m : List SegmentStats, (m.map SegmentStats.untimed).Pairwise
      (fun a b => a.sendTimeUs ≤ b.sendTimeUs) ↔ m.Pairwise fun a b => a.sendTimeUs ≤ b.sendTimeUs :=
    fun _ => List.pairwise_map
  rw [← hmap, hsame, hmap]
  exact hsorted

theorem finishStats_itts (hfresh : bs.itt = .init number tokens)
    (h : finishStats number bs = .ok out) : ∃ first rest, out.packetStats = first :: rest ∧
      (first :: rest).Pairwise (fun a b => a.sendTimeUs ≤ b.sendTimeUs) ∧
      ((first :: rest).map SegmentStats.untimed).Perm (bs.packetStats.map SegmentStats.untimed) ∧
      IttsWritten first.sendTimeUs rest ∧
      out.itt.values.length = rest.countP (fun ps => decide (ps.size ≠ 0)) ∧
      (out.itt.cum : ℤ) = (lastDataTime first.sendTimeUs rest - first.sendTimeUs) % 2 ^ 64 := by
  obtain ⟨first, sorted, hsorted, hout, hitt, -⟩ := finishStats_spec h
  have huntimed := addItts_untimed first.sendTimeUs bs.itt sorted
  obtain ⟨hsamples, hlast⟩ := ittSamples_congr first.sendTimeUs huntimed
  have hwhole : (first :: (addItts first.sendTimeUs bs.itt sorted).2).map SegmentStats.untimed =
      (first :: sorted).map SegmentStats.untimed := congrArg (first.untimed :: ·) huntimed
  obtain ⟨hvalues, hcum⟩ := BaseStats.makeStats_keeps hitt
  rw [foldl_add_values, hfresh] at hvalues
  have hzero : bs.itt.cum = 0 := by
    rw [hfresh]
    rfl
  rw [foldl_add_cum _ _ (by rw [hzero]; decide), hzero, Nat.zero_add] at hcum
  refine ⟨first, _, hout, pairwise_of_untimed hwhole ?_, ?_, addItts_written, ?_, ?_⟩
  · rw [hsorted]
    apply List.Pairwise.imp (fun hle => of_decide_eq_true hle)
    apply List.pairwise_mergeSort
    · intro a b c hab hbc
      simp only [decide_eq_true_eq] at *
      omega
    · intro a b
      simp only [Bool.or_eq_true, decide_eq_true_eq]
      omega
  · rw [hwhole, hsorted]
    exact (List.mergeSort_perm _ _).map _
  · rw [hvalues, ← length_ittSamples, hsamples, List.length_append, List.length_map]
    exact Nat.zero_add _
  · rw [hcum, hlast, ← sum_ittSamples]
    rfl

end Finish

theorem percentiles_foldl_add (s : BaseStats) (vals : List ℕ) :
    (vals.foldl BaseStats.add s).percentiles = s.percentiles := by
  induction vals generalizing s with
  | nil => rfl
  | cons val vals ih => exact ih (s.add val)

/-- Without percentiles nothing is looked up. -/
theorem makeStats_ok_of_empty (number : String → ℚ) {s : BaseStats}
    (h : s.percentiles = .empty) : ∃ t, s.makeStats number = .ok t := by
  unfold BaseStats.makeStats
  by_cases hnil : s.values = []
  · rw [if_pos hnil]
    exact ⟨_, rfl⟩
  · rw [if_neg hnil, h]
    exact ⟨_, rfl⟩

/-- With a record and no percentiles, `genStats` returns. -/
theorem genStats_ok_of_empty {rm : RangeManager} {iv : AnalyseRange} {number : String → ℚ}
    {st : GenState} (hst : rm.genSegments iv (.init number []) = .ok st)
    (hrecord : st.bs.packetStats ≠ []) :
    ∃ out, rm.genStats number iv (.init number []) = .ok out := by
  obtain ⟨analysed, -, hitt, hlatency, hlength, -, -⟩ := genSegments_ok hst
  unfold genStats
  rw [hst, Run.ok_bind]
  unfold finishStats
  split
  · next hsorted =>
    have hempty := hsorted ▸ List.mergeSort_perm st.bs.packetStats
      fun a b => decide (a.sendTimeUs ≤ b.sendTimeUs)
    exact absurd hempty.nil_eq.symm hrecord
  · next first rest hsorted =>
    dsimp only
    rw [addItts_itt, hitt, hlatency, hlength]
    obtain ⟨latency, h₁⟩ := makeStats_ok_of_empty number (percentiles_foldl_add
      (.init number []) (analysed.flatMap fun en => en.2.latencySamples))
    obtain ⟨packetLength, h₂⟩ := makeStats_ok_of_empty number (percentiles_foldl_add
      (.init number []) (analysed.flatMap fun en => en.2.payloadSamples))
    obtain ⟨itt, h₃⟩ := makeStats_ok_of_empty number (percentiles_foldl_add
      (.init number []) (ittSamples first.sendTimeUs rest))
    rw [h₁, Run.ok_bind, h₂, Run.ok_bind, h₃]
    exact ⟨_, rfl⟩

end RangeManager

end AnalyseTCP
