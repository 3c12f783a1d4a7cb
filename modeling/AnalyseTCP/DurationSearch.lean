import AnalyseTCP.AnalyseInterval

/-!
# The binary search for `analyse_duration`

Along a stream that was sent in order, the ranges sent at most `analyse_duration` seconds after the
first analysed one come before all others, and the search ends at the last of them.  It keeps
`end_index - start_index` as the number of ranges, from `begin_it` on, among which that range is.
The upper index is not set to the probe but moved by the same distance, so it may stay one above it.

The count is right only where the loop for `analyse_start` broke.  On a shorter stream that loop has
left `start_index` at the size of the map, no range is left to search, and the interval ends where
it starts.
-/

namespace AnalyseTCP

/-- The whole seconds from an earlier time are not less at a later one. -/
theorem Timeval.tvSec_sub_mono {t t' : Timeval} (a : Timeval) (h : t'.before t = false) :
    (t.sub a).tvSec ≤ (t'.sub a).tvSec := by
  unfold before at h
  unfold sub
  split at h
  · have husec : t.tvUsec ≤ t'.tvUsec := not_lt.mp (of_decide_eq_false h)
    split <;> split <;> dsimp only <;> omega
  · have hsec : t.tvSec ≤ t'.tvSec := not_lt.mp (of_decide_eq_false h)
    split <;> split <;> dsimp only <;> omega

namespace RangeManager

/-- The first send time of the range at `it`. -/
def sendAt (rm : RangeManager) (it : ℕ) : Timeval :=
  (rm.ranges.entries[it]?.map fun e => e.2.firstSend).getD .zero

/-- The range at `it` was sent at most `duration` whole seconds after the time `beginTv`. -/
def SentWithin (rm : RangeManager) (duration : ℤ) (beginTv : Timeval) (it : ℕ) : Prop :=
  ∃ e ∈ rm.ranges.entries[it]?, (e.2.firstSend.sub beginTv).tvSec ≤ duration

instance (rm : RangeManager) (duration : ℤ) (beginTv : Timeval) (it : ℕ) :
    Decidable (rm.SentWithin duration beginTv it) :=
  inferInstanceAs (Decidable (∃ e ∈ _, _))

instance (rm : RangeManager) : Decidable rm.SentInOrder :=
  inferInstanceAs (Decidable (List.Pairwise _ _))

/-- `it` is the last range that was sent at most `duration` whole seconds after `beginTv`. -/
structure LastWithin (rm : RangeManager) (duration : ℤ) (beginTv : Timeval) (it : ℕ) : Prop where
  within : rm.SentWithin duration beginTv it
  last : ∀ j, rm.SentWithin duration beginTv j → j ≤ it

section Search

variable {rm : RangeManager} {o : AnalyseOptions} {duration : ℤ} {beginTv : Timeval}

theorem SentWithin.lt {it : ℕ} (h : rm.SentWithin duration beginTv it) :
    it < rm.ranges.entries.length := by
  obtain ⟨e, he, -⟩ := h
  exact (List.getElem?_eq_some_iff.mp he).1

/-- A range before one that was sent in time was sent in time. -/
theorem SentWithin.mono (horder : rm.SentInOrder) {i j : ℕ} (hle : i ≤ j)
    (h : rm.SentWithin duration beginTv j) : rm.SentWithin duration beginTv i := by
  obtain ⟨e, he, hsec⟩ := h
  obtain ⟨hj, rfl⟩ := List.getElem?_eq_some_iff.mp he
  rcases hle.lt_or_eq with hlt | rfl
  · have hbefore := List.pairwise_iff_getElem.mp horder i j (hlt.trans hj) hj hlt
    refine ⟨_, List.getElem?_eq_getElem (hlt.trans hj), ?_⟩
    exact (Timeval.tvSec_sub_mono beginTv hbefore).trans hsec
  · exact ⟨_, he, hsec⟩

/-- The search finds the last range in time among the `endIndex - startIndex` ranges from `beginIt`
on, when the first of them is in time and no later range is. -/
theorem searchEnd_last (hsent : rm.AllSent) (horder : rm.SentInOrder)
    {beginIt startIndex endIndex : ℕ} (hlt : startIndex < endIndex)
    (hroom : beginIt + (endIndex - startIndex) ≤ rm.ranges.entries.length)
    (hwithin : rm.SentWithin duration beginTv beginIt)
    (hlate : ∀ j, beginIt + (endIndex - startIndex) ≤ j → ¬rm.SentWithin duration beginTv j) :
    ∃ it, rm.searchEnd duration beginTv beginIt startIndex endIndex = .ok it ∧
      rm.LastWithin duration beginTv it := by
  -- the number of ranges that are left to search
  induction hdist : endIndex - startIndex using Nat.strong_induction_on
    generalizing beginIt startIndex endIndex with
  | _ dist ih =>
    unfold searchEnd
    by_cases hzero : (endIndex - startIndex) / 2 = 0
    · rw [dif_pos hzero]
      refine ⟨beginIt, rfl, hwithin, fun j hj => ?_⟩
      by_contra hnot
      exact hlate j (by omega) hj
    set advance := (endIndex - startIndex) / 2 with hadvance
    have hprobe : beginIt + advance < rm.ranges.entries.length := by omega
    have hat := List.getElem?_eq_getElem hprobe
    rw [dif_neg hzero, firstSentAt_eq hsent hat, Run.ok_bind]
    split
    · next hsec =>
      have hrest : beginIt + advance + (endIndex - (startIndex + advance)) =
          beginIt + (endIndex - startIndex) := by omega
      apply ih (endIndex - (startIndex + advance)) (by omega) (by omega) _ _ _ rfl
      · rw [hrest]
        exact hroom
      · exact ⟨_, hat, hsec⟩
      · rw [hrest]
        exact hlate
    · next hsec =>
      -- the ranges from the probe on are late, and the upper index does not go below the probe
      have hprobeLate : ¬rm.SentWithin duration beginTv (beginIt + advance) := by
        rintro ⟨e, he, hle⟩
        rw [Option.mem_def, hat] at he
        obtain rfl := Option.some.inj he
        exact hsec hle
      apply ih (endIndex - advance - startIndex) (by omega) (by omega) (by omega) hwithin _ rfl
      intro j hj hin
      exact hprobeLate (hin.mono horder (by omega))

/-- With nothing left to search, the search ends where it begins. -/
theorem searchEnd_self (rm : RangeManager) (duration : ℤ) (beginTv : Timeval)
    (beginIt index : ℕ) : rm.searchEnd duration beginTv beginIt index index = .ok beginIt := by
  unfold searchEnd
  rw [dif_pos (by omega)]

theorem sendAt_eq {it : ℕ} (h : it < rm.ranges.entries.length) :
    rm.sendAt it = rm.ranges.entries[it].2.firstSend := by
  unfold sendAt
  rw [List.getElem?_eq_getElem h]
  rfl

theorem sentWithin_self (duration : ℤ) {it : ℕ} (h : it < rm.ranges.entries.length)
    (hduration : 0 ≤ duration) :
    rm.SentWithin duration (rm.sendAt it) it := by
  refine ⟨_, List.getElem?_eq_getElem h, ?_⟩
  rw [sendAt_eq h, Timeval.tvSec_sub_self]
  exact hduration

/-- Where the interval starts, and where it ends: at the last range in time if the stream lasts
`analyse_start` seconds, else at the range where it starts. -/
theorem setAnalyseRangeInterval_duration (hsent : rm.AllSent) (hne : rm.ranges.entries ≠ [])
    (horder : rm.SentInOrder) (hduration : 1 ≤ o.analyseDuration) :
    ∃ iv, rm.setAnalyseRangeInterval o = .ok iv ∧
      iv.analyseRangeEnd = iv.analyseRangeLast + 1 ∧
      iv.analyseRangeStart < rm.ranges.entries.length ∧
      ((∃ it, rm.SentIn o.analyseStart it) →
        rm.LastWithin o.analyseDuration (rm.sendAt iv.analyseRangeStart) iv.analyseRangeLast) ∧
      ((∀ it, ¬rm.SentIn o.analyseStart it) →
        iv.analyseRangeStart = 0 ∧ iv.analyseRangeLast = 0) := by
  obtain ⟨start, startIndex, sec, hfind, hlt, hindex⟩ := findStart_cases (o := o) hsent hne
  have hend : o.analyseEnd = 0 := o.notBoth.resolve_right (by omega)
  have hwithin := sentWithin_self o.analyseDuration hlt (by omega)
  unfold setAnalyseRangeInterval
  rw [firstSentAt_zero hsent hne, Run.ok_bind, firstSentAt_last hsent hne, Run.ok_bind, hfind,
    Run.ok_bind]
  dsimp only
  rw [if_neg (not_not.mpr hend), if_pos (by omega),
    firstSentAt_eq hsent (List.getElem?_eq_getElem hlt), Run.ok_bind, ← sendAt_eq hlt]
  rcases hindex with ⟨hfirst, rfl⟩ | ⟨rfl, hnone, rfl⟩
  · -- the loop broke, and the indices count the ranges from the start on
    obtain ⟨it, hit, hlast⟩ := searchEnd_last hsent horder hlt (by omega) hwithin
      fun j hj hin => absurd hin.lt (by omega)
    rw [hit, Run.ok_bind, nextIt_eq hlast.within.lt, Run.ok_bind]
    exact ⟨_, rfl, rfl, hlt, fun _ => hlast, fun hnone => absurd hfirst.1 (hnone _)⟩
  · -- the start was set back to the first range, but not the index
    rw [searchEnd_self, Run.ok_bind, nextIt_eq hlt, Run.ok_bind]
    exact ⟨_, rfl, rfl, hlt, fun ⟨it, hit⟩ => absurd hit (hnone it), fun _ => ⟨rfl, rfl⟩⟩

/-- The interval ends at the last range that was sent in time after its first one. -/
def EndsInTime (rm : RangeManager) (o : AnalyseOptions) : Prop :=
  ∃ iv, rm.setAnalyseRangeInterval o = .ok iv ∧
    rm.LastWithin o.analyseDuration (rm.sendAt iv.analyseRangeStart) iv.analyseRangeLast ∧
    iv.analyseRangeEnd = iv.analyseRangeLast + 1

/-- The search for the end of the interval is right exactly when the stream lasts `analyse_start`
seconds, or when it would have had nothing to find. -/
theorem setAnalyseRangeInterval_duration_iff (hsent : rm.AllSent) (hne : rm.ranges.entries ≠ [])
    (horder : rm.SentInOrder) (hduration : 1 ≤ o.analyseDuration) :
    rm.EndsInTime o ↔ (∃ it, rm.SentIn o.analyseStart it) ∨
      ∀ it, rm.SentWithin o.analyseDuration rm.beginSend it → it = 0 := by
  obtain ⟨iv, hset, heq, hlt, hfound, hnone⟩ :=
    setAnalyseRangeInterval_duration hsent hne horder hduration
  have hpos : 0 < rm.ranges.entries.length := List.length_pos_of_ne_nil hne
  have hzero : rm.sendAt 0 = rm.beginSend := by
    unfold sendAt beginSend
    rw [List.head?_eq_getElem?]
  by_cases hin : ∃ it, rm.SentIn o.analyseStart it
  · exact iff_of_true ⟨iv, hset, hfound hin, heq⟩ (.inl hin)
  -- the interval is the first range alone
  obtain ⟨hstart0, hlast0⟩ := hnone (not_exists.mp hin)
  have hself := sentWithin_self o.analyseDuration hpos (by omega)
  rw [hzero] at hself
  constructor
  · rintro ⟨iv', hset', hlast, -⟩
    rw [hset] at hset'
    cases hset'
    rw [hstart0, hlast0, hzero] at hlast
    exact .inr fun it hit => Nat.le_zero.mp (hlast.last it hit)
  · rintro (hin' | hall)
    · exact absurd hin' hin
    · refine ⟨iv, hset, ?_, heq⟩
      rw [hstart0, hlast0, hzero]
      exact ⟨hself, fun j hj => (hall j hj).le⟩

end Search

theorem setAnalyseRangeInterval_duration_iff_four :
    ∃ rm, Run.run insertSentRange (new 0) (tensAt [0, 2, 4, 6]) = .ok rm ∧
      (rm.EndsInTime ⟨2, 0, 3, .inl rfl⟩ ↔ (∃ it, rm.SentIn 2 it) ∨
        ∀ it, rm.SentWithin 3 rm.beginSend it → it = 0) ∧ rm.SentIn 2 1 := by
  have hrun : ∃ rm, Run.run insertSentRange (new 0) (tensAt [0, 2, 4, 6]) = .ok rm ∧
      decide (rm.AllSent ∧ rm.ranges.entries ≠ [] ∧ rm.SentInOrder ∧ rm.SentIn 2 1) = true :=
    Run.exists_of_any_toOption (by decide +kernel)
  obtain ⟨rm, hrm, hok⟩ := hrun
  obtain ⟨hsent, hne, horder, hin⟩ := of_decide_eq_true hok
  exact ⟨rm, hrm, setAnalyseRangeInterval_duration_iff hsent hne horder (by decide), hin⟩

/-- Packets at 0, 1 and 2 seconds, with `--analyse-start=5 --analyse-duration=10`: all of them were
sent in time, but the interval is the first one alone. -/
theorem setAnalyseRangeInterval_forgets_stream :
    parseAnalyseOptions 5 0 10 = some ⟨5, 0, 10, .inl rfl⟩ ∧
    ∃ rm, Run.run insertSentRange (new 0) (tensAt [0, 1, 2]) = .ok rm ∧
      (rm.AllSent ∧ rm.ranges.entries ≠ [] ∧ rm.SentInOrder) ∧
      ∃ iv, rm.setAnalyseRangeInterval ⟨5, 0, 10, .inl rfl⟩ = .ok iv ∧
        (iv.analyseRangeStart = 0 ∧ iv.analyseRangeLast = 0 ∧
          rm.SentWithin 10 (rm.sendAt 0) 2) ∧
        ¬rm.EndsInTime ⟨5, 0, 10, .inl rfl⟩ := by
  have hrun : ∃ rm, Run.run insertSentRange (new 0) (tensAt [0, 1, 2]) = .ok rm ∧
      (decide (rm.AllSent ∧ rm.ranges.entries ≠ [] ∧ rm.SentInOrder) &&
        (rm.setAnalyseRangeInterval ⟨5, 0, 10, .inl rfl⟩).toOption.any fun iv : AnalyseRange =>
          decide (iv.analyseRangeStart = 0 ∧ iv.analyseRangeLast = 0 ∧
            rm.SentWithin 10 (rm.sendAt 0) 2)) = true :=
    Run.exists_of_any_toOption (by decide +kernel)
  obtain ⟨rm, hrm, hok⟩ := hrun
  obtain ⟨hmap, hset⟩ := Bool.and_eq_true_iff.mp hok
  obtain ⟨iv, hiv, hat⟩ := Run.exists_of_any_toOption hset
  obtain ⟨hstart, hlast, hwithin⟩ := of_decide_eq_true hat
  refine ⟨rfl, rm, hrm, of_decide_eq_true hmap, iv, hiv, ⟨hstart, hlast, hwithin⟩, ?_⟩
  rintro ⟨iv', hiv', hends, -⟩
  rw [hiv] at hiv'
  cases hiv'
  rw [hstart, hlast] at hends
  exact absurd (hends.last 2 hwithin) (by decide)

end RangeManager

end AnalyseTCP
