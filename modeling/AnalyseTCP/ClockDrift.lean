import AnalyseTCP.LatencyVariation
import AnalyseTCP.AnalyseInterval
import AnalyseTCP.Lib.FirstLeast

/-!
# The ranges of `calculateClockDrift`

The two scans leave a range each, the first one with the least difference among those they look at.
A range that was not received has the difference 0.  The scan from the back skips those, the scan
from the front does not; and the time between the two ranges counts in whole seconds only, so it may
be 0.
-/

namespace AnalyseTCP

/-- What a scan remembers of a range. -/
def DiffRange.leastDiff (d : DiffRange) : RangeManager.LeastDiff := ⟨d.diff, d.range.firstSend⟩

namespace RangeManager

/-- The body of the two scans, with the range that they remember as well. -/
def driftStep (skipZero : Bool) (pick : Option DiffRange) (d : DiffRange) :
    Except Abort (Option DiffRange) :=
  if d.diff < (pick.map DiffRange.diff).getD longMax ∧ ¬(skipZero ∧ d.diff = 0) then do
    let _ ← d.range.getSendTime
    return some d
  else return pick

/-- `startDriftRange` and `endDriftRange`. -/
def driftRange (skipZero : Bool) (l : List DiffRange) : Except Abort (Option DiffRange) :=
  l.foldlM (driftStep skipZero) none

/-- The ranges that `calculateClockDrift` computes the drift from.  Without them it returns 1. -/
def driftRanges (ranges : List DiffRange) : Except Abort (Option (DiffRange × DiffRange)) := do
  let n := scanned ranges.length
  let start ← driftRange false (ranges.take n)
  let stop ← driftRange true (ranges.reverse.take n)
  return start.bind fun start => stop.map fun stop => (start, stop)

/-- The drift between two ranges, or 0. -/
def driftOf : Option (DiffRange × DiffRange) → ℚ
  | none => 0
  | some (start, stop) =>
      ((stop.diff - start.diff : ℤ) : ℚ) / driftDuration start.leastDiff stop.leastDiff

section Scan

variable {skipZero : Bool} {l : List DiffRange} {d : DiffRange} {pick : Option DiffRange}

theorem getSendTime_eq {r : ByteRange} (hsent : r.sentTstampPcap ≠ []) :
    r.getSendTime =
      if r.firstSend = Timeval.zero then .error .outOfRange else .ok r.firstSend := by
  obtain ⟨p, l, hl⟩ := List.exists_cons_of_ne_nil hsent
  unfold ByteRange.getSendTime ByteRange.firstSend
  rw [hl]
  rfl

/-- A scan ends with what it would remember of the range that it picks. -/
theorem leastDiff_eq_driftRange (skipZero : Bool) (hsent : ∀ d ∈ l, d.range.sentTstampPcap ≠ [])
    (pick : Option DiffRange) :
    leastDiff skipZero ((pick.map DiffRange.leastDiff).getD {}) l =
      (l.foldlM (driftStep skipZero) pick).map fun pick =>
        (pick.map DiffRange.leastDiff).getD {} := by
  induction l generalizing pick with
  | nil => rfl
  | cons d l ih =>
    have hdiff : ((pick.map DiffRange.leastDiff).getD {}).diff =
        (pick.map DiffRange.diff).getD longMax := by
      cases pick <;> rfl
    have hrest := ih (fun e he => hsent e (List.mem_cons_of_mem d he))
    rw [List.foldlM_cons]
    unfold leastDiff driftStep
    rw [hdiff, getSendTime_eq (hsent d List.mem_cons_self)]
    split
    · split
      · rfl
      · exact hrest (some d)
    · exact hrest pick

/-- The differences that a scan can take. -/
def candidates (skipZero : Bool) (l : List DiffRange) : List DiffRange :=
  l.filter fun d => decide (d.diff < longMax ∧ ¬(skipZero ∧ d.diff = 0))

/-- `pick` is the first of the least candidates, if there are any. -/
def PicksLeast (c : List DiffRange) : Option DiffRange → Prop
  | none => c = []
  | some d => FirstLeast DiffRange.diff c d

theorem mem_candidates : d ∈ candidates skipZero l ↔
    d ∈ l ∧ d.diff < longMax ∧ ¬(skipZero ∧ d.diff = 0) := by
  unfold candidates
  rw [List.mem_filter, decide_eq_true_iff]

theorem candidates_concat (skipZero : Bool) (l : List DiffRange) (d : DiffRange) :
    candidates skipZero (l ++ [d]) = candidates skipZero l ++
      if d.diff < longMax ∧ ¬(skipZero ∧ d.diff = 0) then [d] else [] := by
  unfold candidates
  rw [List.filter_append, List.filter_cons, List.filter_nil]
  simp only [decide_eq_true_eq]

/-- A range changes the pick when it is a candidate below all others. -/
theorem driftStep_iff (hpick : PicksLeast (candidates skipZero l) pick) :
    (d.diff < (pick.map DiffRange.diff).getD longMax ∧ ¬(skipZero ∧ d.diff = 0)) ↔
      (d.diff < longMax ∧ ¬(skipZero ∧ d.diff = 0)) ∧
        ∀ x ∈ candidates skipZero l, d.diff < x.diff := by
  cases pick with
  | none =>
    rw [show candidates skipZero l = [] from hpick]
    simp
  | some a =>
    have hmax := (mem_candidates.mp (FirstLeast.low hpick).mem).2.1
    rw [FirstLeast.lt_all_iff hpick]
    simp only [Option.map_some, Option.getD_some]
    constructor
    · rintro ⟨hlt, hzero⟩
      exact ⟨⟨hlt.trans hmax, hzero⟩, hlt⟩
    · rintro ⟨⟨-, hzero⟩, hlt⟩
      exact ⟨hlt, hzero⟩

theorem PicksLeast.concat (hpick : PicksLeast (candidates skipZero l) pick)
    (hnot : ¬((d.diff < longMax ∧ ¬(skipZero ∧ d.diff = 0)) ∧
      ∀ x ∈ candidates skipZero l, d.diff < x.diff)) :
    PicksLeast (candidates skipZero (l ++ [d])) pick := by
  rw [candidates_concat]
  by_cases hcand : d.diff < longMax ∧ ¬(skipZero ∧ d.diff = 0)
  · rw [if_pos hcand]
    cases pick with
    | none =>
      rw [show candidates skipZero l = [] from hpick] at hnot
      exact absurd ⟨hcand, List.forall_mem_nil _⟩ hnot
    | some a =>
      have hle : a.diff ≤ d.diff := by
        rw [FirstLeast.lt_all_iff hpick] at hnot
        exact not_lt.mp fun hlt => hnot ⟨hcand, hlt⟩
      exact FirstLeast.concat_of_le hpick hle
  · rw [if_neg hcand, List.append_nil]
    exact hpick

/-- A scan fails on a record with the send time 0, and else picks the first of the least. -/
theorem driftRange_spec (skipZero : Bool) (hsent : ∀ d ∈ l, d.range.sentTstampPcap ≠ []) :
    (∃ pick, driftRange skipZero l = .ok pick ∧ PicksLeast (candidates skipZero l) pick ∧
      ∀ d, RecordLow DiffRange.diff (candidates skipZero l) d → d.range.firstSend ≠ .zero) ∨
    (driftRange skipZero l = .error .outOfRange ∧
      ∃ d, RecordLow DiffRange.diff (candidates skipZero l) d ∧ d.range.firstSend = .zero) := by
  -- by induction on the ranges that were scanned
  induction l using List.reverseRecOn with
  | nil =>
    refine .inl ⟨none, rfl, rfl, fun d hd => ?_⟩
    exact absurd hd.mem List.not_mem_nil
  | append_singleton l d ih =>
    have hscan : driftRange skipZero (l ++ [d]) =
        driftRange skipZero l >>= fun pick => driftStep skipZero pick d := by
      unfold driftRange
      rw [List.foldlM_append]
      simp
    have hconcat := candidates_concat skipZero l d
    rw [hscan]
    rcases ih fun e he => hsent e (List.mem_append_left _ he) with
      ⟨pick, hpick, hleast, hrecords⟩ | ⟨herror, e, he, hzero⟩
    · rw [hpick, Run.ok_bind]
      unfold driftStep
      rw [getSendTime_eq (hsent d (by simp))]
      by_cases hcond : d.diff < (pick.map DiffRange.diff).getD longMax ∧ ¬(skipZero ∧ d.diff = 0)
      · -- the range is a record
        obtain ⟨hcand, hall⟩ := (driftStep_iff hleast).mp hcond
        rw [if_pos hcand] at hconcat
        rw [if_pos hcond, hconcat]
        by_cases hzero : d.range.firstSend = .zero
        · rw [if_pos hzero]
          exact .inr ⟨rfl, d, recordLow_last hall, hzero⟩
        · rw [if_neg hzero]
          refine .inl ⟨some d, rfl, firstLeast_concat hall, fun e he => ?_⟩
          rcases recordLow_concat_iff.mp he with he | ⟨rfl, -⟩
          · exact hrecords e he
          · exact hzero
      · -- the pick stays
        have hnot := mt (driftStep_iff hleast).mpr hcond
        rw [if_neg hcond]
        refine .inl ⟨pick, rfl, hleast.concat hnot, fun e he => ?_⟩
        rw [hconcat] at he
        split_ifs at he with hcand
        · rcases recordLow_concat_iff.mp he with he | ⟨rfl, hall⟩
          · exact hrecords e he
          · exact absurd ⟨hcand, hall⟩ hnot
        · rw [List.append_nil] at he
          exact hrecords e he
    · rw [herror]
      refine .inr ⟨rfl, e, ?_, hzero⟩
      rw [hconcat]
      exact he.append _

/-- The drift is the one between the ranges that the scans pick. -/
theorem calculateClockDrift_eq {ranges : List DiffRange}
    (hsent : ∀ d ∈ ranges, d.range.sentTstampPcap ≠ []) :
    calculateClockDrift ranges = (driftRanges ranges).map driftOf := by
  have hfront : ∀ d ∈ ranges.take (scanned ranges.length), d.range.sentTstampPcap ≠ [] :=
    fun d hd => hsent d (List.mem_of_mem_take hd)
  have hback : ∀ d ∈ ranges.reverse.take (scanned ranges.length), d.range.sentTstampPcap ≠ [] :=
    fun d hd => hsent d (List.mem_reverse.mp (List.mem_of_mem_take hd))
  have hstart := leastDiff_eq_driftRange false hfront none
  have hstop := leastDiff_eq_driftRange true hback none
  simp only [Option.map_none, Option.getD_none] at hstart hstop
  unfold calculateClockDrift driftRanges
  dsimp only
  rw [hstart, hstop, ← driftRange, ← driftRange]
  rcases driftRange_spec false hfront with ⟨start, hs, hsleast, hsnz⟩ | ⟨he, -⟩
  swap
  · rw [he]
    rfl
  rcases driftRange_spec true hback with ⟨stop, ht, htleast, htnz⟩ | ⟨he, -⟩
  swap
  · rw [hs, he]
    rfl
  rw [hs, ht]
  show Except.ok (driftBetween ((start.map DiffRange.leastDiff).getD {})
    ((stop.map DiffRange.leastDiff).getD {})) = Except.ok (driftOf _)
  congr 1
  unfold driftBetween
  -- a time that was not set is that of a scan without candidates
  cases start with
  | none => exact if_pos (.inr rfl)
  | some a =>
    cases stop with
    | none => exact if_pos (.inl rfl)
    | some b =>
      have ha : a.range.firstSend ≠ .zero := hsnz a (FirstLeast.low hsleast)
      have hb : b.range.firstSend ≠ .zero := htnz b (FirstLeast.low htleast)
      exact if_neg (not_or.mpr ⟨hb, ha⟩)

end Scan

/-! ## When the drift is defined -/

section Defined

variable {rm : RangeManager} {transport : Bool} {ranges : List DiffRange} {l : List Entry}
  {last : Option Timeval}

/-- The differences that are registered for the entries of a map. -/
theorem registerRecvDiffs_mem (h : registerRecvDiffs transport last l = .ok ranges)
    {d : DiffRange} (hd : d ∈ ranges) :
    ∃ e ∈ l, d.range.sentTstampPcap = e.2.sentTstampPcap ∧
      (d.range.received = false → d.diff = 0) := by
  induction l generalizing last ranges with
  | nil =>
    obtain rfl := Except.ok.inj h
    exact absurd hd List.not_mem_nil
  | cons e l ih =>
    obtain ⟨key, r⟩ := e
    unfold registerRecvDiffs at h
    split_ifs at h with hrec
    · obtain ⟨diff, -, h⟩ := Run.exists_of_bind_ok h
      obtain ⟨rest, hrest, h⟩ := Run.exists_of_bind_ok h
      obtain rfl := Except.ok.inj h
      rcases List.mem_cons.mp hd with rfl | hd
      · have hsent : r.matchReceivedType.1.sentTstampPcap = r.sentTstampPcap :=
          matchReceivedType_blind (f := ByteRange.sentTstampPcap) (fun _ _ _ _ => rfl) r
        have hkeep : r.matchReceivedType.1.received = r.received :=
          matchReceivedType_blind (f := ByteRange.received) (fun _ _ _ _ => rfl) r
        refine ⟨(key, r), List.mem_cons_self, hsent, fun hnot => ?_⟩
        rw [hkeep, hrec] at hnot
        cases hnot
      · obtain ⟨e, he, hkeep⟩ := ih hrest hd
        exact ⟨e, List.mem_cons_of_mem _ he, hkeep⟩
    · obtain ⟨rest, hrest, h⟩ := Run.exists_of_bind_ok h
      obtain rfl := Except.ok.inj h
      rcases List.mem_cons.mp hd with rfl | hd
      · exact ⟨(key, r), List.mem_cons_self, rfl, fun _ => rfl⟩
      · obtain ⟨e, he, hkeep⟩ := ih hrest hd
        exact ⟨e, List.mem_cons_of_mem _ he, hkeep⟩

/-- The call ends, and returns 1 with the drift 0 or divides by a time between two ranges that were
received. -/
def DriftDefined (ranges : List DiffRange) : Prop :=
  ∃ out drift, driftRanges ranges = .ok out ∧ calculateClockDrift ranges = .ok drift ∧
    (out = none ∧ drift = 0 ∨
      ∃ start stop : DiffRange, out = some (start, stop) ∧
        (start.range.received = true ∧ stop.range.received = true) ∧
        driftDuration start.leastDiff stop.leastDiff ≠ 0 ∧
        drift = ((stop.diff - start.diff : ℤ) : ℚ) /
          driftDuration start.leastDiff stop.leastDiff)

/-- The differences near the start of the stream. -/
def startWindow (ranges : List DiffRange) : List DiffRange :=
  candidates false (ranges.take (scanned ranges.length))

/-- The differences near its end that are not 0, from the end. -/
def stopWindow (ranges : List DiffRange) : List DiffRange :=
  candidates true (ranges.reverse.take (scanned ranges.length))

/-- No record low was sent at the time 0.  If both windows have differences, the first least one at
the start is that of a received range, which was sent in another second than that at the end. -/
structure DriftReady (ranges : List DiffRange) : Prop where
  startSends : ∀ d, RecordLow DiffRange.diff (startWindow ranges) d → d.range.firstSend ≠ .zero
  stopSends : ∀ d, RecordLow DiffRange.diff (stopWindow ranges) d → d.range.firstSend ≠ .zero
  apart : ∀ start stop, FirstLeast DiffRange.diff (startWindow ranges) start →
    FirstLeast DiffRange.diff (stopWindow ranges) stop →
    start.range.received = true ∧ (stop.range.firstSend.sub start.range.firstSend).tvSec ≠ 0

/-- The microseconds of a difference never make a second. -/
theorem driftDuration_eq {start stop : LeastDiff}
    (hstart : 0 ≤ start.sendTime.tvUsec ∧ start.sendTime.tvUsec < 1000000)
    (hstop : 0 ≤ stop.sendTime.tvUsec ∧ stop.sendTime.tvUsec < 1000000) :
    driftDuration start stop = (stop.sendTime.sub start.sendTime).tvSec := by
  have husec : 0 ≤ (stop.sendTime.sub start.sendTime).tvUsec ∧
      (stop.sendTime.sub start.sendTime).tvUsec < 1000000 := by
    unfold Timeval.sub
    split <;> dsimp only <;> omega
  have hzero : (stop.sendTime.sub start.sendTime).tvUsec.tdiv 10000000 = 0 :=
    Int.tdiv_eq_zero_of_lt husec.1 (by omega)
  unfold driftDuration
  dsimp only
  rw [hzero, add_zero]

theorem PicksLeast.eq_some {c : List DiffRange} {pick : Option DiffRange} {d : DiffRange}
    (hpick : PicksLeast c pick) (hd : FirstLeast DiffRange.diff c d) : pick = some d := by
  cases pick with
  | none =>
    have hmem := hd.low.mem
    rw [show c = [] from hpick] at hmem
    exact absurd hmem List.not_mem_nil
  | some a => exact congrArg some (FirstLeast.unique hpick hd)

/-- What the two scans say about the call: they fail on a record that was sent at the time 0. -/
theorem driftRanges_cases (hsent : ∀ d ∈ ranges, d.range.sentTstampPcap ≠ []) :
    (∃ start stop, driftRanges ranges =
        .ok (start.bind fun start => stop.map fun stop => (start, stop)) ∧
      PicksLeast (startWindow ranges) start ∧ PicksLeast (stopWindow ranges) stop ∧
      (∀ d, RecordLow DiffRange.diff (startWindow ranges) d → d.range.firstSend ≠ .zero) ∧
      ∀ d, RecordLow DiffRange.diff (stopWindow ranges) d → d.range.firstSend ≠ .zero) ∨
    (driftRanges ranges = .error .outOfRange ∧
      ∃ d, (RecordLow DiffRange.diff (startWindow ranges) d ∨
        RecordLow DiffRange.diff (stopWindow ranges) d) ∧ d.range.firstSend = .zero) := by
  have hfront := driftRange_spec false (l := ranges.take (scanned ranges.length))
    fun d hd => hsent d (List.mem_of_mem_take hd)
  have hback := driftRange_spec true (l := ranges.reverse.take (scanned ranges.length))
    fun d hd => hsent d (List.mem_reverse.mp (List.mem_of_mem_take hd))
  unfold driftRanges
  dsimp only
  rcases hfront with ⟨start, hs, hsleast, hsnz⟩ | ⟨herror, d, hd, hzero⟩
  · rw [hs, Run.ok_bind]
    rcases hback with ⟨stop, ht, htleast, htnz⟩ | ⟨herror, d, hd, hzero⟩
    · rw [ht, Run.ok_bind]
      exact .inl ⟨start, stop, rfl, hsleast, htleast, hsnz, htnz⟩
    · rw [herror]
      exact .inr ⟨rfl, d, .inr hd, hzero⟩
  · rw [herror]
    exact .inr ⟨rfl, d, .inl hd, hzero⟩

/-- The drift is well defined exactly when the two windows are. -/
theorem calculateClockDrift_defined_iff (hsent : rm.AllSent)
    (husec : ∀ e ∈ rm.ranges.entries, 0 ≤ e.2.firstSend.tvUsec ∧ e.2.firstSend.tvUsec < 1000000)
    (hdiffs : registerRecvDiffs transport none rm.ranges.entries = .ok ranges) :
    DriftDefined ranges ↔ DriftReady ranges := by
  have hranges : ∀ d ∈ ranges, d.range.sentTstampPcap ≠ [] ∧
      (0 ≤ d.range.firstSend.tvUsec ∧ d.range.firstSend.tvUsec < 1000000) ∧
      (d.range.received = false → d.diff = 0) := by
    intro d hd
    obtain ⟨e, he, hkeep, hmissing⟩ := registerRecvDiffs_mem hdiffs hd
    have hfirst : d.range.firstSend = e.2.firstSend := by
      unfold ByteRange.firstSend
      rw [hkeep]
    exact ⟨hkeep ▸ hsent e he, hfirst ▸ husec e he, hmissing⟩
  have hdrift := calculateClockDrift_eq fun d hd => (hranges d hd).1
  have hstartMem : ∀ d ∈ startWindow ranges, d ∈ ranges :=
    fun d hd => List.mem_of_mem_take (mem_candidates.mp hd).1
  have hstopMem : ∀ d ∈ stopWindow ranges, d ∈ ranges ∧ d.range.received = true := by
    intro d hd
    obtain ⟨hd, -, hnonzero⟩ := mem_candidates.mp hd
    have hmem := List.mem_reverse.mp (List.mem_of_mem_take hd)
    refine ⟨hmem, ?_⟩
    by_contra hnot
    exact hnonzero ⟨rfl, (hranges d hmem).2.2 (Bool.eq_false_of_not_eq_true hnot)⟩
  have hduration : ∀ start stop, FirstLeast DiffRange.diff (startWindow ranges) start →
      FirstLeast DiffRange.diff (stopWindow ranges) stop →
      driftDuration start.leastDiff stop.leastDiff =
        (stop.range.firstSend.sub start.range.firstSend).tvSec :=
    fun start stop hs ht => driftDuration_eq (hranges start (hstartMem start hs.low.mem)).2.1
      (hranges stop (hstopMem stop ht.low.mem).1).2.1
  -- each scan has a first least range, or takes none, or divides by a zero duration
  rcases driftRanges_cases fun d hd => (hranges d hd).1 with
    ⟨start, stop, hout, hs, ht, hsnz, htnz⟩ | ⟨herror, d, hd, hzero⟩
  · rw [hout] at hdrift
    constructor
    · rintro ⟨out, drift, hout', -, hcases⟩
      rw [hout] at hout'
      obtain rfl := Except.ok.inj hout'
      refine ⟨hsnz, htnz, fun a b ha hb => ?_⟩
      rw [hs.eq_some ha, ht.eq_some hb] at hcases
      rcases hcases with ⟨hnone, -⟩ | ⟨a', b', heq, hrec, hne, -⟩
      · cases hnone
      · obtain ⟨rfl, rfl⟩ := Prod.mk.inj (Option.some.inj heq)
        rw [hduration a b ha hb] at hne
        exact ⟨hrec.1, hne⟩
    · intro hready
      refine ⟨_, _, hout, hdrift, ?_⟩
      cases start with
      | none => exact .inl ⟨rfl, rfl⟩
      | some a =>
        cases stop with
        | none => exact .inl ⟨rfl, rfl⟩
        | some b =>
          obtain ⟨hrec, hne⟩ := hready.apart a b hs ht
          rw [← hduration a b hs ht] at hne
          exact .inr ⟨a, b, rfl, ⟨hrec, (hstopMem b (FirstLeast.low ht).mem).2⟩, hne, rfl⟩
  · constructor
    · rintro ⟨out, drift, hout, -⟩
      rw [herror] at hout
      cases hout
    · intro hready
      rcases hd with hd | hd
      · exact absurd hzero (hready.startSends d hd)
      · exact absurd hzero (hready.stopSends d hd)

end Defined

/-- The packets of `tensAt` with these numbers, received 20 milliseconds after these seconds. -/
def recvTensAt (is : List (ℕ × ℤ)) : List SendData :=
  is.map fun (i, sec) =>
    { data :=
        { seq := 10 * i, endSeq := 10 * i + 10, payloadSize := 10
          tstampPcap := ⟨1000 + sec, 20000⟩ } }

/-- The differences after a run of sent and of received packets. -/
def diffsAfter (sent recvd : List SendData) : Except Abort (RangeManager × List DiffRange) := do
  let rm ← Run.run insertSentRange (new 0) sent
  let rm ← Run.run insertReceivedRange rm recvd
  let ranges ← registerRecvDiffs true none rm.ranges.entries
  return (rm, ranges)

theorem exists_of_diffsAfter {sent recvd : List SendData} {rm : RangeManager}
    {ranges : List DiffRange} (h : diffsAfter sent recvd = .ok (rm, ranges)) :
    ∃ rm₀, Run.run insertSentRange (new 0) sent = .ok rm₀ ∧
      Run.run insertReceivedRange rm₀ recvd = .ok rm ∧
      registerRecvDiffs true none rm.ranges.entries = .ok ranges := by
  obtain ⟨rm₀, hrm₀, h⟩ := Run.exists_of_bind_ok h
  obtain ⟨rm', hrm', h⟩ := Run.exists_of_bind_ok h
  obtain ⟨ranges', hranges', h⟩ := Run.exists_of_bind_ok h
  obtain ⟨rfl, rfl⟩ := Prod.mk.inj (Except.ok.inj h)
  exact ⟨rm₀, hrm₀, hrm', hranges'⟩

theorem calculateClockDrift_defined_iff_four :
    ∃ rm₀ rm ranges, Run.run insertSentRange (new 0) (tensAt [0, 3, 6, 9]) = .ok rm₀ ∧
      Run.run insertReceivedRange rm₀ (recvTensAt [(0, 0), (1, 3), (2, 6), (3, 9)]) = .ok rm ∧
      registerRecvDiffs true none rm.ranges.entries = .ok ranges ∧
      (DriftDefined ranges ↔ DriftReady ranges) := by
  obtain ⟨⟨rm, ranges⟩, hafter, hok⟩ := Run.exists_of_any_toOption
    (x := diffsAfter (tensAt [0, 3, 6, 9]) (recvTensAt [(0, 0), (1, 3), (2, 6), (3, 9)]))
    (p := fun out => decide (out.1.AllSent ∧ ∀ e ∈ out.1.ranges.entries,
      0 ≤ e.2.firstSend.tvUsec ∧ e.2.firstSend.tvUsec < 1000000)) (by decide +kernel)
  obtain ⟨hsent, husec⟩ := of_decide_eq_true hok
  obtain ⟨rm₀, hrm₀, hrm, hdiffs⟩ := exists_of_diffsAfter hafter
  exact ⟨rm₀, rm, ranges, hrm₀, hrm, hdiffs, calculateClockDrift_defined_iff hsent husec hdiffs⟩

/-- What the scans pick: whether the first range was received, and the divisor. -/
def picked (ranges : List DiffRange) : Option (Bool × ℤ) :=
  match driftRanges ranges with
  | .ok (some (start, stop)) =>
      some (start.range.received, driftDuration start.leastDiff stop.leastDiff)
  | _ => none

theorem not_driftDefined {ranges : List DiffRange} {out : Bool × ℤ} (h : picked ranges = some out)
    (hout : out.1 = false ∨ out.2 = 0) : ¬DriftDefined ranges := by
  unfold picked at h
  split at h
  · next start stop hranges =>
    obtain rfl := Option.some.inj h
    rintro ⟨out, drift, hranges', -, hcases⟩
    rw [hranges] at hranges'
    obtain rfl := Except.ok.inj hranges'
    rcases hcases with ⟨hnone, -⟩ | ⟨start', stop', heq, hrec, hne, -⟩
    · cases hnone
    · obtain ⟨rfl, rfl⟩ := Prod.mk.inj (Option.some.inj heq)
      rcases hout with hout | hout
      · exact absurd hrec.1 (by simpa using hout)
      · exact hne hout
  · cases h

/-- Of four packets the first is lost, and its difference 0 is the least at the start.  Two packets
of the same second are both received, and the divisor is 0. -/
theorem calculateClockDrift_undefined :
    (∃ rm ranges,
      diffsAfter (tensAt [0, 3, 6, 9]) (recvTensAt [(1, 3), (2, 6), (3, 9)]) = .ok (rm, ranges) ∧
      picked ranges = some (false, 9) ∧ ¬DriftDefined ranges) ∧
    ∃ rm ranges,
      diffsAfter (tensAt [0, 0]) (recvTensAt [(0, 0), (1, 0)]) = .ok (rm, ranges) ∧
      picked ranges = some (true, 0) ∧ ¬DriftDefined ranges := by
  obtain ⟨⟨rm, ranges⟩, hafter, hok⟩ := Run.exists_of_any_toOption
    (x := diffsAfter (tensAt [0, 3, 6, 9]) (recvTensAt [(1, 3), (2, 6), (3, 9)]))
    (p := fun out => decide (picked out.2 = some (false, 9))) (by decide +kernel)
  obtain ⟨⟨rm', ranges'⟩, hafter', hok'⟩ := Run.exists_of_any_toOption
    (x := diffsAfter (tensAt [0, 0]) (recvTensAt [(0, 0), (1, 0)]))
    (p := fun out => decide (picked out.2 = some (true, 0))) (by decide +kernel)
  have hpick := of_decide_eq_true hok
  have hpick' := of_decide_eq_true hok'
  exact ⟨⟨rm, ranges, hafter, hpick, not_driftDefined hpick (.inl rfl)⟩,
    rm', ranges', hafter', hpick', not_driftDefined hpick' (.inr rfl)⟩

end RangeManager

end AnalyseTCP
