import AnalyseTCP.LatencyVariation

/-!
# Receive differences

`negtimersub` writes a difference of two times as a sign and a magnitude: both members are
magnitudes under the sign of the seconds, and where no whole second is left the microseconds carry
the sign.  `calculateRecvDiff` reads that encoding back, so its `diff` is the exact difference,
truncated toward zero to milliseconds.  The seconds may have either sign.
-/

namespace AnalyseTCP

/-- `tv` is how `negtimersub` writes a difference of `d` microseconds. -/
structure Timeval.Encodes (tv : Timeval) (d : ℤ) : Prop where
  low : -1000000 < tv.tvUsec
  high : tv.tvUsec < 1000000
  magnitude : tv.tvSec ≠ 0 → 0 ≤ tv.tvUsec
  value : d = if 0 ≤ tv.tvSec then tv.getUsecs else tv.tvSec * 1000000 - tv.tvUsec

/-- The microseconds of a normalised time. -/
def Timeval.Normal (tv : Timeval) : Prop := 0 ≤ tv.tvUsec ∧ tv.tvUsec < 1000000

instance (tv : Timeval) : Decidable tv.Normal := inferInstanceAs (Decidable (_ ∧ _))

section

variable {a b : Timeval}

theorem Timeval.Encodes.of_nonneg {sec usec d : ℤ} (hsec : 0 ≤ sec) (hlow : -1000000 < usec)
    (hhigh : usec < 1000000) (hmagnitude : sec ≠ 0 → 0 ≤ usec) (hd : d = sec * 1000000 + usec) :
    Encodes ⟨sec, usec⟩ d := by
  refine ⟨hlow, hhigh, hmagnitude, ?_⟩
  rw [if_pos hsec]
  exact hd

theorem Timeval.Encodes.of_neg {sec usec d : ℤ} (hsec : sec < 0) (husec : 0 ≤ usec)
    (hhigh : usec < 1000000) (hd : d = sec * 1000000 - usec) : Encodes ⟨sec, usec⟩ d := by
  refine ⟨lt_of_lt_of_le (by decide) husec, hhigh, fun _ => husec, ?_⟩
  rw [if_neg hsec.not_ge]
  exact hd

theorem Timeval.negSub_encodes (ha : a.Normal) (hb : b.Normal) :
    (a.negSub b).Encodes (a.getUsecs - b.getUsecs) := by
  obtain ⟨ha₀, ha₁⟩ := ha
  obtain ⟨hb₀, hb₁⟩ := hb
  have hdiff : a.getUsecs - b.getUsecs =
      (a.tvSec - b.tvSec) * 1000000 + (a.tvUsec - b.tvUsec) := by
    unfold getUsecs
    ring
  have husec : -1000000 < a.tvUsec - b.tvUsec ∧ a.tvUsec - b.tvUsec < 1000000 := by omega
  rw [hdiff]
  unfold negSub
  dsimp only
  generalize a.tvSec - b.tvSec = sec
  generalize a.tvUsec - b.tvUsec = usec at *
  by_cases hpos : 0 < sec
  · rw [if_pos hpos]
    by_cases hborrow : usec < 0
    · -- a second is borrowed, and none may be left
      rw [if_pos hborrow]
      apply Encodes.of_nonneg <;> omega
    · rw [if_neg hborrow]
      apply Encodes.of_nonneg <;> omega
  · rw [if_neg hpos]
    by_cases hneg : sec < 0
    · rw [if_pos hneg]
      by_cases hback : 0 < usec
      · -- a second is given back; the microseconds take the sign if it was the only one
        rw [if_pos hback, if_pos hback]
        by_cases hlast : sec + 1 = 0
        · rw [if_pos hlast]
          apply Encodes.of_nonneg <;> omega
        · rw [if_neg hlast]
          apply Encodes.of_neg <;> omega
      · rw [if_neg hback, if_neg hback, if_neg (show sec ≠ 0 by omega)]
        apply Encodes.of_neg <;> omega
    · -- within one second the microseconds keep their sign
      rw [if_neg hneg]
      apply Encodes.of_nonneg <;> omega

namespace ByteRange

theorem recvMillis_of_encodes {tv : Timeval} {d : ℤ} (h : tv.Encodes d) :
    recvMillis tv = d.tdiv 1000 := by
  have hvalue := h.value
  unfold recvMillis
  dsimp only
  by_cases hsec : 0 ≤ tv.tvSec
  · rw [if_pos hsec] at hvalue
    unfold Timeval.getUsecs at hvalue
    rw [if_pos (show 0 ≤ tv.tvSec * 1000 by omega)]
    by_cases hzero : tv.tvSec = 0
    · rw [hvalue, hzero, zero_mul, zero_mul, zero_add, zero_add]
    · have husec := h.magnitude hzero
      rw [Int.tdiv_eq_ediv_of_nonneg husec, Int.tdiv_eq_ediv_of_nonneg (by omega)]
      omega
  · rw [if_neg hsec] at hvalue
    have husec := h.magnitude (by omega)
    rw [if_neg (show ¬0 ≤ tv.tvSec * 1000 by omega)]
    have hneg : d = -(-tv.tvSec * 1000000 + tv.tvUsec) := by omega
    rw [hneg, Int.neg_tdiv, Int.tdiv_eq_ediv_of_nonneg husec,
      Int.tdiv_eq_ediv_of_nonneg (by omega)]
    omega

/-- The milliseconds of the whole seconds are no larger than the result, so a result that fits a
`long` is computed without overflow. -/
theorem millis_le_recvMillis (ha : a.Normal) (hb : b.Normal) :
    ((a.negSub b).tvSec * 1000).natAbs ≤ (recvMillis (a.negSub b)).natAbs := by
  obtain ⟨hlow, hhigh, hmagnitude, -⟩ := Timeval.negSub_encodes ha hb
  unfold recvMillis
  dsimp only
  by_cases hsec : (a.negSub b).tvSec = 0
  · rw [hsec]
    exact Nat.zero_le _
  · have husec := hmagnitude hsec
    rw [Int.tdiv_eq_ediv_of_nonneg husec]
    split <;> omega

theorem calculateRecvDiff_of_times {r : ByteRange} {recv : Option Timeval} (ha : a.Normal)
    (hb : b.Normal) (hrecv : recv.or r.receivedTstampPcap = some a)
    (hsent : r.matchedSendTime = some b) :
    r.calculateRecvDiff recv = .ok ((a.getUsecs - b.getUsecs).tdiv 1000) := by
  unfold calculateRecvDiff
  rw [hrecv, hsent, ← recvMillis_of_encodes (Timeval.negSub_encodes ha hb)]

/-- For the receive time `a`, given to the call or the range's own, and the send time `b`, the call
sets `diff` to the truncated difference, and to its negation with the two times swapped. -/
structure TruncatesDiff (a b : Timeval) : Prop where
  given : ∀ r : ByteRange, r.matchedSendTime = some b →
    r.calculateRecvDiff (some a) = .ok ((a.getUsecs - b.getUsecs).tdiv 1000)
  stored : ∀ r : ByteRange, r.matchedSendTime = some b → r.receivedTstampPcap = some a →
    r.calculateRecvDiff none = .ok ((a.getUsecs - b.getUsecs).tdiv 1000)
  swapped : ∀ r s : ByteRange, r.matchedSendTime = some b → s.matchedSendTime = some a →
    ∃ diff, r.calculateRecvDiff (some a) = .ok diff ∧ s.calculateRecvDiff (some b) = .ok (-diff)

theorem calculateRecvDiff_truncates (a b : Timeval) (ha : a.Normal) (hb : b.Normal) :
    TruncatesDiff a b where
  given r hsent := calculateRecvDiff_of_times ha hb rfl hsent
  stored r hsent hrecv := calculateRecvDiff_of_times ha hb hrecv hsent
  swapped r s hr hs := by
    refine ⟨_, calculateRecvDiff_of_times ha hb rfl hr, ?_⟩
    have hback : b.getUsecs - a.getUsecs = -(a.getUsecs - b.getUsecs) := by ring
    rw [calculateRecvDiff_of_times hb ha rfl hs, hback, Int.neg_tdiv]

/-- A packet that the receiver's clock shows 1.0002 s before it was sent. -/
theorem calculateRecvDiff_truncates_early :
    TruncatesDiff ⟨4, 999900⟩ ⟨6, 100⟩ ∧
      { blank 0 10 with sentTstampPcap := [(⟨6, 100⟩, .pkt)] }.calculateRecvDiff
        (some ⟨4, 999900⟩) = .ok (-1000) :=
  have htruncates := calculateRecvDiff_truncates ⟨4, 999900⟩ ⟨6, 100⟩ (by decide) (by decide)
  ⟨htruncates, htruncates.given _ rfl⟩

end ByteRange

end

end AnalyseTCP
