import AnalyseTCP.RangeManager
import Mathlib.Algebra.Order.Field.Rat
import Mathlib.Data.Rat.Floor

/-!
# `RangeManager::calculateLatencyVariation`

The difference between the receive time and the send time of every received range, in whole
milliseconds, corrected by the drift between the two clocks.  The drift is an exact rational; a
`long` is an integer.  Only these functions use a range's `diff`, so it stands beside the range.
-/

namespace AnalyseTCP

/-- `negtimersub`: for a negative difference both members are magnitudes, under the sign of the
first one that is not zero. -/
def Timeval.negSub (a b : Timeval) : Timeval :=
  let sec := a.tvSec - b.tvSec
  let usec := a.tvUsec - b.tvUsec
  if 0 < sec then
    if usec < 0 then ⟨sec - 1, usec + 1000000⟩ else ⟨sec, usec⟩
  else if sec < 0 then
    let sec' := if 0 < usec then sec + 1 else sec
    let usec' := if 0 < usec then 1000000 - usec else usec * -1
    ⟨sec', if sec' = 0 then usec' * -1 else usec'⟩
  else ⟨sec, usec⟩

/-- `std::numeric_limits<long>::max()`. -/
def longMax : ℤ := 2 ^ 63 - 1

/-- `(long) q`. -/
def truncLong (q : ℚ) : ℤ := q.num.tdiv q.den

namespace ByteRange

/-- The milliseconds of `calculateRecvDiff`. -/
def recvMillis (tv : Timeval) : ℤ :=
  let ms := tv.tvSec * 1000
  if 0 ≤ ms then ms + tv.tvUsec.tdiv 1000 else ms - tv.tvUsec.tdiv 1000

/-- The send time that a receive time is compared with. -/
def matchedSendTime (r : ByteRange) : Option Timeval :=
  (r.sentTstampPcap[r.sendTcpStampRecvIndex]?).map Prod.fst

/-- `calculateRecvDiff(recv_tstamp)`, where `none` is `NULL`. -/
def calculateRecvDiff (r : ByteRange) (recvTstamp : Option Timeval) : Except Abort ℤ :=
  match recvTstamp.or r.receivedTstampPcap, r.matchedSendTime with
  | some recv, some sent => .ok (recvMillis (recv.negSub sent))
  -- a receive time that was never written, or no such transmission
  | _, _ => .error .outOfRange

/-- `*getSendTime()`, which is `*NULL` for the time zero. -/
def getSendTime (r : ByteRange) : Except Abort Timeval :=
  match r.sentTstampPcap with
  | [] => .error .outOfRange
  | (sent, _) :: _ => if sent = Timeval.zero then .error .outOfRange else .ok sent

/-- Whether data was received for the range. -/
def received (r : ByteRange) : Bool := r.dataReceivedCount.val ≠ 0

end ByteRange

/-- A range and its `diff`. -/
structure DiffRange where
  range : ByteRange
  diff : ℤ

namespace RangeManager

/-- `last_app_layer_tstamp` after the range `r`. -/
def lastAppLayer (transport : Bool) (last : Option Timeval) (r : ByteRange) : Option Timeval :=
  if !transport && r.appLayerLatencyTstamp then r.receivedTstampPcap else last

def registerRecvDiffs (transport : Bool) :
    Option Timeval → List (ℕ × ByteRange) → Except Abort (List DiffRange)
  | _, [] => .ok []
  | last, (_, r) :: l =>
      if r.received then do
        let last := lastAppLayer transport last r
        let r := r.matchReceivedType.1
        let diff ← r.calculateRecvDiff last
        let rest ← registerRecvDiffs transport last l
        return ⟨r, diff⟩ :: rest
      -- a range that was not received keeps the `diff` of its constructor
      else do
        let rest ← registerRecvDiffs transport last l
        return ⟨r, 0⟩ :: rest

/-! ## The clock drift -/

/-- The least `diff` of a scan and the send time of its range. -/
structure LeastDiff where
  diff : ℤ := longMax
  sendTime : Timeval := Timeval.zero
deriving DecidableEq

/-- One of the two scans of `calculateClockDrift`; only the second one skips differences that were
not calculated. -/
def leastDiff (skipZero : Bool) : LeastDiff → List DiffRange → Except Abort LeastDiff
  | least, [] => .ok least
  | least, d :: l =>
      if d.diff < least.diff ∧ ¬(skipZero ∧ d.diff = 0) then do
        let sent ← d.range.getSendTime
        leastDiff skipZero ⟨d.diff, sent⟩ l
      else leastDiff skipZero least l

/-- How many ranges each scan visits. -/
def scanned (size : ℕ) : ℕ := min 200 (size / 2)

/-- The `durationSec` of `calculateClockDrift`, an integer division included. -/
def driftDuration (start stop : LeastDiff) : ℤ :=
  let tv := stop.sendTime.sub start.sendTime
  tv.tvSec + tv.tvUsec.tdiv 10000000

/-- The drift between two scans.  Over no whole second the program's `double` is not finite, and
there is no such rational. -/
def driftBetween (start stop : LeastDiff) : ℚ :=
  if stop.sendTime = Timeval.zero ∨ start.sendTime = Timeval.zero then 0
  else ((stop.diff - start.diff : ℤ) : ℚ) / driftDuration start stop

def calculateClockDrift (ranges : List DiffRange) : Except Abort ℚ := do
  let n := scanned ranges.length
  let start ← leastDiff false {} (ranges.take n)
  let stop ← leastDiff true {} (ranges.reverse.take n)
  return driftBetween start stop

/-! ## The compensation -/

/-- Seconds between the send times of two ranges, in steps of a millisecond. -/
def getTimeInterval (start stop : ByteRange) : Except Abort ℚ := do
  let startTv ← start.getSendTime
  let current ← stop.getSendTime
  let tv := current.sub startTv
  return ((tv.tvSec * 1000 + tv.tvUsec.tdiv 1000 : ℤ) : ℚ) / 1000

/-- A difference corrected by the drift since the first range was sent. -/
def compensated (drift : ℚ) (first : ByteRange) (d : DiffRange) : Except Abort ℚ := do
  let duration ← getTimeInterval first d.range
  return d.diff - drift * duration

/-- The loop of `doDriftCompensation` over the analysed ranges, from a value of `lowestRecvDiff`;
`first` is the first range of all. -/
def doDriftCompensation (drift : ℚ) (first : ByteRange) :
    ℤ → List DiffRange → Except Abort (List DiffRange × ℤ)
  | lowest, [] => .ok ([], lowest)
  | lowest, d :: l =>
      if 0 < d.diff then do
        let diff ← compensated drift first d
        let out ← doDriftCompensation drift first
          (if diff < lowest then truncLong diff else lowest) l
        return (⟨d.range, truncLong diff⟩ :: out.1, out.2)
      else do
        -- a difference that is not positive is neither corrected nor the lowest
        let out ← doDriftCompensation drift first lowest l
        return (d :: out.1, out.2)

/-- What the call leaves: the ranges with their differences, and `lowestRecvDiff`. -/
structure LatencyVariation where
  ranges : List DiffRange
  lowestRecvDiff : ℤ

/-- The call on the entries of a map whose analysed interval starts with the entry number `start`
and has `count` of them. -/
def calculateLatencyVariation (transport : Bool) (start count : ℕ) (l : List (ℕ × ByteRange)) :
    Except Abort LatencyVariation := do
  let ranges ← registerRecvDiffs transport none l
  let drift ← calculateClockDrift ranges
  match ranges with
  | [] => return ⟨[], longMax⟩
  | first :: _ => do
      let out ← doDriftCompensation drift first.range longMax ((ranges.drop start).take count)
      return ⟨ranges.take start ++ out.1 ++ (ranges.drop start).drop count, out.2⟩

/-- The value `getRecvDiff() - lowestRecvDiff` of every received range, as
`makeByteLatencyVariationCDF` uses it. -/
def LatencyVariation.relative (v : LatencyVariation) : List (ℕ × ℤ) :=
  (v.ranges.filter fun d => d.range.received).map fun d =>
    (d.range.startSeq, d.diff - v.lowestRecvDiff)

theorem matchReceivedType_blind {α : Type} {f : ByteRange → α}
    (hf : ∀ r i t n, f { r with sendTcpStampRecvIndex := i, recvType := t, recvTypeNum := n } = f r)
    (r : ByteRange) : f r.matchReceivedType.1 = f r := by
  unfold ByteRange.matchReceivedType
  split
  · exact hf r _ _ r.recvTypeNum
  · exact hf r _ _ _
  · split
    · exact hf r r.sendTcpStampRecvIndex _ _
    · rfl

end RangeManager

end AnalyseTCP
