import AnalyseTCP.RangeManager

/-!
# `RangeManager::processAck`

The forward loop resumes at `highestAckedByteRangeIt`.  Only an ACK that lies at or below the start
of the range the loop has reached looks backwards: first for a FIN one byte below, then for the
range it repeats.
-/

namespace AnalyseTCP

namespace RangeManager

/-- The ACK covers this range and no more. -/
def ackExact (seg : DataSeg) (atCursor : Bool) (r : ByteRange) : ByteRange :=
  let r :=
    if !r.acked then
      let r := { r with tcpWindow := seg.window }
      if r.byteCount = 0 then
        match r.tstampsTcp with
        -- the range is itself an ACK on this ACK, or has no timestamps to tell
        | [] => r
        | (_, tsecr) :: _ =>
            if tsecr = seg.tstampTcp then r else r.insertAckTime seg.tstampPcap
      else r.insertAckTime seg.tstampPcap
    else if atCursor then
      -- acknowledged again where the loop stopped last: a duplicate if the window is the same
      if 0 < seg.window ∧ seg.window = r.tcpWindow then
        { r with dupackCount := r.dupackCount + 1 }
      else { r with tcpWindow := seg.window }
    else r
  let r := if seg.sacks then r.registerSacks seg else r
  { r with ackCount := r.ackCount + 1, tcpWindow := seg.window }

def countAck (r : ByteRange) : ByteRange := { r with ackCount := r.ackCount + 1 }

/-- The ACK covers more than this range. -/
def markAcked (seg : DataSeg) (r : ByteRange) : ByteRange :=
  if r.acked then r else r.insertAckTime seg.tstampPcap

/-- The first part of a range that the ACK cuts.  Whether it was acknowledged is not asked. -/
def ackPart (seg : DataSeg) (head : ByteRange) : ByteRange :=
  countAck { head.insertAckTime seg.tstampPcap with tcpWindow := seg.window }

/-- Where the scan for a FIN one byte below the ACK ends. -/
inductive FinScan
  | found (key : ℕ)
  | stopped (prevs : List (ℕ × ByteRange))

/-- The entries before the current one, nearest first.  The loop has no check for `begin()`. -/
def finScan : List (ℕ × ByteRange) → Except Abort FinScan
  | [] => .error .outOfRange
  | (key, prev) :: prevs =>
      if prev.fin.val ≠ 0 then .ok (.found key)
      else if prev.packetSentCount.val = prev.dataSentCount.val then
        .ok (.stopped ((key, prev) :: prevs))
      else finScan prevs

/-- The range an old ACK repeats (`some (some key)`), none of them (`some none`), or the start of
the map. -/
def oldAckScan (ack : ℕ) : List (ℕ × ByteRange) → Option (Option ℕ)
  | [] => none
  | (key, prev) :: prevs =>
      if ack = prev.endSeq then some (some key)
      else if prev.endSeq < ack then some none
      else oldAckScan ack prevs

def countAckAt (rm : RangeManager) (key : ℕ) : RangeManager :=
  { rm with ranges := rm.ranges.modify key countAck }

/-- The FIN one byte below the ACK, looked for from the range before the current one. -/
def findFin (ack : ℕ) : List (ℕ × ByteRange) → Except Abort FinScan
  | [] => .ok (.stopped [])
  | (pkey, prev) :: prevs =>
      if sub64 ack 1 = prev.endSeq then finScan ((pkey, prev) :: prevs)
      else .ok (.stopped ((pkey, prev) :: prevs))

/-- What an ACK at or below the start of `tmp` counts for. -/
def countOld (rm : RangeManager) (seg : DataSeg) (tmp : ByteRange) (ret : Bool) :
    FinScan → RangeManager × Bool
  | .found fkey => (rm.countAckAt fkey, true)
  | .stopped prevs =>
      -- old data is acknowledged again
      if seg.ack < tmp.endSeq then
        match oldAckScan seg.ack prevs with
        | some (some okey) => (rm.countAckAt okey, true)
        | some none => (rm, true)
        | none => (rm, false)
      -- the range before is missing in the trace
      else if seg.ack = tmp.startSeq then (rm, false)
      else (rm, ret)

/-- The ACK is at or below the start of the range `tmp` at `key`. -/
def ackOld (rm : RangeManager) (seg : DataSeg) (key : ℕ) (tmp : ByteRange) (ret : Bool) :
    Except Abort (RangeManager × Bool) :=
  match (rm.ranges.below key).reverse with
  -- the first registered range
  | [] => .ok (rm, false)
  | prev :: prevs => do
      let scan ← findFin seg.ack (prev :: prevs)
      return rm.countOld seg tmp ret scan

/-- How the body of the forward loop ends: it returns, or it goes on with the next range. -/
inductive AckOutcome
  | done (rm : RangeManager) (ret : Bool)
  | next (rm : RangeManager) (ret : Bool)

/-- The body of the forward loop, for the range `tmp` at `key`. -/
def ackBody (rm : RangeManager) (seg : DataSeg) (key : ℕ) (tmp : ByteRange) (ret : Bool) :
    Except Abort AckOutcome :=
  -- a range without data may end one below the ACK
  if seg.ack = tmp.endSeq ∨ (tmp.byteCount = 0 ∧ sub64 seg.ack 1 = tmp.endSeq) then
    let atCursor := decide (rm.highestAckedByteRangeIt = some key)
    .ok (.done { rm with
      ranges := rm.ranges.modify key (ackExact seg atCursor)
      highestAckedByteRangeIt := some key } true)
  else if tmp.endSeq < seg.ack then
    match tmp.sentTstampPcap with
    | [] => .error .outOfRange
    | (sent, _) :: _ =>
        -- the ACK was captured before the range was sent
        if seg.tstampPcap.before sent then .ok (.done rm false)
        else
          .ok (.next { rm with
            ranges := rm.ranges.modify key (markAcked seg)
            highestAckedByteRangeIt := some key } (ret || !tmp.acked))
  else if tmp.startSeq < seg.ack ∧ seg.ack < tmp.endSeq then do
    -- the ACK covers a part of the range
    let (head, newBr) ← tmp.splitEnd seg.ack tmp.endSeq
    let ranges := rm.ranges.modify key fun _ => ackPart seg head
    return .done { rm with
      ranges := ranges.insert newBr.startSeq newBr
      highestAckedByteRangeIt := some newBr.startSeq } true
  -- The FIN test that follows in the source asks for `ack == endSeq`, which was handled above.
  else do
    let (rm, ret) ← rm.ackOld seg key tmp ret
    return .done rm ret

def ackLoop (seg : DataSeg) :
    List (ℕ × ByteRange) → RangeManager → Bool → Except Abort (RangeManager × Bool)
  | [], rm, ret => .ok (rm, ret)
  | (key, tmp) :: rest, rm, ret =>
      match rm.ackBody seg key tmp ret with
      | .error e => .error e
      | .ok (.done rm ret) => .ok (rm, ret)
      | .ok (.next rm ret) => ackLoop seg rest rm ret

/-- Where the forward loop begins. -/
def resume (rm : RangeManager) : List (ℕ × ByteRange) :=
  match rm.highestAckedByteRangeIt with
  | none => rm.ranges.entries
  | some key => rm.ranges.atLeast key

def processAck (rm : RangeManager) (seg : DataSeg) : Except Abort (RangeManager × Bool) :=
  match rm.resume with
  | [] => .error .outOfRange
  | (key, first) :: rest =>
      let rm := { rm with ackCount := rm.ackCount + 1 }
      if seg.ack < first.startSeq then .ok (rm, true)
      else ackLoop seg ((key, first) :: rest) rm false

end RangeManager

end AnalyseTCP
