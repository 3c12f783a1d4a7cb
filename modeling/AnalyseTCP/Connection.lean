import AnalyseTCP.ProcessAck

/-!
# `Connection`

Unwrapping of 32-bit sequence numbers, and the classification of sent packets that runs before a
packet reaches the `RangeManager`.
-/

namespace AnalyseTCP

/-! ## `getRelativeSequenceNumber` -/

/-- `before` in `util.h`. -/
def before (seq1 seq2 : ℕ) : Bool := decide (signed32 (sub32 seq1 seq2) < 0)

/-- `after_or_equal` in `util.h`: `seq2` is at or after `seq1`. -/
def afterOrEqual (seq1 seq2 : ℕ) : Bool := decide (0 ≤ signed32 (sub32 seq2 seq1))

/-- `std::numeric_limits<ulong>::max()`, the failure sentinel. -/
def ulongMax : ℕ := 2 ^ 64 - 1

/-- The common end of all branches: `wrapIndex` counts how often the stream has wrapped. -/
def relativeFromWrapIndex (seq firstSeq wrapIndex : ℕ) : Except Abort ℕ :=
  let wraps := wrapIndex / 4294967296
  let seqRelative := sub64 (add64 seq (wraps * 4294967296)) firstSeq
  if 9999999999 < seqRelative then .error .sequenceNumber else .ok seqRelative

def getRelativeSequenceNumber (seq firstSeq largestSeq largestSeqAbsolute : ℕ) :
    Except Abort ℕ :=
  let wrapIndex := add64 (add64 firstSeq largestSeq) 1
  if seq < largestSeqAbsolute then
    if before seq largestSeqAbsolute then
      -- below the reference: older data, or from before the trace
      if before seq firstSeq then .ok ulongMax
      else
        relativeFromWrapIndex seq firstSeq (sub64 wrapIndex (sub32 largestSeqAbsolute seq))
    else
      -- `seq` has wrapped
      relativeFromWrapIndex seq firstSeq
        (add64 wrapIndex (add32 (sub32 0 largestSeqAbsolute) seq))
  else if afterOrEqual largestSeqAbsolute seq then
    relativeFromWrapIndex seq firstSeq (add64 wrapIndex (sub32 seq largestSeqAbsolute))
  else
    -- the reference has just wrapped
    relativeFromWrapIndex seq firstSeq
      (sub64 wrapIndex (add32 (sub32 0 seq) largestSeqAbsolute))

/-! ## Sent packets -/

structure Connection where
  rm : RangeManager
  nrPacketsSent : ℕ := 0
  nrDataPacketsSent : ℕ := 0
  totPacketSize : ℕ := 0
  totBytesSent : ℕ := 0
  totRDBBytesSent : ℕ := 0
  totNewDataSent : ℕ := 0
  totRetransBytesSent : ℕ := 0
  nrRetrans : ℕ := 0
  bundleCount : ℕ := 0
  lastLargestStartSeq : ℕ := 0
  lastLargestEndSeq : ℕ := 0
  lastLargestSeqAbsolute : ℕ
  closed : Bool := false
  ignoredCount : ℕ := 0

namespace Connection

/-- The constructor, for a first packet with absolute sequence number `seq`. -/
def new (seq : ℕ) : Connection where
  rm := RangeManager.new seq
  lastLargestSeqAbsolute := seq

/-- New data: `sd` ends above everything sent before.  A segment that also starts below that is a
bundle. -/
def registerNewData (conn : Connection) (sd : SendData) : Connection × SendData :=
  let d := sd.data
  let last := conn.lastLargestEndSeq
  -- three conditions with one effect: the sum tells a stream without SYN from a repeated start
  let isBundle :=
    (d.seq = conn.lastLargestStartSeq ∧ add64 conn.lastLargestStartSeq last ≠ 0) ∨
      (conn.lastLargestStartSeq < d.seq ∧ d.seq < last) ∨ d.seq < last
  let conn' :=
    { conn with
      lastLargestEndSeq := d.endSeq
      lastLargestSeqAbsolute := add32 d.seqAbsolute d.payloadSize }
  if isBundle then
    ({ conn' with
        bundleCount := conn.bundleCount + 1
        totRDBBytesSent := add64 conn.totRDBBytesSent (sub64 last d.seq)
        totNewDataSent := add64 conn.totNewDataSent (sub64 d.endSeq last) },
      { sd with data := { d with isRdb := true, rdbEndSeq := last } })
  else
    ({ conn' with totNewDataSent := add64 conn.totNewDataSent d.payloadSize }, sd)

/-- A packet that ends at or below what was sent before. -/
def registerRetrans (conn : Connection) (sd : SendData) : Connection × SendData :=
  ({ conn with
      nrRetrans := conn.nrRetrans + 1
      totRetransBytesSent := add64 conn.totRetransBytesSent sd.data.payloadSize },
    { sd with data := { sd.data with retrans := true } })

/-- An unexpected sequence number: anything is dropped once the connection is closed; a SYN either
closes it (port reuse) or restarts the numbering at itself. -/
def registerUnexpected (conn : Connection) (sd : SendData) : Option (Connection × SendData) :=
  if conn.closed then none
  else if sd.data.syn then
    if 10 < ((sd.data.seqAbsolute : ℤ) - conn.rm.firstSeq).natAbs then
      some ({ conn with closed := true }, sd)
    else
      some ({ conn with rm := { conn.rm with firstSeq := sd.data.seqAbsolute } },
        { sd with data := { sd.data with seq := 0, endSeq := 0 } })
  else some (conn, sd)

/-- `registerSent`: the connection, the packet with the marks it sets, and the return value. -/
def registerSent (conn : Connection) (sd : SendData) : Connection × SendData × Bool :=
  let conn :=
    { conn with
      totPacketSize := conn.totPacketSize + sd.totalSize
      nrPacketsSent := conn.nrPacketsSent + 1 }
  let checked :=
    if conn.lastLargestEndSeq < sd.data.endSeq ∧ conn.lastLargestEndSeq + 1 ≠ sd.data.seq then
      conn.registerUnexpected sd
    else some (conn, sd)
  match checked with
  | none => ({ conn with ignoredCount := conn.ignoredCount + 1 }, sd, false)
  | some (conn, sd) =>
      if sd.data.payloadSize = 0 then (conn, sd, true)
      else
        -- the two branches of the source for old data do the same
        let (conn, sd) :=
          if conn.lastLargestEndSeq < sd.data.endSeq then conn.registerNewData sd
          else conn.registerRetrans sd
        ({ conn with
            nrDataPacketsSent := conn.nrDataPacketsSent + 1
            lastLargestStartSeq := sd.data.seq
            totBytesSent := add64 conn.totBytesSent sd.data.payloadSize }, sd, true)

def registerRange (conn : Connection) (sd : SendData) : Except Abort Connection := do
  let rm ← conn.rm.insertSentRange sd
  return { conn with rm := rm }

/-- The end of `Dump::processSent`: a packet that `registerSent` accepts reaches the ranges. -/
def processSent (conn : Connection) (sd : SendData) : Except Abort Connection :=
  match conn.registerSent sd with
  | (conn, sd, true) => conn.registerRange sd
  | (conn, _, false) => .ok conn

end Connection

namespace Dump

/-- The packet as `processSent` fills it in, for the relative sequence number `seq`. -/
def stampSent (sd : SendData) (seq : ℕ) : SendData :=
  { sd with
    data :=
      { sd.data with
        seq := seq
        endSeq := add64 seq sd.data.payloadSize
        retrans := false
        isRdb := false
        sacks := false
        rdbEndSeq := 0 } }

/-- `Dump::processSent` on the packet's connection: a number before the trace drops the packet. -/
def processSent (conn : Connection) (sd : SendData) : Except Abort Connection := do
  let seq ← getRelativeSequenceNumber sd.data.seqAbsolute conn.rm.firstSeq conn.lastLargestEndSeq
    conn.lastLargestSeqAbsolute
  if seq = ulongMax then return conn
  else conn.processSent (stampSent sd seq)

end Dump

end AnalyseTCP
