import AnalyseTCP.RangeManager

/-!
# `RangeManager::calculateRealLoss`

One pass over the analysed ranges that adds every counter to the connection's totals.  The totals
that are only ever increased are naturals; `analysed_lost_bytes` and `analysed_lost_ranges_count`
receive signed differences, so their 64-bit wrap-around is kept.
-/

namespace AnalyseTCP

/-- The `analysed_*` and `rdb_*` members of `RangeManager` that `calculateRealLoss` fills. -/
structure LossTotals where
  rdbByteHits : ℕ := 0
  rdbByteMiss : ℕ := 0
  rdbPacketHits : ℕ := 0
  analysedSentRangesCount : ℕ := 0
  analysedRedundantBytes : ℕ := 0
  analysedDataPacketCount : ℕ := 0
  analysedRetrNoPayloadPacketCount : ℕ := 0
  analysedSynCount : ℕ := 0
  analysedFinCount : ℕ := 0
  analysedRstCount : ℕ := 0
  analysedPureAcksCount : ℕ := 0
  analysedRdbPacketCount : ℕ := 0
  analysedBytesSent : ℕ := 0
  analysedBytesSentUnique : ℕ := 0
  analysedPacketSentCount : ℕ := 0
  analysedMaxRangePayload : ℕ := 0
  analysedRetrPacketCount : ℕ := 0
  analysedBytesRetransmitted : ℕ := 0
  analysedAckCount : ℕ := 0
  analysedPacketSentCountInDump : ℕ := 0
  analysedPacketReceivedCount : ℕ := 0
  analysedLostRangesCount : ℕ := 0
  analysedLostBytes : ℕ := 0
  rdbPacketMisses : ℤ := 0
deriving DecidableEq, Repr

namespace LossTotals

/-- `total += d` for an unsigned 64-bit `total` and a signed `d`. -/
def addSigned (total : ℕ) (d : ℤ) : ℕ := (((total : ℤ) + d) % 2 ^ 64).toNat

variable (withRecv : Bool)

/-- The loop body, after `matchReceivedType`. -/
def addRange (t : LossTotals) (r : ByteRange) : LossTotals :=
  let rdbHit : Bool := r.recvType = .rdb
  let sentCount := r.dataSentCount.val
  let lost : ℤ := if withRecv then (sentCount : ℤ) - r.dataReceivedCount.val else 0
  { rdbByteHits :=
      t.rdbByteHits + if r.rdbCount.val ≠ 0 ∧ rdbHit then r.byteCount else 0
    rdbByteMiss := t.rdbByteMiss + r.rdbMissCount.val * r.byteCount
    rdbPacketHits := t.rdbPacketHits + rdbHit.toNat
    analysedSentRangesCount := t.analysedSentRangesCount + sentCount
    analysedRedundantBytes :=
      t.analysedRedundantBytes + r.byteCount * (r.dataRetransCount.val + r.rdbCount.val)
    analysedDataPacketCount :=
      t.analysedDataPacketCount + if r.byteCount ≠ 0 then 1 + r.dataRetransCount.val else 0
    analysedRetrNoPayloadPacketCount :=
      t.analysedRetrNoPayloadPacketCount +
        if r.byteCount ≠ 0 then 0 else r.packetRetransCount.val
    analysedSynCount := t.analysedSynCount + r.syn.val
    analysedFinCount := t.analysedFinCount + r.fin.val
    analysedRstCount := t.analysedRstCount + r.rst.val
    analysedPureAcksCount := t.analysedPureAcksCount + r.ackedSent.val
    analysedRdbPacketCount := t.analysedRdbPacketCount + r.originalPacketIsRdb.toNat
    analysedBytesSent := t.analysedBytesSent + sentCount * r.byteCount
    analysedBytesSentUnique := t.analysedBytesSentUnique + r.byteCount
    analysedPacketSentCount :=
      t.analysedPacketSentCount + (r.syn.val + r.rst.val)
        + (if r.byteCount = 0 then r.fin.val else 0) + (if r.byteCount = 0 then 0 else 1)
        + r.dataRetransCount.val + r.ackedSent.val
    analysedMaxRangePayload := max t.analysedMaxRangePayload r.originalPayloadSize
    analysedRetrPacketCount := t.analysedRetrPacketCount + r.packetRetransCount.val
    analysedBytesRetransmitted :=
      t.analysedBytesRetransmitted + r.dataRetransCount.val * r.byteCount
    analysedAckCount := t.analysedAckCount + r.ackCount.val
    analysedPacketSentCountInDump :=
      t.analysedPacketSentCountInDump
        + (r.packetSentCount.val + r.packetRetransCount.val + r.ackedSent.val)
    analysedPacketReceivedCount := t.analysedPacketReceivedCount + r.packetReceivedCount.val
    analysedLostRangesCount := addSigned t.analysedLostRangesCount lost
    analysedLostBytes := addSigned t.analysedLostBytes (lost * r.byteCount)
    rdbPacketMisses := t.rdbPacketMisses }

end LossTotals

namespace RangeManager

/-- `matchReceivedType` and the RDB hit mark, which the pass leaves on the range itself. -/
def classifyRange (withRecv : Bool) (r : ByteRange) : ByteRange :=
  let r := if withRecv then r.matchReceivedType.1 else r
  if r.rdbCount.val ≠ 0 ∧ r.recvType = .rdb then { r with rdbHitCount := 1 } else r

/-- The totals over the analysed ranges, from the totals of a fresh manager. -/
def calculateRealLoss (withRecv : Bool) (analysed : List (ℕ × ByteRange)) : LossTotals :=
  let t := analysed.foldl
    (fun t e => t.addRange withRecv (classifyRange withRecv e.2)) ({} : LossTotals)
  { t with rdbPacketMisses := (t.analysedRdbPacketCount : ℤ) - t.rdbPacketHits }

end RangeManager

end AnalyseTCP
