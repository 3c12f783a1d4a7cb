import AnalyseTCP.Common
import AnalyseTCP.Lib.Counter

/-!
# `ByteRange`

One contiguous range of the sent byte stream with its counters, as `ByteRange.h` declares it.  The
8-bit counters are `Counter 8`; `received_tstamp_pcap`, which no constructor sets, is an `Option`.
-/

namespace AnalyseTCP

/-- `received_type`. -/
inductive ReceivedType
  | deflt | data | rdb | retr
deriving DecidableEq, Repr

structure ByteRange where
  startSeq : ℕ
  endSeq : ℕ
  byteCount : ℕ
  originalPayloadSize : ℕ
  packetSentCount : Counter 8
  packetRetransCount : Counter 8
  packetReceivedCount : Counter 8
  dataReceivedCount : Counter 8
  dataSentCount : Counter 8
  dataRetransCount : Counter 8
  rdbCount : Counter 8
  rdbMissCount : Counter 8
  rdbHitCount : Counter 8
  sojournTstamps : List (ℕ × Timeval)
  sentTstampPcap : List (Timeval × SentType)
  receivedTstampPcap : Option Timeval
  sendTcpStampRecvIndex : ℕ
  receivedTstampTcp : ℕ
  tstampsTcp : List (ℕ × ℕ)
  rdbTstampsTcp : List ℕ
  tcpSacks : List (List (ℕ × ℕ))
  lostTstampsTcp : List (ℕ × Timeval)
  ackTime : Timeval
  acked : Bool
  originalPacketIsRdb : Bool
  recvType : ReceivedType
  sojournTime : Bool
  appLayerLatencyTstamp : Bool
  recvTypeNum : ℕ
  sentDataPktPcapIndex : ℤ
  fin : Counter 8
  syn : Counter 8
  rst : Counter 8
  ackedSent : Counter 8
  ackCount : Counter 8
  dupackCount : Counter 8
  tcpWindow : ℕ
deriving DecidableEq, Repr

namespace ByteRange

/-- The field values the constructor sets before and after `updateByteCount`. -/
def blank (start stop : ℕ) : ByteRange where
  startSeq := start
  endSeq := stop
  byteCount := 0
  originalPayloadSize := 0
  packetSentCount := 0
  packetRetransCount := 0
  packetReceivedCount := 0
  dataReceivedCount := 0
  dataSentCount := 0
  dataRetransCount := 0
  rdbCount := 0
  rdbMissCount := 0
  rdbHitCount := 0
  sojournTstamps := []
  sentTstampPcap := []
  receivedTstampPcap := none
  sendTcpStampRecvIndex := 0
  receivedTstampTcp := 0
  tstampsTcp := []
  rdbTstampsTcp := []
  tcpSacks := []
  lostTstampsTcp := []
  ackTime := Timeval.zero
  acked := false
  originalPacketIsRdb := false
  recvType := .deflt
  sojournTime := false
  appLayerLatencyTstamp := false
  recvTypeNum := 1
  sentDataPktPcapIndex := -1
  fin := 0
  syn := 0
  rst := 0
  ackedSent := 0
  ackCount := 0
  dupackCount := 0
  tcpWindow := 0

def updateByteCount (r : ByteRange) : Except Abort ByteRange :=
  if sub64 r.endSeq r.startSeq < 2 ^ 16 - 1 then
    .ok { r with byteCount := sub64 r.endSeq r.startSeq }
  else .error .byteCount

/-- The constructor `ByteRange(start, end)`. -/
def new (start stop : ℕ) : Except Abort ByteRange := do
  let r ← (blank start stop).updateByteCount
  return { r with originalPayloadSize := r.byteCount }

def increaseReceived (r : ByteRange) (tstampTcp : ℕ) (tstampPcap : Timeval) (inSequence : Bool) :
    ByteRange :=
  let r :=
    -- only the first copy sets the times; the counter is read after it may have wrapped
    if r.dataReceivedCount.val = 0 then
      { r with
        appLayerLatencyTstamp := inSequence
        receivedTstampTcp := tstampTcp
        receivedTstampPcap := some tstampPcap }
    else r
  { r with
    dataReceivedCount := r.dataReceivedCount + 1
    lostTstampsTcp := r.lostTstampsTcp.eraseP fun p => p.1 == tstampTcp }

def increaseSent (r : ByteRange) (tcpTsval tcpTsecr : ℕ) (tstampPcap : Timeval) (rdb : Bool)
    (sentT : SentType) : ByteRange :=
  { r with
    rdbTstampsTcp := if rdb then r.rdbTstampsTcp ++ [tcpTsval] else r.rdbTstampsTcp
    tstampsTcp := if rdb then r.tstampsTcp else r.tstampsTcp ++ [(tcpTsval, tcpTsecr)]
    packetSentCount :=
      r.packetSentCount + if sentT = .pkt ∨ sentT = .rst then 1 else 0
    packetRetransCount := r.packetRetransCount + if sentT = .rtr then 1 else 0
    ackedSent := r.ackedSent + if sentT = .pureAck then 1 else 0
    -- RST packets never send data, so only the packet counter increases
    dataSentCount := r.dataSentCount + if sentT = .pureAck ∨ sentT = .rst then 0 else 1
    sentDataPktPcapIndex :=
      if sentT = .pkt then
        -- `static_cast<int16_t>(sent_tstamp_pcap.size())`
        let n : ℕ := r.sentTstampPcap.length % 2 ^ 16
        if n < 2 ^ 15 then n else (n : ℤ) - 2 ^ 16
      else r.sentDataPktPcapIndex
    sentTstampPcap := r.sentTstampPcap ++ [(tstampPcap, sentT)]
    lostTstampsTcp := r.lostTstampsTcp ++ [(tcpTsval, tstampPcap)] }

/-- `split(start, end)`: the range itself (its byte count refreshed) and the new range. -/
def split (r : ByteRange) (start stop : ℕ) : Except Abort (ByteRange × ByteRange) := do
  let newBr ← new start stop
  let newBr :=
    { newBr with
      packetSentCount := 0
      dataRetransCount := r.dataRetransCount
      dataSentCount := r.dataSentCount
      dataReceivedCount := r.dataReceivedCount
      receivedTstampTcp := r.receivedTstampTcp
      tstampsTcp := r.tstampsTcp
      rdbTstampsTcp := r.rdbTstampsTcp
      ackTime := r.ackTime
      acked := r.acked }
  let r ← r.updateByteCount
  return (r, { newBr with
    sentTstampPcap := r.sentTstampPcap.map fun p => (p.1, SentType.none) })

/-- `splitEnd(start, end)`: cut the range at `start`; the new range is the tail. -/
def splitEnd (r : ByteRange) (start stop : ℕ) : Except Abort (ByteRange × ByteRange) :=
  { r with endSeq := start }.split start stop

def insertAckTime (r : ByteRange) (tv : Timeval) : ByteRange :=
  { r with ackTime := tv, acked := true }

def registerSacks (r : ByteRange) (data : DataSeg) : ByteRange :=
  { r with tcpSacks := r.tcpSacks ++ [data.tcpSacks] }

/-- `addSegmentEnteredKernelTime`; the Boolean result only selects a diagnostic print. -/
def addSegmentEnteredKernelTime (r : ByteRange) (seq : ℕ) (tv : Timeval) :
    Except Abort ByteRange :=
  if r.sentDataPktPcapIndex = -1 then .ok r
  else if r.sentDataPktPcapIndex < 0 then .error .outOfRange
  else
    match r.sentTstampPcap[r.sentDataPktPcapIndex.toNat]? with
    | none => .error .outOfRange
    | some (sent, _) =>
        -- an entry after the packet on the wire is not a sojourn time
        if sent.getUsecs < tv.getUsecs then .ok r
        else .ok
          { r with
            sojournTime := true
            sojournTstamps := r.sojournTstamps ++ [(seq, tv)] }

/-- `getSendAckTimeDiff`; the manager is read only for the messages about a range without an ACK
time. -/
def getSendAckTimeDiff (r : ByteRange) : Except Abort ℤ :=
  match r.sentTstampPcap with
  | [] => .ok 0
  | (sent, _) :: _ =>
      if sent = Timeval.zero then .ok 0
      else if r.ackTime = Timeval.zero then .ok 0
      else
        let usec := (r.ackTime.sub sent).getUsecs
        if usec < 0 then .error .negativeLatency
        -- `(int) usec`
        else .ok (signed32 (usec % 2 ^ 32).toNat)

/-- `matchReceivedType`: classify the first received copy by its TCP timestamp. -/
def matchReceivedType (r : ByteRange) : ByteRange × Bool :=
  match r.tstampsTcp.findIdx? fun p => p.1 == r.receivedTstampTcp with
  | some 0 => ({ r with sendTcpStampRecvIndex := 0, recvType := .data }, true)
  | some (i + 1) =>
      ({ r with
        sendTcpStampRecvIndex := (i + 1) % 2 ^ 8
        recvType := .retr
        recvTypeNum := (i + 1) % 2 ^ 8 }, true)
  | none =>
      -- no regular transmission has the timestamp, so a bundle may have brought the data
      match r.rdbTstampsTcp.findIdx? (· == r.receivedTstampTcp) with
      | some i => ({ r with recvType := .rdb, recvTypeNum := (i + 1) % 2 ^ 8 }, true)
      | none => (r, false)

end ByteRange

end AnalyseTCP
