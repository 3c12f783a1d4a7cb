import AnalyseTCP.Connection
import AnalyseTCP.Lib.Run

/-!
# The receiver's side of a connection

The references by which the other three kinds of sequence numbers are unwrapped, the packets that
move them, and the lines of a sojourn file.
-/

namespace AnalyseTCP

/-- `relative_seq_type`. -/
inductive RelativeSeqType
  | sendOut | sendAck | recvInn | sojSeq | none
deriving DecidableEq, Repr

structure TracedConnection extends Connection where
  lastLargestAckSeq : ℕ := 0
  lastLargestAckSeqAbsolute : ℕ
  lastLargestRecvEndSeq : ℕ := 0
  lastLargestRecvSeqAbsolute : ℕ
  lastLargestSojournEndSeq : ℕ := 0
  lastLargestSojournSeqAbsolute : ℕ := 0

namespace TracedConnection

/-- The constructor. -/
def new (seq : ℕ) : TracedConnection where
  toConnection := Connection.new seq
  lastLargestAckSeqAbsolute := seq
  lastLargestRecvSeqAbsolute := seq

def getRelativeSequenceNumber (conn : TracedConnection) (seq : ℕ) :
    RelativeSeqType → Except Abort ℕ
  | .sendOut =>
      AnalyseTCP.getRelativeSequenceNumber seq conn.rm.firstSeq conn.lastLargestEndSeq
        conn.lastLargestSeqAbsolute
  | .sendAck =>
      AnalyseTCP.getRelativeSequenceNumber seq conn.rm.firstSeq conn.lastLargestAckSeq
        conn.lastLargestAckSeqAbsolute
  | .recvInn =>
      AnalyseTCP.getRelativeSequenceNumber seq conn.rm.firstSeq conn.lastLargestRecvEndSeq
        conn.lastLargestRecvSeqAbsolute
  | .sojSeq =>
      AnalyseTCP.getRelativeSequenceNumber seq conn.rm.firstSeq conn.lastLargestSojournEndSeq
        conn.lastLargestSojournSeqAbsolute
  | .none => .ok ulongMax

def registerAck (conn : TracedConnection) (seg : DataSeg) : Except Abort TracedConnection := do
  let (rm, ret) ← conn.rm.processAck seg
  let conn := { conn with rm := rm }
  if ret then
    return { conn with
      lastLargestAckSeq := seg.endSeq
      lastLargestAckSeqAbsolute := add32 seg.seqAbsolute seg.payloadSize }
  else return conn

/-- `registerRecvd` on the packet: `in_sequence` is only ever set here. -/
def markInSequence (conn : TracedConnection) (sd : SendData) : SendData :=
  if sd.data.seq ≤ conn.lastLargestRecvEndSeq ∧ conn.lastLargestRecvEndSeq < sd.data.endSeq then
    { sd with data := { sd.data with inSequence := true } }
  else sd

def registerRecvd (conn : TracedConnection) (sd : SendData) : Except Abort TracedConnection := do
  let rm ← conn.rm.insertReceivedRange (conn.markInSequence sd)
  return { conn with
    rm := rm
    lastLargestRecvEndSeq := sd.data.endSeq
    lastLargestRecvSeqAbsolute := add32 sd.data.seqAbsolute sd.data.payloadSize }

/-- What the capture files hand to a connection. -/
inductive Event
  | sent (sd : SendData)
  | ack (seg : DataSeg)
  | recvd (sd : SendData)

def step (conn : TracedConnection) : Event → Except Abort TracedConnection
  | .sent sd => do
      let sender ← Dump.processSent conn.toConnection sd
      return { conn with toConnection := sender }
  | .ack seg => conn.registerAck seg
  | .recvd sd => conn.registerRecvd sd

end TracedConnection

namespace Dump

/-- A line of the sojourn file, as far as `calculateSojournTime` uses it. -/
structure SojournLine where
  seq : ℕ
  seq2 : ℕ
  size : ℕ
  kTime : Timeval

def sojournSeg (conn : TracedConnection) (line : SojournLine) : Except Abort DataSeg := do
  let seqAbsolute := max (line.seq % 2 ^ 32) (line.seq2 % 2 ^ 32)
  let seq ← conn.getRelativeSequenceNumber seqAbsolute .sojSeq
  return {
    seqAbsolute := seqAbsolute
    seq := seq
    payloadSize := line.size % 2 ^ 16
    endSeq := add64 seq (line.size % 2 ^ 16)
    tstampPcap := line.kTime }

/-- `calculateSojournTime` on the lines of one connection: a segment that is not inserted ends the
reading. -/
def calculateSojournTime : TracedConnection → List SojournLine → Except Abort TracedConnection
  | conn, [] => .ok conn
  | conn, line :: lines => do
      let seg ← sojournSeg conn line
      let (rm, ret) ← conn.rm.insertByteRange seg.seq seg.endSeq .sojourn seg 0
      let conn := { conn with rm := rm }
      if ret then calculateSojournTime conn lines else return conn

end Dump

end AnalyseTCP
