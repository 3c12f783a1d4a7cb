import AnalyseTCP.TcpOptions
import AnalyseTCP.TracedConnection
import AnalyseTCP.Lib.Keyed
import Mathlib.Data.Prod.Lex
import Mathlib.Order.Lattice

/-!
# `Dump`

The three passes over the capture files, frame by frame: `processSent` and `processAcks` over the
sender's, `processRecvd` over the receiver's.  A frame is looked at in memory, from its first byte
on; its addresses and ports say which connection it belongs to.  The tables of `-T`
(`registerPacketSize`) are filled elsewhere.
-/

namespace AnalyseTCP

/-! ## Frames -/

/-- `pcap_pkthdr`, with the captured bytes. -/
structure Frame where
  ts : Timeval
  len : ℕ
  linkLayerHeaderSize : ℕ
  data : ℕ → UInt8

/-- A `uint16_t` as it lies in memory, with the low byte first. -/
def raw16 (bytes : ℕ → UInt8) (o : ℕ) : ℕ := (bytes o).toNat + (bytes (o + 1)).toNat * 2 ^ 8

/-- A `uint32_t` as it lies in memory. -/
def raw32 (bytes : ℕ → UInt8) (o : ℕ) : ℕ := raw16 bytes o + raw16 bytes (o + 2) * 2 ^ 16

/-- `ntohs` of the two bytes at `o`. -/
def word16 (bytes : ℕ → UInt8) (o : ℕ) : ℕ := (bytes o).toNat * 2 ^ 8 + (bytes (o + 1)).toNat

/-- `ConnectionMapKey`: addresses and ports in network byte order. -/
structure ConnectionMapKey where
  ipSrc : ℕ
  ipDst : ℕ
  srcPort : ℕ
  dstPort : ℕ
deriving DecidableEq, Repr

/-- `ConnectionKeyComparator`. -/
def connectionKeyComparator (left right : ConnectionMapKey) : Bool :=
  if left.ipSrc ≠ right.ipSrc then decide (left.ipSrc < right.ipSrc)
  else if left.srcPort ≠ right.srcPort then decide (left.srcPort < right.srcPort)
  else if left.ipDst ≠ right.ipDst then decide (left.ipDst < right.ipDst)
  else if left.dstPort ≠ right.dstPort then decide (left.dstPort < right.dstPort)
  else false

namespace ConnectionMapKey

/-- The fields in the order in which the comparator looks at them. -/
def lexKey (k : ConnectionMapKey) : ℕ ×ₗ ℕ ×ₗ ℕ ×ₗ ℕ :=
  toLex (k.ipSrc, toLex (k.srcPort, toLex (k.ipDst, k.dstPort)))

theorem lexKey_injective : Function.Injective lexKey := by
  intro a b h
  cases a
  cases b
  simp_all [lexKey]

/-- The order of `conns`. -/
instance : LinearOrder ConnectionMapKey := LinearOrder.lift' lexKey lexKey_injective

theorem lt_iff_comparator (a b : ConnectionMapKey) :
    a < b ↔ connectionKeyComparator a b = true := by
  show lexKey a < lexKey b ↔ _
  unfold lexKey connectionKeyComparator
  simp only [Prod.Lex.toLex_lt_toLex]
  split_ifs <;> simp_all

end ConnectionMapKey

namespace Frame

variable (f : Frame)

/-- The IP header. -/
def ip : ℕ → UInt8 := fun i => f.data (f.linkLayerHeaderSize + i)

/-- `IP_HL(ip) * 4`. -/
def ipHdrLen : ℕ := (f.ip 0 &&& 0x0f).toNat * 4

/-- The TCP header. -/
def tcp : ℕ → UInt8 := fun i => f.ip (f.ipHdrLen + i)

/-- `TH_OFF(tcp)`. -/
def thOff : ℕ := ((f.tcp 12 &&& 0xf0) >>> 4).toNat

/-- The TCP options, and what follows them. -/
def opts : ℕ → UInt8 := fun i => f.tcp (20 + i)

/-- `ntohl(tcp->th_seq)`. -/
def thSeq : ℕ := Dump.word32 f.tcp 4

/-- `ntohl(tcp->th_ack)`. -/
def thAck : ℕ := Dump.word32 f.tcp 8

def thFlags : UInt8 := f.tcp 13

/-- `ntohs(tcp->th_win)`. -/
def thWin : ℕ := word16 f.tcp 14

/-- The connection of a frame that goes from `ip_src` to `ip_dst`. -/
def connKey : ConnectionMapKey where
  ipSrc := raw32 f.ip 12
  ipDst := raw32 f.ip 16
  srcPort := raw16 f.tcp 0
  dstPort := raw16 f.tcp 2

/-- The payload by the captured length; the length in the IP header is not trusted. -/
def payloadSize : ℕ :=
  sub32 f.len (f.ipHdrLen + f.thOff * 4 + f.linkLayerHeaderSize) % 2 ^ 16

/-- What `sendData` takes from the headers. -/
def sendData : SendData where
  totalSize := f.len
  data := {
    payloadSize := f.payloadSize
    tstampPcap := f.ts
    seqAbsolute := f.thSeq
    flags := f.thFlags }

end Frame

/-- The connection of the answers. -/
def ConnectionMapKey.reverse (k : ConnectionMapKey) : ConnectionMapKey where
  ipSrc := k.ipDst
  ipDst := k.ipSrc
  srcPort := k.dstPort
  dstPort := k.srcPort

/-- `--sender-nat-ip` and `--receiver-nat-ip`: the filter's address, where one is translated. -/
structure NatConfig where
  filterSrcIp : Option ℕ := none
  filterDstIp : Option ℕ := none
deriving DecidableEq, Repr

def NatConfig.apply (nat : NatConfig) (k : ConnectionMapKey) : ConnectionMapKey :=
  { k with
    ipSrc := nat.filterSrcIp.getD k.ipSrc
    ipDst := nat.filterDstIp.getD k.ipDst }

/-! ## One frame on its connection -/

/-- Why a pass over a capture file does not come to its end. -/
inductive Halt
  | abort (why : Abort)
  /-- `sd.tcpOptionLen <= 40 && "TCP option length is too large!"` -/
  | optionLength
  /-- `parseTCPOptions` does not return -/
  | optionLoop
deriving DecidableEq, Repr

/-- Goes on with a result of the connection's code. -/
def liftAbort {α : Type} (x : Except Abort α) : Except Halt α := x.mapError Halt.abort

/-- Goes on with the parsed options, if the loop over them ends. -/
def liftOptions {α : Type} : Option (Except Abort α) → Except Halt α
  | none => .error .optionLoop
  | some parsed => liftAbort parsed

/-- `parseTCPOptions` on the frame's options. -/
def Frame.parseTCPOptions (f : Frame) (tmpConn : Option Dump.AckReference) (data : DataSeg) :
    Except Halt DataSeg :=
  liftOptions (Dump.parseTCPOptions tmpConn f.opts (Dump.tcpOptionLen f.thOff) data)

/-- `d` is `data` but for what the options say. -/
def OptionsFilled (data d : DataSeg) : Prop :=
  d = { data with
    tstampTcp := d.tstampTcp
    tstampTcpEcho := d.tstampTcpEcho
    sacks := d.sacks
    tcpSacks := d.tcpSacks }

theorem OptionsFilled.trans {a b c : DataSeg} (hab : OptionsFilled a b) (hbc : OptionsFilled b c) :
    OptionsFilled a c := by
  unfold OptionsFilled at *
  rw [hab] at hbc
  exact hbc

/-- `d` is `data` but for the TCP timestamps. -/
def StampsFilled (data d : DataSeg) : Prop :=
  d = { data with tstampTcp := d.tstampTcp, tstampTcpEcho := d.tstampTcpEcho }

theorem StampsFilled.trans {a b c : DataSeg} (hab : StampsFilled a b) (hbc : StampsFilled b c) :
    StampsFilled a c := by
  unfold StampsFilled at *
  rw [hab] at hbc
  exact hbc

namespace Dump

section Filled

variable {tmpConn : Option AckReference} {opts : ℕ → UInt8} {optionLength : ℕ}
  {R : DataSeg → DataSeg → Prop}

/-- What each option leaves of the data, the whole loop does. -/
theorem parseLoop_rel (hrefl : ∀ d, R d d) (htrans : ∀ a b c, R a b → R b c → R a c)
    (hparse : ∀ data d o, parseOption tmpConn opts data o = .ok d → R data d) {fuel o : ℕ}
    {data d : DataSeg}
    (h : parseLoop tmpConn opts optionLength fuel data o = some (.ok d)) : R data d := by
  have hend : ∀ data d : DataSeg,
      some (Except.ok data : Except Abort DataSeg) = some (.ok d) → R data d := by
    intro data d heq
    rw [Except.ok.inj (Option.some.inj heq)]
    exact hrefl d
  induction fuel generalizing data o with
  | zero =>
      rw [parseLoop] at h
      split at h
      · cases h
      · exact hend _ _ h
  | succ fuel ih =>
      rw [parseLoop] at h
      by_cases henters : opts 0 ≠ 0 ∧ o < optionLength
      · rw [if_pos henters] at h
        by_cases hlast : opts o = 0
        · rw [if_pos hlast] at h
          exact hend _ _ h
        rw [if_neg hlast] at h
        by_cases hnop : opts o = 1
        · rw [if_pos hnop] at h
          exact ih h
        rw [if_neg hnop] at h
        cases hopt : parseOption tmpConn opts data o with
        | error e =>
            rw [hopt] at h
            cases h
        | ok d₁ =>
            rw [hopt] at h
            exact htrans _ _ _ (hparse _ _ _ hopt) (ih h)
      · rw [if_neg henters] at h
        exact hend _ _ h

theorem parseOption_none {data d : DataSeg} {o : ℕ} (h : parseOption none opts data o = .ok d) :
    StampsFilled data d := by
  unfold parseOption at h
  obtain rfl := Except.ok.inj h
  split <;> rfl

theorem parseOption_filled {data d : DataSeg} {o : ℕ} (h : parseOption tmpConn opts data o = .ok d) :
    OptionsFilled data d := by
  unfold parseOption at h
  cases tmpConn with
  | none =>
      obtain rfl := Except.ok.inj h
      split <;> rfl
  | some conn =>
      dsimp only at h
      split at h
      · obtain ⟨sacks, -, h⟩ := Run.exists_of_bind_ok h
        obtain rfl := Except.ok.inj h
        split <;> rfl
      · obtain rfl := Except.ok.inj h
        split <;> rfl

theorem parseTCPOptions_filled {data d : DataSeg}
    (h : parseTCPOptions tmpConn opts optionLength data = some (.ok d)) : OptionsFilled data d :=
  parseLoop_rel (R := OptionsFilled) (fun _ => rfl) (fun _ _ _ => OptionsFilled.trans)
    (fun _ _ _ hopt => parseOption_filled hopt) h

/-- For a packet that is not an ACK, SACKs are skipped. -/
theorem parseTCPOptions_none {data d : DataSeg}
    (h : parseTCPOptions none opts optionLength data = some (.ok d)) : StampsFilled data d :=
  parseLoop_rel (R := StampsFilled) (fun _ => rfl) (fun _ _ _ => StampsFilled.trans)
    (fun _ _ _ hopt => parseOption_none hopt) h

end Filled

end Dump

theorem exists_of_liftAbort {α : Type} {x : Except Abort α} {a : α} (h : liftAbort x = .ok a) :
    x = .ok a := by
  cases x with
  | error e => cases h
  | ok b => rw [Except.ok.inj h]

theorem exists_of_liftOptions {α : Type} {x : Option (Except Abort α)} {a : α}
    (h : liftOptions x = .ok a) : x = some (.ok a) := by
  cases x with
  | none => cases h
  | some parsed => rw [exists_of_liftAbort h]

theorem Frame.parseTCPOptions_filled {f : Frame} {tmpConn : Option Dump.AckReference}
    {data d : DataSeg} (h : f.parseTCPOptions tmpConn data = .ok d) : OptionsFilled data d := by
  unfold Frame.parseTCPOptions at h
  have hparse := exists_of_liftOptions h
  exact Dump.parseTCPOptions_filled hparse

theorem Frame.parseTCPOptions_none {f : Frame} {data d : DataSeg}
    (h : f.parseTCPOptions none data = .ok d) : StampsFilled data d := by
  unfold Frame.parseTCPOptions at h
  have hparse := exists_of_liftOptions h
  exact Dump.parseTCPOptions_none hparse

namespace TracedConnection

/-- What `getRelativeSequenceNumber` looks at for an ACK number. -/
def ackReference (conn : TracedConnection) : Dump.AckReference where
  firstSeq := conn.rm.firstSeq
  lastLargestAckSeq := conn.lastLargestAckSeq
  lastLargestAckSeqAbsolute := conn.lastLargestAckSeqAbsolute

/-- `processSent` once the connection is known, and whether the packet is counted. -/
def processSent (conn : TracedConnection) (f : Frame) : Except Halt (TracedConnection × Bool) := do
  let seq ← liftAbort (conn.getRelativeSequenceNumber f.thSeq .sendOut)
  if 40 < Dump.tcpOptionLen f.thOff then .error .optionLength
  else if seq = ulongMax then return (conn, false)
  else
    let sd := Dump.stampSent f.sendData seq
    let data ← f.parseTCPOptions none sd.data
    let sender ← liftAbort (conn.toConnection.processSent { sd with data := data })
    return ({ conn with toConnection := sender }, true)

/-- `processAcks` once the connection is known, and whether the ACK is counted.  The reference that
`registerAck` leaves is overwritten at once. -/
def processAcks (conn : TracedConnection) (f : Frame) : Except Halt (TracedConnection × Bool) := do
  let ack ← liftAbort (conn.getRelativeSequenceNumber f.thAck .sendAck)
  if ack = ulongMax then return (conn, false)
  else
    let seg ← f.parseTCPOptions (some conn.ackReference)
      { ack := ack, tstampPcap := f.ts, window := f.thWin, flags := f.thFlags }
    let (rm, ret) ← liftAbort (conn.rm.processAck seg)
    let conn := { conn with rm := rm }
    if ret then
      return ({ conn with lastLargestAckSeq := seg.ack, lastLargestAckSeqAbsolute := f.thAck }, true)
    else return (conn, true)

/-- `processRecvd` once the connection is known, and whether the packet is counted.  A SYN with
another number than the first one is taken for one of an old connection. -/
def processRecvd (conn : TracedConnection) (f : Frame) :
    Except Halt (TracedConnection × Bool) := do
  if conn.lastLargestRecvEndSeq = 0 ∧ f.thSeq ≠ conn.rm.firstSeq ∧ f.thFlags &&& thSyn ≠ 0 then
    return (conn, false)
  else
    let seq ← liftAbort (conn.getRelativeSequenceNumber f.thSeq .recvInn)
    if seq = ulongMax then return (conn, false)
    else
      let sd := Dump.stampSent f.sendData seq
      let data ← f.parseTCPOptions none { sd.data with window := f.thWin }
      let conn ← liftAbort (conn.registerRecvd { sd with data := data })
      return (conn, true)

end TracedConnection

/-! ## The dump -/

structure Dump where
  firstSentTime : Timeval := Timeval.zero
  sentPacketCount : ℕ := 0
  recvPacketCount : ℕ := 0
  sentBytesCount : ℕ := 0
  recvBytesCount : ℕ := 0
  ackCount : ℕ := 0
  maxPayloadSize : ℕ := 0
  conns : OrdMap ConnectionMapKey TracedConnection := OrdMap.empty

/-- A frame in the pass that reads it. -/
inductive Captured
  | sent (f : Frame)
  | ack (f : Frame)
  | recvd (f : Frame)

namespace Dump

/-- `getConn`: with a sequence number, a connection that is not there is created. -/
def getConn (d : Dump) (k : ConnectionMapKey) (seq : Option ℕ) : Dump × Option TracedConnection :=
  match d.conns.find? k with
  | some conn => (d, some conn)
  | none =>
      match seq with
      | none => (d, none)
      | some seq =>
          let tmpConn := TracedConnection.new seq
          ({ d with conns := d.conns.insert k tmpConn }, some tmpConn)

/-- What `getConn` returned has been changed through the pointer. -/
def setConn (d : Dump) (k : ConnectionMapKey) (conn : TracedConnection) : Dump :=
  { d with conns := d.conns.modify k fun _ => conn }

def countSent (d : Dump) (f : Frame) : Dump :=
  { d with
    firstSentTime := if d.firstSentTime = Timeval.zero then f.ts else d.firstSentTime
    sentPacketCount := d.sentPacketCount + 1
    sentBytesCount := add64 d.sentBytesCount f.payloadSize
    maxPayloadSize := max d.maxPayloadSize f.payloadSize }

def countAck (d : Dump) : Dump := { d with ackCount := d.ackCount + 1 }

def countRecvd (d : Dump) (f : Frame) : Dump :=
  { d with
    recvPacketCount := d.recvPacketCount + 1
    recvBytesCount := add64 d.recvBytesCount f.payloadSize }

variable (nat : NatConfig)

/-- The connection that a captured frame is looked up under. -/
def keyOf : Captured → ConnectionMapKey
  | .sent f => f.connKey
  | .ack f => f.connKey.reverse
  | .recvd f => nat.apply f.connKey

/-- The sequence number handed to `getConn`: only sent packets create connections. -/
def seqOf : Captured → Option ℕ
  | .sent f => some f.thSeq
  | .ack _ => none
  | .recvd _ => none

/-- The connection's part in handling a frame. -/
def handle (conn : TracedConnection) : Captured → Except Halt (TracedConnection × Bool)
  | .sent f => conn.processSent f
  | .ack f => conn.processAcks f
  | .recvd f => conn.processRecvd f

def count (d : Dump) : Captured → Dump
  | .sent f => d.countSent f
  | .ack _ => d.countAck
  | .recvd f => d.countRecvd f

/-- `processSent`, `processAcks` or `processRecvd`: frames without a connection are ignored. -/
def step (d : Dump) (c : Captured) : Except Halt Dump :=
  match d.getConn (keyOf nat c) (seqOf c) with
  | (d, none) => .ok d
  | (d, some tmpConn) => do
      let (conn, counted) ← handle tmpConn c
      let d := d.setConn (keyOf nat c) conn
      return if counted then d.count c else d

/-- `analyseSender` on the frames that pass its two filters. -/
def analyseSender (sent acks : List Frame) : Except Halt Dump :=
  Run.run (step nat) {} (sent.map .sent ++ acks.map .ack)

/-- `processRecvd` on the frames of the receiver's file that pass its filter. -/
def processRecvdFile (d : Dump) (recvd : List Frame) : Except Halt Dump :=
  Run.run (step nat) d (recvd.map .recvd)

end Dump

end AnalyseTCP
