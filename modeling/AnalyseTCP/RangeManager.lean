import AnalyseTCP.ByteRange
import AnalyseTCP.Lib.OrdMap

/-!
# `RangeManager`: inserting sent and received data

`insertByteRange` is one 770-line function that ends in a tail call to itself whenever a segment
reaches past the range it has just handled.  Here its body is `insertBody`, cut along its branches,
and `insertByteRange` iterates it.  An iterator into `ranges` is the key it points at: no function
erases entries, so keys identify entries for the whole run.

Ranges are mutated through pointers after they were put into the map; the model inserts the final
value instead.  Debug prints and the code under `#ifdef DEBUG` are left out.
-/

namespace AnalyseTCP

structure RangeManager where
  ranges : OrdMap ℕ ByteRange
  firstSeq : ℕ
  lastSeq : ℕ
  /-- `none` is `ranges.end()` -/
  highestAckedByteRangeIt : Option ℕ
  ackCount : ℕ
  analysedSentPureAckCount : ℕ

namespace RangeManager

/-- The constructor `RangeManager(c, first_seq)`. -/
def new (firstSeq : ℕ) : RangeManager where
  ranges := OrdMap.empty
  firstSeq := firstSeq
  lastSeq := 0
  highestAckedByteRangeIt := none
  ackCount := 0
  analysedSentPureAckCount := 0

def recursionLevel : ℕ := 1500

/-- How one pass through the body of `insertByteRange` ends: it returns, or it calls itself for the
data from `startSeq` on, one level deeper. -/
inductive Outcome
  | done (rm : RangeManager) (ret : Bool)
  | again (rm : RangeManager) (startSeq : ℕ)

/-! ## Recording a packet on a range -/

def thisIsRdbData (seg : DataSeg) (startSeq : ℕ) : Bool :=
  seg.isRdb && decide (startSeq < seg.rdbEndSeq)

section Record

variable (seg : DataSeg) (level : ℕ) (rdb : Bool)

def finSet (r : ByteRange) : ByteRange := if seg.fin then { r with fin := 1 } else r

def finIncrease (r : ByteRange) : ByteRange := if seg.fin then { r with fin := r.fin + 1 } else r

def synIncrease (r : ByteRange) : ByteRange := if seg.syn then { r with syn := r.syn + 1 } else r

def recordSent (sentT : SentType) (r : ByteRange) : ByteRange :=
  r.increaseSent seg.tstampTcp seg.tstampTcpEcho seg.tstampPcap rdb sentT

def recordRecv (r : ByteRange) : ByteRange :=
  let r := r.increaseReceived seg.tstampTcp seg.tstampPcap seg.inSequence
  if level = 0 then { r with packetReceivedCount := r.packetReceivedCount + 1 } else r

/-- A sent segment on the part of a range that was just split off for it. -/
def recordSentSplit (r : ByteRange) : ByteRange :=
  let r := recordSent seg rdb (if level = 0 then .rtr else .none) r
  { r with
    -- whatever the mark of the segment
    dataRetransCount := r.dataRetransCount + 1
    rdbCount := r.rdbCount + seg.isRdb.toNat }

/-- A sent segment on a range that starts where the segment does. -/
def recordSentFound (r : ByteRange) : ByteRange :=
  -- the recursive calls go on with a packet that is already counted
  let sentT : SentType := if level = 0 then (if seg.retrans then .rtr else .pkt) else .none
  let r := recordSent seg rdb sentT (if level = 0 then finIncrease seg r else r)
  { r with
    dataRetransCount := r.dataRetransCount + seg.retrans.toNat
    rdbCount := r.rdbCount + seg.isRdb.toNat }

def recordSplit (itype : InsertType) (r : ByteRange) : ByteRange :=
  match itype with
  | .sent => recordSentSplit seg level rdb r
  | .recv => recordRecv seg level r
  | .sojourn => r

def recordFound (itype : InsertType) (r : ByteRange) : ByteRange :=
  match itype with
  | .sent => recordSentFound seg level rdb r
  | .recv => recordRecv seg level r
  | .sojourn => r

end Record

/-! ## Packets without payload -/

-- Every `insert_type` comes here when no range starts at `seq`, and all of them count a send.
def newEmptyRange (seg : DataSeg) (rdb : Bool) (seq : ℕ) : Except Abort ByteRange := do
  let r ← ByteRange.new seq seq
  let r :=
    { r with
      packetRetransCount := r.packetRetransCount + seg.retrans.toNat
      rdbCount := r.rdbCount + seg.isRdb.toNat
      -- one flag only, a SYN before a FIN before a RST
      syn := if seg.syn then 1 else 0
      fin := if !seg.syn && seg.fin then 1 else 0
      rst := if !seg.syn && !seg.fin && seg.rst then 1 else 0 }
  return recordSent seg rdb (if seg.noFlags then .pureAck else .pkt) r

/-- A packet without payload on the range that starts at its sequence number. -/
def recordEmpty (seg : DataSeg) (itype : InsertType) (level : ℕ) (rdb : Bool) (r : ByteRange) :
    ByteRange :=
  match itype with
  | .sent =>
      if seg.syn || seg.fin then
        recordSent seg rdb .rtr
          { r with syn := r.syn + seg.syn.toNat, fin := r.fin + seg.fin.toNat }
      else if seg.rst then
        recordSent seg rdb .rst { r with rst := r.rst + 1 }
      else recordSent seg rdb .pureAck r
  | .recv =>
      let r :=
        -- only a SYN or a FIN has a receive time to set
        if seg.syn || seg.fin then
          r.increaseReceived seg.tstampTcp seg.tstampPcap seg.inSequence
        else r
      if level = 0 then { r with packetReceivedCount := r.packetReceivedCount + 1 } else r
  | .sojourn => r

/-- Where a packet without payload is registered: a pure ACK goes to the range that starts one
before its sequence number, if there is one.  The subtraction wraps at 0. -/
def emptySeq (rm : RangeManager) (seg : DataSeg) (startSeq : ℕ) : ℕ :=
  if seg.noFlags ∧ (rm.ranges.find? (sub64 startSeq 1)).isSome then sub64 startSeq 1 else startSeq

def insertEmpty (rm : RangeManager) (startSeq : ℕ) (itype : InsertType) (seg : DataSeg)
    (level : ℕ) : Except Abort Outcome := do
  let counted : RangeManager :=
    { rm with
      analysedSentPureAckCount :=
        rm.analysedSentPureAckCount + if itype = InsertType.sent then 1 else 0 }
  let rdb := thisIsRdbData seg startSeq
  let seq := rm.emptySeq seg startSeq
  match rm.ranges.find? seq with
  | none =>
      let r ← newEmptyRange seg rdb seq
      return .done { counted with ranges := rm.ranges.insert seq r } true
  | some _ =>
      let ranges := rm.ranges.modify seq (recordEmpty seg itype level rdb)
      return .done { counted with ranges := ranges } true

/-! ## Data that starts at no existing range -/

section Data

variable (rm : RangeManager) (startSeq endSeq : ℕ) (itype : InsertType) (seg : DataSeg)
  (level : ℕ)

/-- The entries from the one before `lower_bound(start_seq)` up to `upper_bound(end_seq)`. -/
def searchWindow : List (ℕ × ByteRange) :=
  ((rm.ranges.below startSeq).getLast?.toList ++ rm.ranges.atLeast startSeq).takeWhile
    fun e => decide (e.1 ≤ endSeq)

def newDataRange : Except Abort ByteRange := do
  let r ← ByteRange.new startSeq endSeq
  let r := { r with originalPayloadSize := seg.payloadSize, originalPacketIsRdb := seg.isRdb }
  -- the packet of a bundle counts on the range that it starts at
  let r := recordSent seg (thisIsRdbData seg startSeq) (if seg.isRdb then .none else .pkt) r
  if seg.syn then .error .synWithPayload else return finSet seg r

/-- Data that no range holds: a new range, for sent data only. -/
def insertNew : Except Abort Outcome :=
  match itype with
  | .sent => do
      let r ← newDataRange startSeq endSeq seg
      return .done { rm with ranges := rm.ranges.insert startSeq r } true
  | _ => return .done rm true

/-- The segment starts inside `cur`, the range at `key`: cut `cur` at the segment's ends and
record the packet on the piece it covers. -/
def splitExisting (key : ℕ) (cur : ByteRange) : Except Abort Outcome := do
  let record := recordSplit seg level (thisIsRdbData seg startSeq) itype
  if startSeq = cur.startSeq ∧ endSeq = cur.endSeq then .error .bothMatch
  else if startSeq = cur.startSeq then
    -- `start_matches`: the packet is recorded on the first part
    let (head, newBr) ← cur.splitEnd endSeq cur.endSeq
    let head := record (finIncrease seg head)
    let ranges := (rm.ranges.modify key fun _ => head).insert newBr.startSeq newBr
    return .done { rm with ranges := ranges } true
  else if endSeq = cur.endSeq then
    -- `end_matches`: the packet is recorded on the second part
    let (head, newBr) ← cur.splitEnd startSeq cur.endSeq
    let newBr := record (finSet seg newBr)
    let ranges := (rm.ranges.modify key fun _ => head).insert newBr.startSeq newBr
    return .done { rm with ranges := ranges } true
  else if endSeq < cur.endSeq then
    -- the new data fits into `cur`, and is recorded on the middle of three parts
    let (head, newBr) ← cur.splitEnd startSeq cur.endSeq
    let (newBr, newLast) ← (finSet seg newBr).splitEnd endSeq newBr.endSeq
    let newBr := record newBr
    let ranges := (rm.ranges.modify key fun _ => head).insert newLast.startSeq newLast
    return .done { rm with ranges := ranges.insert newBr.startSeq newBr } true
  else
    -- the segment reaches past `cur`; FIN is not recorded here
    let (head, newBr) ← cur.splitEnd startSeq cur.endSeq
    let newBr := record newBr
    let ranges := (rm.ranges.modify key fun _ => head).insert newBr.startSeq newBr
    return .again { rm with ranges := ranges } newBr.endSeq

/-- A sojourn entry that starts inside `cur` never splits it. -/
def sojournInside (key : ℕ) (cur : ByteRange) : Except Abort Outcome := do
  let add := fun seq => cur.addSegmentEnteredKernelTime seq seg.tstampPcap
  if startSeq = cur.startSeq ∧ endSeq = cur.endSeq then .error .bothMatch
  else if startSeq = cur.startSeq then .error .sojournStart
  else if endSeq = cur.endSeq then
    let cur ← add seg.endSeq
    return .done { rm with ranges := rm.ranges.modify key fun _ => cur } true
  else if endSeq < cur.endSeq then
    let cur ← add endSeq
    return .done { rm with ranges := rm.ranges.modify key fun _ => cur } true
  else return .again rm cur.endSeq

def insertNotFound : Except Abort Outcome :=
  if startSeq < rm.lastSeq then
    -- a retransmission or a bundle: a range around `startSeq` is looked for
    match rm.searchWindow startSeq endSeq with
    | [] => .error .emptyWindow
    | e :: es =>
        match (e :: es).find? fun e =>
          decide (e.2.startSeq ≤ startSeq) && decide (startSeq < e.2.endSeq) with
        | some (key, cur) =>
            if itype = .sojourn then rm.sojournInside startSeq endSeq seg key cur
            else rm.splitExisting startSeq endSeq itype seg level key cur
        | none => rm.insertNew startSeq endSeq itype seg
  else rm.insertNew startSeq endSeq itype seg

/-! ## Data that starts where an existing range starts -/

/-- The tail call for the rest of a segment that spans several ranges. -/
def spanRest (restSeq : ℕ) : Except Abort Outcome :=
  if recursionLevel < level then .error (.recurseLevel startSeq endSeq itype)
  else return .again rm restSeq

/-- Sent data on a range that only held packets without payload: the range takes over the data up
to `upTo`. -/
def reuseEmpty (upTo : ℕ) (br : ByteRange) : Except Abort ByteRange := do
  let br ← { br with endSeq := upTo }.updateByteCount
  return recordSent seg (thisIsRdbData seg startSeq) .pkt br

def payloadSet (r : ByteRange) : ByteRange := { r with originalPayloadSize := r.byteCount }

def insertOnEmpty (br : ByteRange) : Except Abort Outcome := do
  let continueAt := fun br : ByteRange =>
    let rm := { rm with ranges := rm.ranges.modify startSeq fun _ => br }
    if br.endSeq < endSeq then Outcome.again rm br.endSeq else Outcome.done rm true
  match rm.ranges.next? startSeq with
  | none =>
      -- the last range of the map
      let br ← reuseEmpty startSeq seg endSeq br
      return .done { rm with ranges := rm.ranges.modify startSeq fun _ => payloadSet br } true
  | some (_, next) =>
      if br.endSeq ≠ next.startSeq then
        -- the gap up to the next range is filled, fully or in part
        let br ← reuseEmpty startSeq seg (min next.startSeq endSeq) br
        return continueAt (payloadSet br)
      else
        -- no gap: one byte is added, and `original_payload_size` keeps its value
        let br ← reuseEmpty startSeq seg (br.endSeq + 1) br
        return continueAt br

/-- The segment reaches past the range `br`, which starts where the segment does. -/
def insertSpanning (br : ByteRange) : Except Abort Outcome :=
  let found := recordFound seg level (thisIsRdbData seg startSeq) itype br
  let updated := { rm with ranges := rm.ranges.modify startSeq fun _ => found }
  match itype with
  | .sent =>
      if br.byteCount = 0 then rm.insertOnEmpty startSeq endSeq seg br
      else updated.spanRest startSeq endSeq itype level br.endSeq
  | .recv =>
      if found.receivedTstampTcp = 0 then .error .receivedTstamp
      else updated.spanRest startSeq endSeq itype level br.endSeq
  | .sojourn => do
      let br' ← br.addSegmentEnteredKernelTime br.endSeq seg.tstampPcap
      let updated := { rm with ranges := rm.ranges.modify startSeq fun _ => br' }
      -- the last range: nothing to continue with
      if (rm.ranges.next? startSeq).isNone then return .done updated false
      else updated.spanRest startSeq endSeq itype level br.endSeq

/-- The segment ends inside `br`, or with it. -/
def insertWithin (br : ByteRange) : Except Abort Outcome := do
  let record := recordFound seg level (thisIsRdbData seg startSeq) itype
  match itype with
  | .sojourn =>
      let br ← br.addSegmentEnteredKernelTime endSeq seg.tstampPcap
      return .done { rm with ranges := rm.ranges.modify startSeq fun _ => br } true
  | _ =>
      if br.endSeq = endSeq then
        -- the end numbers agree: a duplicate, the only place where data counts a SYN
        let br := if itype = .sent then synIncrease seg (record br) else record br
        return .done { rm with ranges := rm.ranges.modify startSeq fun _ => br } true
      else
        let (head, newBr) ← br.splitEnd endSeq br.endSeq
        let ranges := rm.ranges.modify startSeq fun _ => record head
        return .done { rm with ranges := ranges.insert newBr.startSeq newBr } true

def insertFound (br : ByteRange) : Except Abort Outcome :=
  -- "The ack on the syn-ack": compares a relative with an absolute number
  if br.endSeq ≠ endSeq ∧ itype = .recv ∧ endSeq = add32 rm.firstSeq 1 then .error .ackOnSynAck
  else if br.endSeq < endSeq then rm.insertSpanning startSeq endSeq itype seg level br
  else rm.insertWithin startSeq endSeq itype seg level br

/-! ## The whole insertion -/

def insertBody : Except Abort Outcome :=
  if startSeq = endSeq then rm.insertEmpty startSeq itype seg level
  else
    match rm.ranges.find? startSeq with
    | none => rm.insertNotFound startSeq endSeq itype seg level
    | some br => rm.insertFound startSeq endSeq itype seg level br

end Data

def insertLoop (endSeq : ℕ) (itype : InsertType) (seg : DataSeg) :
    ℕ → RangeManager → ℕ → ℕ → Except Abort (RangeManager × Bool)
  | 0, _, _, _ => .error .outOfFuel
  | fuel + 1, rm, startSeq, level =>
      match rm.insertBody startSeq endSeq itype seg level with
      | .error e => .error e
      | .ok (.done rm ret) => .ok (rm, ret)
      | .ok (.again rm startSeq) => insertLoop endSeq itype seg fuel rm startSeq (level + 1)

/-- Each call but the ones that `RECURSION_LEVEL` cuts off advances `startSeq`, so the bound
leaves room for every call. -/
def insertByteRange (rm : RangeManager) (startSeq endSeq : ℕ) (itype : InsertType)
    (seg : DataSeg) (level : ℕ) : Except Abort (RangeManager × Bool) :=
  insertLoop endSeq itype seg (endSeq - startSeq + recursionLevel + 2) rm startSeq level

def insertSentRange (rm : RangeManager) (sd : SendData) : Except Abort RangeManager := do
  let startSeq := sd.data.seq
  let endSeq := sd.data.endSeq
  let (rm, _) ← rm.insertByteRange startSeq endSeq .sent sd.data 0
  if sd.data.payloadSize = 0 then
    if sd.data.rst then return rm
    else return { rm with lastSeq := endSeq + sd.data.syn.toNat }
  else if startSeq = rm.lastSeq then
    return { rm with lastSeq := startSeq + sd.data.payloadSize }
  -- bytes missing from the trace: only a warning.  A second branch with the same condition, which
  -- would set `lastSeq`, follows in the source and is never reached.
  else if rm.lastSeq < startSeq then return rm
  else if endSeq ≤ rm.lastSeq then return rm
  else return { rm with lastSeq := startSeq + sd.data.payloadSize }

/-- `insertReceivedRange` copies the segment field by field, but neither `in_sequence`,
`rdb_end_seq` nor the fields of the ACK direction. -/
def receivedSeg (sd : SendData) : DataSeg where
  seq := sd.data.seq
  endSeq := sd.data.endSeq
  tstampPcap := sd.data.tstampPcap
  payloadSize := sd.data.payloadSize
  isRdb := sd.data.isRdb
  retrans := sd.data.retrans
  tstampTcp := sd.data.tstampTcp
  window := sd.data.window
  flags := sd.data.flags

def insertReceivedRange (rm : RangeManager) (sd : SendData) : Except Abort RangeManager := do
  let seg := receivedSeg sd
  let (rm, _) ← rm.insertByteRange seg.seq seg.endSeq .recv seg 0
  return rm

end RangeManager

end AnalyseTCP
