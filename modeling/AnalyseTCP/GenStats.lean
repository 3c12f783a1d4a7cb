import AnalyseTCP.AnalyseInterval
import AnalyseTCP.Lib.Buckets
import AnalyseTCP.Percentiles
import AnalyseTCP.SojournTimes

/-!
# `RangeManager::genStats`

One loop over the analysed ranges collects the payload sizes, a record for each transmission, the
latencies and the retransmissions.  A second iterator, `last_acked`, follows behind and is moved
past the ranges that were acknowledged before a transmission; `pifs` counts the ranges between the
two.
-/

namespace AnalyseTCP

/-- `SegmentStats`, less the name of the connection. -/
structure SegmentStats where
  sType : SentType
  sendTimeUs : ℤ
  size : ℕ
  ittUsec : ℤ := 0
  /-- only set for `ST_PKT` -/
  ackLatencyUsec : Option ℤ := none
  pifs : ℤ := 0
  sojournTimes : List (ℤ × ℤ) := []

structure PacketsStats where
  latency : BaseStats
  packetLength : BaseStats
  itt : BaseStats
  packetStats : List SegmentStats := []
  retrans : List ℕ := []
  dupacks : List ℕ := []

def PacketsStats.init (number : String → ℚ) (tokens : List String) : PacketsStats where
  latency := .init number tokens
  packetLength := .init number tokens
  itt := .init number tokens

def PacketsStats.addPacketStats (bs : PacketsStats) (ps : SegmentStats) : PacketsStats :=
  { bs with packetStats := bs.packetStats ++ [ps] }

/-- `int16_t`. -/
def toInt16 (x : ℤ) : ℤ := x.bmod (2 ^ 16)

namespace ByteRange

/-- `getOrinalPayloadSize() != 0`. -/
def hasPayload (r : ByteRange) : Bool := decide (r.originalPayloadSize ≠ 0)

/-- `add(tmp_byte_count)` for the range, and once more for each retransmission. -/
def addPayloads (r : ByteRange) (s : BaseStats) : BaseStats :=
  if r.hasPayload then
    (List.range r.packetRetransCount.val).foldl (fun s _ => s.add r.originalPayloadSize)
      (s.add r.originalPayloadSize)
  else s

/-- The size of a retransmission; `next` is the analysed range behind this one. -/
def retransSize (r : ByteRange) (next : Option ByteRange) : ℕ :=
  match next with
  | some n =>
      if n.packetRetransCount.val < n.dataRetransCount.val then
        add32 r.originalPayloadSize (n.dataRetransCount.val * n.byteCount)
      else r.originalPayloadSize
  | none => r.originalPayloadSize

end ByteRange

/-- The two counters of the sweep: `pifs`, and the entries from `last_acked` on. -/
structure Flight where
  pifs : ℤ
  lastAcked : List Entry

namespace Flight

/-- The loop that moves `last_acked`. -/
def passAcked (sentMs : ℤ) : ℤ → List Entry → Flight
  | pifs, [] => ⟨pifs, []⟩
  | pifs, e :: l =>
      if e.2.ackTime.getUsecs < sentMs then passAcked sentMs (toInt16 (pifs - 1)) l
      else ⟨pifs, e :: l⟩

/-- `pifs++` for a range with payload. -/
def enter (r : ByteRange) (f : Flight) : Flight :=
  if r.hasPayload then { f with pifs := toInt16 (f.pifs + 1) } else f

/-- What a transmission does. -/
def transmit (r : ByteRange) (f : Flight) (p : Timeval × SentType) : Flight :=
  if p.2 = .pkt ∧ r.acked = true then passAcked p.1.getUsecs f.pifs f.lastAcked else f

end Flight

namespace RangeManager

/-- `bs` and the local variables of the loop. -/
structure GenState where
  bs : PacketsStats
  flight : Flight

/-- The body of the loop over `sent_tstamp_pcap`. -/
def genSent (r : ByteRange) (next : Option ByteRange) (st : GenState)
    (p : Timeval × SentType) : Except Abort GenState := do
  let us := p.1.getUsecs
  match p.2 with
  | .none => return st
  | .pkt =>
      let diff ← r.getSendAckTimeDiff
      let flight := st.flight.transmit r p
      return {
        bs := st.bs.addPacketStats
          { sType := .pkt, sendTimeUs := us, size := r.originalPayloadSize
            sojournTimes := r.getSojournTimes, ackLatencyUsec := some diff, pifs := flight.pifs }
        flight := flight }
  | .rtr =>
      return { st with
        bs := st.bs.addPacketStats
          { sType := .rtr, sendTimeUs := us, size := r.retransSize next, pifs := st.flight.pifs } }
  | .pureAck =>
      return { st with
        bs := st.bs.addPacketStats { sType := .pureAck, sendTimeUs := us, size := 0 } }
  | .rst =>
      return { st with
        bs := st.bs.addPacketStats { sType := .rst, sendTimeUs := us, size := 0 } }

/-- `v[0]` up to `v[n - 1]` are increased. -/
def countTo (v : List ℕ) (n : ℕ) : List ℕ :=
  (List.range n).foldl (fun v i => Buckets.bump 0 v i (· + 1)) v

/-- The body of the loop over the analysed ranges. -/
def genRange (r : ByteRange) (next : Option ByteRange) (st : GenState) : Except Abort GenState := do
  let st : GenState :=
    { bs := { st.bs with packetLength := r.addPayloads st.bs.packetLength }
      flight := st.flight.enter r }
  let st ← Run.run (genSent r next) st r.sentTstampPcap
  let bs := { st.bs with dupacks := countTo st.bs.dupacks r.dupackCount.val }
  let latency ← r.getSendAckTimeDiff
  if latency = 0 ∧ r.acked = false then return { st with bs := bs }
  else
    -- a negative latency is converted to `ullint_t`
    let bs := if latency = 0 then bs
      else { bs with latency := bs.latency.add (latency % 2 ^ 64).toNat }
    return { st with bs := { bs with retrans := countTo bs.retrans r.packetRetransCount.val } }

def genRanges : List Entry → GenState → Except Abort GenState
  | [], st => .ok st
  | e :: l, st => do
      let st ← genRange e.2 (l.head?.map Prod.snd) st
      genRanges l st

/-- Where `last_acked` starts: at the first analysed range with payload, else at `ranges.end()`. -/
def firstPayload (rm : RangeManager) (iv : AnalyseRange) (analysed : List Entry) : List Entry :=
  if analysed.any fun e => e.2.hasPayload then
    (rm.ranges.entries.drop iv.analyseRangeStart).dropWhile fun e => !e.2.hasPayload
  else []

/-- `genStats` up to the sorting of the records. -/
def genSegments (rm : RangeManager) (iv : AnalyseRange) (bs : PacketsStats) :
    Except Abort GenState := do
  let bs := { bs with
    latency := { bs.latency with min := 2 ^ 64 - 1 }
    packetLength := { bs.packetLength with min := 2 ^ 64 - 1 }
    itt := { bs.itt with min := 2 ^ 64 - 1 } }
  let analysed ← rm.analysedRanges iv
  genRanges analysed { bs := bs, flight := ⟨0, rm.firstPayload iv analysed⟩ }

/-- The loop for the times between transmissions, from the send time `prev` on. -/
def addItts (prev : ℤ) : BaseStats → List SegmentStats → BaseStats × List SegmentStats
  | itt, [] => (itt, [])
  | itt, ps :: l =>
      -- pure ACKs are skipped
      if ps.size = 0 then
        let (itt, l) := addItts prev itt l
        (itt, ps :: l)
      else
        let d := ps.sendTimeUs - prev
        let (itt, l) := addItts ps.sendTimeUs (itt.add (d % 2 ^ 64).toNat) l
        (itt, { ps with ittUsec := ByteRange.toInt d } :: l)

/-- The rest of `genStats`; `packet_stats[0]` needs a record. -/
def finishStats (number : String → ℚ) (bs : PacketsStats) : Except Abort PacketsStats :=
  match bs.packetStats.mergeSort fun a b => decide (a.sendTimeUs ≤ b.sendTimeUs) with
  | [] => .error .outOfRange
  | first :: rest => do
      let (itt, rest) := addItts first.sendTimeUs bs.itt rest
      let latency ← bs.latency.makeStats number
      let packetLength ← bs.packetLength.makeStats number
      let itt ← itt.makeStats number
      return { bs with
        latency := latency
        packetLength := packetLength
        itt := itt
        packetStats := first :: rest }

def genStats (rm : RangeManager) (number : String → ℚ) (iv : AnalyseRange) (bs : PacketsStats) :
    Except Abort PacketsStats := do
  let st ← rm.genSegments iv bs
  finishStats number st.bs

/-! ## What the loops leave -/

section Records

variable {r : ByteRange} {next : Option ByteRange} {st : GenState} {diff : ℤ}

/-- The record of a transmission; `flight` is what the sweep has after it. -/
def sentRecord (r : ByteRange) (next : Option ByteRange) (diff : ℤ) (flight : Flight)
    (p : Timeval × SentType) : Option SegmentStats :=
  let us := p.1.getUsecs
  match p.2 with
  | .none => none
  | .pkt =>
      some
        { sType := .pkt, sendTimeUs := us, size := r.originalPayloadSize
          sojournTimes := r.getSojournTimes, ackLatencyUsec := some diff, pifs := flight.pifs }
  | .rtr =>
      some { sType := .rtr, sendTimeUs := us, size := r.retransSize next, pifs := flight.pifs }
  | .pureAck => some { sType := .pureAck, sendTimeUs := us, size := 0 }
  | .rst => some { sType := .rst, sendTimeUs := us, size := 0 }

def sentRecords (r : ByteRange) (next : Option ByteRange) (diff : ℤ) :
    Flight → List (Timeval × SentType) → List SegmentStats
  | _, [] => []
  | f, p :: ps =>
      (sentRecord r next diff (f.transmit r p) p).toList ++
        sentRecords r next diff (f.transmit r p) ps

theorem genSent_eq (hdiff : r.getSendAckTimeDiff = .ok diff) (p : Timeval × SentType) :
    genSent r next st p = .ok
      { bs := { st.bs with
          packetStats := st.bs.packetStats ++
            (sentRecord r next diff (st.flight.transmit r p) p).toList }
        flight := st.flight.transmit r p } := by
  obtain ⟨tv, sentT⟩ := p
  -- only `ST_PKT` moves the sweep
  have hother : sentT ≠ .pkt → st.flight.transmit r (tv, sentT) = st.flight :=
    fun hne => if_neg fun h => hne h.1
  cases sentT with
  | pkt =>
    unfold genSent sentRecord
    dsimp only
    rw [hdiff]
    rfl
  | none =>
    rw [hother (by decide)]
    unfold genSent sentRecord
    dsimp only
    rw [Option.toList_none, List.append_nil]
    rfl
  | rtr =>
    rw [hother (by decide)]
    rfl
  | pureAck =>
    rw [hother (by decide)]
    rfl
  | rst =>
    rw [hother (by decide)]
    rfl

theorem run_genSent_eq (hdiff : r.getSendAckTimeDiff = .ok diff) (ps : List (Timeval × SentType)) :
    Run.run (genSent r next) st ps = .ok
      { bs := { st.bs with
          packetStats := st.bs.packetStats ++ sentRecords r next diff st.flight ps }
        flight := ps.foldl (Flight.transmit r) st.flight } := by
  induction ps generalizing st with
  | nil =>
    unfold sentRecords
    rw [List.append_nil]
    rfl
  | cons p ps ih =>
    rw [Run.run_cons_ok (genSent_eq hdiff p), ih, sentRecords, List.append_assoc]
    rfl

/-- The assertion on the latency does not fail. -/
def HasLatency (r : ByteRange) : Prop := ∃ diff, r.getSendAckTimeDiff = .ok diff

/-- No ACK that was captured before the first transmission. -/
theorem hasLatency_of_le
    (h : r.ackTime = Timeval.zero ∨ r.firstSend.getUsecs ≤ r.ackTime.getUsecs) : HasLatency r := by
  unfold HasLatency ByteRange.getSendAckTimeDiff
  cases hsent : r.sentTstampPcap with
  | nil => exact ⟨_, rfl⟩
  | cons p ps =>
    dsimp only
    by_cases hzero : p.1 = Timeval.zero
    · rw [if_pos hzero]
      exact ⟨_, rfl⟩
    by_cases hack : r.ackTime = Timeval.zero
    · rw [if_neg hzero, if_pos hack]
      exact ⟨_, rfl⟩
    have hle : p.1.getUsecs ≤ r.ackTime.getUsecs := by
      have hfirst : r.firstSend = p.1 := by
        unfold ByteRange.firstSend
        rw [hsent]
        rfl
      exact hfirst ▸ h.resolve_left hack
    rw [if_neg hzero, if_neg hack, Timeval.getUsecs_sub, if_neg (by omega)]
    exact ⟨_, rfl⟩

/-- The sweep over a range. -/
def sweepRange (f : Flight) (r : ByteRange) : Flight :=
  r.sentTstampPcap.foldl (Flight.transmit r) (f.enter r)

theorem genRange_spec (hdiff : r.getSendAckTimeDiff = .ok diff) :
    ∃ st', genRange r next st = .ok st' ∧
      st'.bs.packetLength = r.addPayloads st.bs.packetLength ∧
      st'.bs.packetStats = st.bs.packetStats ++
        sentRecords r next diff (st.flight.enter r) r.sentTstampPcap ∧
      st'.flight = sweepRange st.flight r := by
  unfold genRange
  dsimp only
  rw [run_genSent_eq hdiff, Run.ok_bind, hdiff, Run.ok_bind]
  by_cases hskip : diff = 0 ∧ r.acked = false
  · -- the `continue` leaves out the retransmissions only
    rw [if_pos hskip]
    exact ⟨_, rfl, rfl, rfl, rfl⟩
  · rw [if_neg hskip]
    by_cases hzero : diff = 0
    · rw [if_pos hzero]
      exact ⟨_, rfl, rfl, rfl, rfl⟩
    · rw [if_neg hzero]
      exact ⟨_, rfl, rfl, rfl, rfl⟩

/-- How many records a range leaves. -/
def recordCount (ps : List (Timeval × SentType)) : ℕ := ps.countP fun p => decide (p.2 ≠ .none)

theorem length_sentRecords {f : Flight} {ps : List (Timeval × SentType)} :
    (sentRecords r next diff f ps).length = recordCount ps := by
  unfold recordCount
  induction ps generalizing f with
  | nil => rfl
  | cons p ps ih =>
    obtain ⟨tv, sentT⟩ := p
    rw [sentRecords, List.length_append, ih, List.countP_cons, add_comm]
    cases sentT <;> rfl

theorem sentRecords_append {f : Flight} {ps qs : List (Timeval × SentType)} :
    sentRecords r next diff f (ps ++ qs) =
      sentRecords r next diff f ps ++
        sentRecords r next diff (ps.foldl (Flight.transmit r) f) qs := by
  induction ps generalizing f with
  | nil => rfl
  | cons p ps ih =>
    rw [List.cons_append, sentRecords, sentRecords, ih, List.append_assoc]
    rfl

/-- The loops return if no assertion fails, and leave samples, records and a sweep for each
range. -/
theorem genRanges_spec {l : List Entry} (hdiff : ∀ e ∈ l, HasLatency e.2) :
    ∃ st', genRanges l st = .ok st' ∧
      st'.bs.packetLength = l.foldl (fun s e => e.2.addPayloads s) st.bs.packetLength ∧
      ∀ pre e post, l = pre ++ e :: post → ∃ diff front back,
        st'.bs.packetStats = st.bs.packetStats ++ front ++
          sentRecords e.2 (post.head?.map Prod.snd) diff
            ((pre.foldl (fun f e => sweepRange f e.2) st.flight).enter e.2)
            e.2.sentTstampPcap ++ back ∧
        front.length = (pre.map fun e => recordCount e.2.sentTstampPcap).sum := by
  induction l generalizing st with
  | nil => exact ⟨st, rfl, rfl, fun pre e post h => by simp at h⟩
  | cons d l ih =>
    obtain ⟨⟨diff, hd⟩, hl⟩ := List.forall_mem_cons.mp hdiff
    obtain ⟨st₁, h₁, hlen₁, hstats₁, hflight₁⟩ :=
      @genRange_spec d.2 (l.head?.map Prod.snd) st diff hd
    obtain ⟨st', h', hlen', hstats'⟩ := @ih st₁ hl
    have hrun : genRanges (d :: l) st = .ok st' := by
      rw [genRanges, h₁]
      exact h'
    have hlen : st'.bs.packetLength =
        (d :: l).foldl (fun s e => e.2.addPayloads s) st.bs.packetLength := by
      rw [hlen', hlen₁]
      rfl
    refine ⟨st', hrun, hlen, fun pre e post hcut => ?_⟩
    cases pre with
    | nil =>
      obtain ⟨rfl, rfl⟩ := List.cons.inj hcut
      -- the later ranges only add records
      have hback : ∃ back, st'.bs.packetStats = st₁.bs.packetStats ++ back := by
        cases l with
        | nil =>
          obtain rfl := Except.ok.inj h'
          exact ⟨[], (List.append_nil _).symm⟩
        | cons x xs =>
          obtain ⟨diff', front, back, heq, -⟩ := hstats' [] x xs rfl
          rw [List.append_assoc, List.append_assoc] at heq
          exact ⟨_, heq⟩
      obtain ⟨back, hback⟩ := hback
      refine ⟨diff, [], back, ?_, rfl⟩
      rw [hback, hstats₁, List.append_nil]
      rfl
    | cons x pre =>
      obtain ⟨rfl, hrest⟩ := List.cons.inj hcut
      obtain ⟨diff', front, back, heq, hfront⟩ := hstats' pre e post hrest
      refine ⟨diff', sentRecords d.2 (l.head?.map Prod.snd) diff (st.flight.enter d.2)
        d.2.sentTstampPcap ++ front, back, ?_, ?_⟩
      · rw [heq, hstats₁, hflight₁, List.foldl_cons]
        simp only [List.append_assoc]
      · rw [List.length_append, length_sentRecords, hfront, List.map_cons, List.sum_cons]

end Records

end RangeManager

end AnalyseTCP
