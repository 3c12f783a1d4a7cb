import AnalyseTCP.DumpRuns
import AnalyseTCP.SentState
import AnalyseTCP.RangeInvariants

/-!
# The totals of a dump

`Dump` counts packets and ACKs for the whole capture, and every connection counts its own.  Nothing
ties the two together but the order of the statements in `processSent` and `processAcks`.
-/

namespace AnalyseTCP

/-! ## One frame on its connection -/

/-- What a connection counts for a sent packet: each packet, and its bytes unless it is ignored. -/
structure CountsSent (conn conn' : Connection) (payloadSize : ℕ) : Prop where
  packets : conn'.nrPacketsSent = conn.nrPacketsSent + 1
  acks : conn'.rm.ackCount = conn.rm.ackCount
  bytes : conn'.ignoredCount = conn.ignoredCount + 1 ∨
    conn'.ignoredCount = conn.ignoredCount ∧
      conn'.totBytesSent % 2 ^ 64 = (conn.totBytesSent + payloadSize) % 2 ^ 64

/-- The three counters of a connection that `Dump` has too, but for the ACKs. -/
def Connection.counters (conn : Connection) : ℕ × ℕ × ℕ :=
  (conn.nrPacketsSent, conn.ignoredCount, conn.totBytesSent)

-- With the record taken apart, no comparison ever unfolds the machine arithmetic in its fields.
theorem Connection.registerNewData_counters (conn : Connection) (sd : SendData) :
    (conn.registerNewData sd).1.counters = conn.counters ∧
      (conn.registerNewData sd).2.data.payloadSize = sd.data.payloadSize := by
  cases conn
  unfold registerNewData counters
  dsimp only
  split <;> exact ⟨rfl, rfl⟩

theorem Connection.registerRetrans_counters (conn : Connection) (sd : SendData) :
    (conn.registerRetrans sd).1.counters = conn.counters ∧
      (conn.registerRetrans sd).2.data.payloadSize = sd.data.payloadSize := by
  cases conn
  unfold registerRetrans counters
  exact ⟨rfl, rfl⟩

theorem Connection.classify_counters (conn : Connection) (sd : SendData) :
    (conn.classify sd).1.counters = (conn.nrPacketsSent, conn.ignoredCount,
      if sd.data.payloadSize = 0 then conn.totBytesSent
      else add64 conn.totBytesSent sd.data.payloadSize) := by
  unfold classify
  by_cases hzero : sd.data.payloadSize = 0
  · rw [if_pos hzero, if_pos hzero]
    rfl
  rw [if_neg hzero, if_neg hzero]
  have hdata : ∀ out : Connection × SendData, out.1.counters = conn.counters →
      out.2.data.payloadSize = sd.data.payloadSize →
      (out.1.nrPacketsSent, out.1.ignoredCount, add64 out.1.totBytesSent out.2.data.payloadSize) =
        (conn.nrPacketsSent, conn.ignoredCount, add64 conn.totBytesSent sd.data.payloadSize) := by
    intro out hcounters hsize
    obtain ⟨hpackets, hrest⟩ := Prod.mk.inj hcounters
    obtain ⟨hignored, hbytes⟩ := Prod.mk.inj hrest
    rw [hpackets, hignored, hbytes, hsize]
  by_cases hnew : conn.lastLargestEndSeq < sd.data.endSeq
  · rw [if_pos hnew]
    exact hdata _ (registerNewData_counters conn sd).1 (registerNewData_counters conn sd).2
  · rw [if_neg hnew]
    exact hdata _ (registerRetrans_counters conn sd).1 (registerRetrans_counters conn sd).2

theorem Connection.classify_counts (conn : Connection) (sd : SendData) :
    (conn.classify sd).1.nrPacketsSent = conn.nrPacketsSent ∧
      (conn.classify sd).1.ignoredCount = conn.ignoredCount ∧
      (conn.classify sd).1.totBytesSent % 2 ^ 64 =
        (conn.totBytesSent + sd.data.payloadSize) % 2 ^ 64 := by
  obtain ⟨hpackets, hrest⟩ := Prod.mk.inj (classify_counters conn sd)
  obtain ⟨hignored, hbytes⟩ := Prod.mk.inj hrest
  refine ⟨hpackets, hignored, ?_⟩
  rw [hbytes]
  split
  · next hzero => rw [hzero, Nat.add_zero]
  · exact Nat.mod_mod _ _

theorem Connection.processSent_counts {conn conn' : Connection} {sd : SendData}
    (h : conn.processSent sd = .ok conn') : CountsSent conn conn' sd.data.payloadSize := by
  unfold Connection.processSent at h
  rcases registerSent_cases conn sd with ⟨-, -, hout⟩ | ⟨c, d, hchecked, hout⟩
  · rw [hout] at h
    rw [← Except.ok.inj h]
    exact ⟨rfl, rfl, .inl rfl⟩
  · rw [hout] at h
    obtain ⟨rm, hrm, h⟩ := Run.exists_of_bind_ok h
    rw [← Except.ok.inj h]
    obtain ⟨hpackets, hignored, hbytes⟩ := classify_counts c d
    have hreference := (classify_reference c d).1
    -- none of the three checks touches a counter
    have hc : c.nrPacketsSent = conn.nrPacketsSent + 1 ∧ c.ignoredCount = conn.ignoredCount ∧
        c.totBytesSent = conn.totBytesSent ∧ c.rm.ackCount = conn.rm.ackCount ∧
        d.data.payloadSize = sd.data.payloadSize := by
      cases hchecked <;> exact ⟨rfl, rfl, rfl, rfl, rfl⟩
    refine ⟨hpackets.trans hc.1, ?_, .inr ⟨hignored.trans hc.2.1, ?_⟩⟩
    · show rm.ackCount = _
      rw [(RangeManager.insertSentRange_frame hrm).1, hreference, hc.2.2.2.1]
    · show (c.classify d).1.totBytesSent % 2 ^ 64 = _
      rw [hbytes, hc.2.2.1, hc.2.2.2.2]

/-- What a frame adds to the counters if it is counted. -/
def Captured.sentPackets : Captured → Bool → ℕ
  | .sent _, true => 1
  | _, _ => 0

def Captured.acks : Captured → Bool → ℕ
  | .ack _, true => 1
  | _, _ => 0

def Captured.sentBytes : Captured → Bool → ℕ
  | .sent f, true => f.payloadSize
  | _, _ => 0

/-- What the connection has counted after a frame. -/
structure CountsFrame (conn conn' : TracedConnection) (counted : Bool) (c : Captured) : Prop where
  packets : conn'.nrPacketsSent = conn.nrPacketsSent + c.sentPackets counted
  acks : conn'.rm.ackCount = conn.rm.ackCount + c.acks counted
  bytes : conn'.ignoredCount = conn.ignoredCount + 1 ∨
    conn'.ignoredCount = conn.ignoredCount ∧
      conn'.totBytesSent % 2 ^ 64 = (conn.totBytesSent + c.sentBytes counted) % 2 ^ 64

/-- A frame that is not counted leaves the connection as it is. -/
theorem countsFrame_false (conn : TracedConnection) (c : Captured) :
    CountsFrame conn conn false c := by
  have hnone : c.sentPackets false = 0 ∧ c.acks false = 0 ∧ c.sentBytes false = 0 := by
    cases c <;> exact ⟨rfl, rfl, rfl⟩
  refine ⟨?_, ?_, .inr ⟨rfl, ?_⟩⟩
  · rw [hnone.1, Nat.add_zero]
  · rw [hnone.2.1, Nat.add_zero]
  · rw [hnone.2.2, Nat.add_zero]

/-- A received frame moves no counter of the sender. -/
theorem countsFrame_of_eq {conn conn' : TracedConnection} {counted : Bool} {c : Captured}
    (hsender : conn'.toConnection.counters = conn.toConnection.counters)
    (hacks : conn'.rm.ackCount = conn.rm.ackCount + c.acks counted)
    (hc : c.sentPackets counted = 0 ∧ c.sentBytes counted = 0) :
    CountsFrame conn conn' counted c := by
  obtain ⟨hpackets, hrest⟩ := Prod.mk.inj hsender
  obtain ⟨hignored, hbytes⟩ := Prod.mk.inj hrest
  refine ⟨?_, hacks, .inr ⟨hignored, ?_⟩⟩
  · rw [hpackets, hc.1, Nat.add_zero]
  · rw [hbytes, hc.2, Nat.add_zero]

theorem TracedConnection.processSent_counts {conn conn' : TracedConnection} {f : Frame}
    {counted : Bool} (h : conn.processSent f = .ok (conn', counted)) :
    CountsFrame conn conn' counted (.sent f) := by
  obtain ⟨seq, -, h⟩ := Run.exists_of_bind_ok h
  split_ifs at h
  · obtain ⟨rfl, rfl⟩ := Prod.mk.inj (Except.ok.inj h)
    exact countsFrame_false _ _
  · obtain ⟨data, hdata, h⟩ := Run.exists_of_bind_ok h
    obtain ⟨sender, hsender, h⟩ := Run.exists_of_bind_ok h
    obtain ⟨rfl, rfl⟩ := Prod.mk.inj (Except.ok.inj h)
    have hcounts := Connection.processSent_counts (exists_of_liftAbort hsender)
    have hsize : data.payloadSize = f.payloadSize := by rw [f.parseTCPOptions_none hdata]; rfl
    rw [hsize] at hcounts
    exact ⟨hcounts.packets, hcounts.acks, hcounts.bytes⟩

theorem TracedConnection.processAcks_counts {conn conn' : TracedConnection} {f : Frame}
    {counted : Bool} (h : conn.processAcks f = .ok (conn', counted)) :
    CountsFrame conn conn' counted (.ack f) := by
  obtain ⟨ack, -, h⟩ := Run.exists_of_bind_ok h
  split_ifs at h
  · obtain ⟨rfl, rfl⟩ := Prod.mk.inj (Except.ok.inj h)
    exact countsFrame_false _ _
  · obtain ⟨seg, -, h⟩ := Run.exists_of_bind_ok h
    obtain ⟨⟨rm, ret⟩, hrm, h⟩ := Run.exists_of_bind_ok h
    have hacks := (RangeManager.processAck_frame (exists_of_liftAbort hrm)).1
    cases ret with
    | true =>
        obtain ⟨rfl, rfl⟩ := Prod.mk.inj (Except.ok.inj h)
        exact countsFrame_of_eq rfl hacks ⟨rfl, rfl⟩
    | false =>
        obtain ⟨rfl, rfl⟩ := Prod.mk.inj (Except.ok.inj h)
        exact countsFrame_of_eq rfl hacks ⟨rfl, rfl⟩

theorem TracedConnection.processRecvd_counts {conn conn' : TracedConnection} {f : Frame}
    {counted : Bool} (h : conn.processRecvd f = .ok (conn', counted)) :
    CountsFrame conn conn' counted (.recvd f) := by
  unfold processRecvd at h
  split_ifs at h
  · obtain ⟨rfl, rfl⟩ := Prod.mk.inj (Except.ok.inj h)
    exact countsFrame_false _ _
  · obtain ⟨seq, -, h⟩ := Run.exists_of_bind_ok h
    split_ifs at h
    · obtain ⟨rfl, rfl⟩ := Prod.mk.inj (Except.ok.inj h)
      exact countsFrame_false _ _
    · obtain ⟨data, -, h⟩ := Run.exists_of_bind_ok h
      obtain ⟨conn₁, hconn, h⟩ := Run.exists_of_bind_ok h
      obtain ⟨rfl, rfl⟩ := Prod.mk.inj (Except.ok.inj h)
      obtain ⟨rm, hrm, hset⟩ := Run.exists_of_bind_ok (exists_of_liftAbort hconn)
      rw [← Except.ok.inj hset]
      exact countsFrame_of_eq rfl (RangeManager.insertReceivedRange_frame hrm).1 ⟨rfl, rfl⟩

theorem Dump.handle_counts {conn conn' : TracedConnection} {c : Captured} {counted : Bool}
    (h : handle conn c = .ok (conn', counted)) : CountsFrame conn conn' counted c := by
  cases c with
  | sent f => exact TracedConnection.processSent_counts h
  | ack f => exact TracedConnection.processAcks_counts h
  | recvd f => exact TracedConnection.processRecvd_counts h

namespace Dump

variable {nat : NatConfig}

/-! ## Sums over the connections -/

/-- The sum of a counter over all connections. -/
def sumConns (d : Dump) (f : TracedConnection → ℕ) : ℕ := (d.conns.entries.map fun en => f en.2).sum

/-- A step changes one summand; a connection that is created contributes nothing before. -/
theorem sumConns_step {d d' : Dump} {c : Captured} {f : TracedConnection → ℕ}
    {tmpConn conn : TracedConnection} (hnew : ∀ seq, f (TracedConnection.new seq) = 0)
    (hget : (d.conns.find? (keyOf nat c)).or (create c) = some tmpConn)
    (hconns : d'.conns = d.conns.put (keyOf nat c) conn) :
    d'.sumConns f + f tmpConn = d.sumConns f + f conn := by
  have hold : d.conns.valueAt f (keyOf nat c) = f tmpConn := by
    unfold OrdMap.valueAt
    cases hfind : d.conns.find? (keyOf nat c) with
    | some conn₀ =>
        rw [hfind, Option.some_or] at hget
        rw [← Option.some.inj hget]
        rfl
    | none =>
        rw [hfind, Option.none_or] at hget
        obtain ⟨seq, -, rfl⟩ := Option.map_eq_some_iff.mp hget
        exact (hnew seq).symm
  unfold sumConns
  rw [hconns, ← hold]
  exact d.conns.sum_put _ _ f

/-- The totals of the dump are the sums over its connections. -/
structure Totals (d : Dump) : Prop where
  packets : d.sentPacketCount = d.sumConns fun conn => conn.nrPacketsSent
  acks : d.ackCount = d.sumConns fun conn => conn.rm.ackCount
  bytes : d.sumConns (fun conn => conn.ignoredCount) = 0 →
    d.sentBytesCount % 2 ^ 64 = d.sumConns (fun conn => conn.totBytesSent) % 2 ^ 64

theorem add64_mod (a b : ℕ) : add64 a b % 2 ^ 64 = (a + b) % 2 ^ 64 := Nat.mod_mod _ _

/-- What a frame adds to the dump. -/
theorem count_counts (d : Dump) (c : Captured) (counted : Bool) :
    let d' := if counted then d.count c else d
    d'.sentPacketCount = d.sentPacketCount + c.sentPackets counted ∧
      d'.ackCount = d.ackCount + c.acks counted ∧
      d'.sentBytesCount % 2 ^ 64 = (d.sentBytesCount + c.sentBytes counted) % 2 ^ 64 := by
  dsimp only
  cases counted with
  | false =>
      have hnone : c.sentPackets false = 0 ∧ c.acks false = 0 ∧ c.sentBytes false = 0 := by
        cases c <;> exact ⟨rfl, rfl, rfl⟩
      rw [hnone.1, hnone.2.1, hnone.2.2]
      exact ⟨rfl, rfl, rfl⟩
  | true =>
      rw [if_pos rfl]
      cases c with
      | sent f => exact ⟨rfl, rfl, add64_mod _ _⟩
      | ack f => exact ⟨rfl, rfl, rfl⟩
      | recvd f => exact ⟨rfl, rfl, rfl⟩

theorem step_totals {d d' : Dump} {c : Captured} (hinv : d.Totals) (h : step nat d c = .ok d') :
    d'.Totals := by
  rcases step_cases nat h with ⟨-, rfl⟩ | ⟨tmpConn, conn, counted, hsome, hhandle, hd'⟩
  · exact hinv
  have hcounts := handle_counts hhandle
  have hconns : d'.conns = d.conns.put (keyOf nat c) conn := by
    rw [hd', count_conns]
    rfl
  obtain ⟨hpackets, hacks, hbytes⟩ := count_counts (d.withConn (keyOf nat c) conn) c counted
  rw [← hd'] at hpackets hacks hbytes
  have hbase : (d.withConn (keyOf nat c) conn).sentPacketCount = d.sentPacketCount ∧
      (d.withConn (keyOf nat c) conn).ackCount = d.ackCount ∧
      (d.withConn (keyOf nat c) conn).sentBytesCount = d.sentBytesCount := ⟨rfl, rfl, rfl⟩
  constructor
  · have hsum := sumConns_step (f := fun conn => conn.nrPacketsSent) (fun _ => rfl) hsome hconns
    have hinv := hinv.packets
    have hconn := hcounts.packets
    omega
  · have hsum := sumConns_step (f := fun conn => conn.rm.ackCount) (fun _ => rfl) hsome hconns
    have hinv := hinv.acks
    have hconn := hcounts.acks
    omega
  · intro hzero
    have hignored := sumConns_step (f := fun conn => conn.ignoredCount) (fun _ => rfl) hsome hconns
    have hsum := sumConns_step (f := fun conn => conn.totBytesSent) (fun _ => rfl) hsome hconns
    -- the connection has ignored nothing, so neither had the dump before
    rcases hcounts.bytes with hmore | ⟨hsame, hconn⟩
    · omega
    · have hinv := hinv.bytes (by omega)
      omega

/-- What the dump has counted is what its connections have. -/
theorem run_totals {d : Dump} {cs : List Captured} (h : Run.run (step nat) {} cs = .ok d) :
    d.Totals := by
  have hnew : ({} : Dump).Totals := ⟨rfl, rfl, fun _ => rfl⟩
  exact Run.invariant (I := fun d _ => d.Totals) (d := [])
    (fun _ _ _ _ hinv _ hstep => step_totals hinv hstep) hnew (Run.steps_true _ _) h

theorem run_totals_twoSenders :
    ∃ d, Run.run (step {}) {} twoSenders = .ok d ∧
      (d.sentPacketCount = 3 ∧ d.ackCount = 1 ∧ d.sentBytesCount = 40) ∧ d.Totals := by
  have hrun : (Run.run (step {}) {} twoSenders).toOption.any (fun d =>
      d.sentPacketCount == 3 && d.ackCount == 1 && d.sentBytesCount == 40) = true := by
    decide +kernel
  obtain ⟨d, hd, hcounts⟩ := Run.exists_of_any_toOption hrun
  simp only [Bool.and_eq_true, beq_iff_eq, and_assoc] at hcounts
  exact ⟨d, hd, hcounts, run_totals hd⟩

end Dump

end AnalyseTCP
