import AnalyseTCP.DumpRuns
import AnalyseTCP.AckTimes
import AnalyseTCP.RangeInvariants
import AnalyseTCP.SentState

/-!
# From frames to packets

The runs of the other modules start from packets: a `SendData` for each packet of one connection, a
`DataSeg` for each ACK.  These are the runs that the passes over a capture make: behind the map of
connections, the headers and the options, each connection goes through a run of its own packets.
-/

namespace AnalyseTCP

/-! ## What a frame stands for -/

/-- The packet of a sent frame, as the headers say, with some TCP timestamps. -/
def Frame.Carries (f : Frame) (sd : SendData) : Prop :=
  sd.totalSize = f.len ∧ StampsFilled f.sendData.data sd.data

/-- The ACK of a frame, at a position that the header's number is congruent to. -/
structure Frame.CarriesAck (f : Frame) (firstSeq : ℕ) (seg : DataSeg) : Prop where
  ack : seg.ack ≤ 9999999999 ∧ (firstSeq + seg.ack) % 2 ^ 32 = f.thAck
  time : seg.tstampPcap = f.ts
  window : seg.window = f.thWin
  flags : seg.flags = f.thFlags

/-- The packet of a received frame, at such a position. -/
structure Frame.CarriesRecvd (f : Frame) (firstSeq : ℕ) (sd : SendData) : Prop where
  seq : sd.data.seq ≤ 9999999999 ∧ (firstSeq + sd.data.seq) % 2 ^ 32 = f.thSeq
  endSeq : sd.data.endSeq = sd.data.seq + sd.data.payloadSize
  payloadSize : sd.data.payloadSize = f.payloadSize
  seqAbsolute : sd.data.seqAbsolute = f.thSeq
  time : sd.data.tstampPcap = f.ts
  flags : sd.data.flags = f.thFlags

theorem Dump.word32_lt (opts : ℕ → UInt8) (o : ℕ) : word32 opts o < 2 ^ 32 := by
  unfold word32
  have h₀ := (opts o).toNat_lt
  have h₁ := (opts (o + 1)).toNat_lt
  have h₂ := (opts (o + 2)).toNat_lt
  have h₃ := (opts (o + 3)).toNat_lt
  omega

theorem Frame.thSeq_lt (f : Frame) : f.thSeq < 2 ^ 32 := Dump.word32_lt f.tcp 4

theorem Frame.thAck_lt (f : Frame) : f.thAck < 2 ^ 32 := Dump.word32_lt f.tcp 8

theorem Frame.payloadSize_lt (f : Frame) : f.payloadSize < 2 ^ 16 := Nat.mod_lt _ (by decide)

/-- A packet that small does not carry its end past 64 bits. -/
theorem add64_eq_add {seq size : ℕ} (hseq : seq ≤ 9999999999) (hsize : size < 2 ^ 16) :
    add64 seq size = seq + size := by
  unfold add64
  omega

/-! ## One frame -/

theorem Dump.processSent_eq {conn : Connection} (sd : SendData) {seq : ℕ}
    (h : AnalyseTCP.getRelativeSequenceNumber sd.data.seqAbsolute conn.rm.firstSeq
      conn.lastLargestEndSeq conn.lastLargestSeqAbsolute = .ok seq) :
    Dump.processSent conn sd =
      if seq = ulongMax then .ok conn else conn.processSent (stampSent sd seq) := by
  unfold Dump.processSent
  rw [h]
  rfl

namespace TracedConnection

variable {conn conn' : TracedConnection} {f : Frame} {counted : Bool}

/-- A sent frame is a packet of the packet-level model, which leaves the receiver's side alone. -/
theorem processSent_refines (h : conn.processSent f = .ok (conn', counted)) :
    conn' = { conn with toConnection := conn'.toConnection } ∧ ∃ sd, f.Carries sd ∧
      Dump.processSent conn.toConnection sd = .ok conn'.toConnection := by
  obtain ⟨seq, hseq, h⟩ := Run.exists_of_bind_ok h
  have hrel : AnalyseTCP.getRelativeSequenceNumber f.thSeq conn.rm.firstSeq
      conn.lastLargestEndSeq conn.lastLargestSeqAbsolute = .ok seq := exists_of_liftAbort hseq
  split_ifs at h
  · next hsentinel =>
    obtain ⟨rfl, -⟩ := Prod.mk.inj (Except.ok.inj h)
    have hsame := Dump.processSent_eq f.sendData hrel
    rw [if_pos hsentinel] at hsame
    exact ⟨rfl, f.sendData, ⟨rfl, rfl⟩, hsame⟩
  · next hseq =>
    obtain ⟨data, hdata, h⟩ := Run.exists_of_bind_ok h
    obtain ⟨sender, hsender, h⟩ := Run.exists_of_bind_ok h
    obtain ⟨rfl, -⟩ := Prod.mk.inj (Except.ok.inj h)
    -- the options only add times, so they might as well have been there before the stamp
    let sd : SendData := { f.sendData with
      data := { f.sendData.data with
        tstampTcp := data.tstampTcp
        tstampTcpEcho := data.tstampTcpEcho } }
    have hstamp : Dump.stampSent sd seq = { Dump.stampSent f.sendData seq with data := data } := by
      rw [f.parseTCPOptions_none hdata]
      rfl
    have hrun := Dump.processSent_eq sd hrel
    rw [if_neg hseq, hstamp, exists_of_liftAbort hsender] at hrun
    exact ⟨rfl, sd, ⟨rfl, rfl⟩, hrun⟩

/-- An ACK that is counted is one of the packet-level model; the sender's counters stay. -/
theorem processAcks_refines (h : conn.processAcks f = .ok (conn', counted)) :
    conn'.toConnection = { conn.toConnection with rm := conn'.rm } ∧
      (conn'.rm = conn.rm ∨ ∃ seg, f.CarriesAck conn.rm.firstSeq seg ∧
        conn.rm.ackStep seg = .ok conn'.rm) := by
  obtain ⟨ack, hack, h⟩ := Run.exists_of_bind_ok h
  split_ifs at h
  · obtain ⟨rfl, -⟩ := Prod.mk.inj (Except.ok.inj h)
    exact ⟨rfl, .inl rfl⟩
  · next hne =>
    obtain ⟨seg, hseg, h⟩ := Run.exists_of_bind_ok h
    obtain ⟨⟨rm, ret⟩, hrm, h⟩ := Run.exists_of_bind_ok h
    have hfilled := f.parseTCPOptions_filled hseg
    have hcongr := getRelativeSequenceNumber_congr (exists_of_liftAbort hack) hne
    rw [Nat.mod_eq_of_lt f.thAck_lt] at hcongr
    have hcarries : f.CarriesAck conn.rm.firstSeq seg := by
      refine ⟨?_, ?_, ?_, ?_⟩
      · rw [hfilled]
        exact hcongr
      all_goals rw [hfilled]
    have hstep : conn.rm.ackStep seg = .ok rm := by
      unfold RangeManager.ackStep
      rw [exists_of_liftAbort hrm]
      rfl
    cases ret with
    | true =>
        obtain ⟨rfl, -⟩ := Prod.mk.inj (Except.ok.inj h)
        exact ⟨rfl, .inr ⟨seg, hcarries, hstep⟩⟩
    | false =>
        obtain ⟨rfl, -⟩ := Prod.mk.inj (Except.ok.inj h)
        exact ⟨rfl, .inr ⟨seg, hcarries, hstep⟩⟩

/-- A received frame that is counted is a packet of the packet-level model. -/
theorem processRecvd_refines (h : conn.processRecvd f = .ok (conn', counted)) :
    conn' = conn ∨ ∃ sd, f.CarriesRecvd conn.rm.firstSeq sd ∧ conn.registerRecvd sd = .ok conn' := by
  unfold processRecvd at h
  split_ifs at h
  · obtain ⟨rfl, -⟩ := Prod.mk.inj (Except.ok.inj h)
    exact .inl rfl
  · obtain ⟨seq, hseq, h⟩ := Run.exists_of_bind_ok h
    split_ifs at h
    · obtain ⟨rfl, -⟩ := Prod.mk.inj (Except.ok.inj h)
      exact .inl rfl
    · next hne =>
      obtain ⟨data, hdata, h⟩ := Run.exists_of_bind_ok h
      obtain ⟨conn₁, hconn, h⟩ := Run.exists_of_bind_ok h
      obtain ⟨rfl, -⟩ := Prod.mk.inj (Except.ok.inj h)
      have hcongr := getRelativeSequenceNumber_congr (exists_of_liftAbort hseq) hne
      rw [Nat.mod_eq_of_lt f.thSeq_lt] at hcongr
      have hstamps := f.parseTCPOptions_none hdata
      refine .inr ⟨_, ?_, exists_of_liftAbort hconn⟩
      constructor
      · rw [hstamps]
        exact hcongr
      · rw [hstamps]
        exact add64_eq_add hcongr.1 f.payloadSize_lt
      all_goals
        rw [hstamps]
        rfl

end TracedConnection

namespace Dump

/-! ## The frames of one connection -/

theorem connStep_ok {conn conn' : TracedConnection} {c : Captured} (h : connStep conn c = .ok conn') :
    ∃ counted, handle conn c = .ok (conn', counted) := by
  unfold connStep at h
  cases hhandle : handle conn c with
  | error e =>
      rw [hhandle] at h
      cases h
  | ok out =>
      rw [hhandle] at h
      exact ⟨out.2, by rw [← Except.ok.inj h]⟩

theorem run_sent_refines {conn conn' : TracedConnection} {frames : List Frame}
    (h : Run.run connStep conn (frames.map .sent) = .ok conn') :
    conn' = { conn with toConnection := conn'.toConnection } ∧
      ∃ sds, List.Forall₂ Frame.Carries frames sds ∧
        Run.run processSent conn.toConnection sds = .ok conn'.toConnection := by
  induction frames generalizing conn with
  | nil =>
      obtain rfl := Except.ok.inj h
      exact ⟨rfl, [], .nil, rfl⟩
  | cons f frames ih =>
      obtain ⟨conn₁, hstep, hrun⟩ := Run.exists_of_run_cons h
      obtain ⟨counted, hhandle⟩ := connStep_ok hstep
      obtain ⟨hsame₁, sd, hsd, hsent⟩ := TracedConnection.processSent_refines hhandle
      obtain ⟨hsame, sds, hsds, hrest⟩ := ih hrun
      refine ⟨?_, sd :: sds, .cons hsd hsds, (Run.run_cons_ok hsent).trans hrest⟩
      rw [hsame, hsame₁]

theorem run_acks_refines {conn conn' : TracedConnection} {frames : List Frame}
    (h : Run.run connStep conn (frames.map .ack) = .ok conn') :
    conn'.toConnection = { conn.toConnection with rm := conn'.rm } ∧
      ∃ fs segs, fs.Sublist frames ∧
        List.Forall₂ (fun f seg => f.CarriesAck conn.rm.firstSeq seg) fs segs ∧
        Run.run RangeManager.ackStep conn.rm segs = .ok conn'.rm := by
  induction frames generalizing conn with
  | nil =>
      obtain rfl := Except.ok.inj h
      exact ⟨rfl, [], [], .slnil, .nil, rfl⟩
  | cons f frames ih =>
      obtain ⟨conn₁, hstep, hrun⟩ := Run.exists_of_run_cons h
      obtain ⟨counted, hhandle⟩ := connStep_ok hstep
      obtain ⟨hsame₁, hack⟩ := TracedConnection.processAcks_refines hhandle
      obtain ⟨hsame, fs, segs, hsub, hsegs, hrest⟩ := ih hrun
      have hconn : conn'.toConnection = { conn.toConnection with rm := conn'.rm } := by
        rw [hsame, hsame₁]
      refine ⟨hconn, ?_⟩
      rcases hack with hrm | ⟨seg, hcarries, hstep⟩
      · rw [hrm] at hsegs hrest
        exact ⟨fs, segs, hsub.cons f, hsegs, hrest⟩
      · obtain ⟨ret, hprocess⟩ := RangeManager.exists_of_ackStep hstep
        rw [(RangeManager.processAck_frame hprocess).2] at hsegs
        exact ⟨f :: fs, seg :: segs, hsub.cons_cons f, .cons hcarries hsegs,
          (Run.run_cons_ok hstep).trans hrest⟩

theorem registerRecvd_firstSeq {conn conn' : TracedConnection} {sd : SendData}
    (h : conn.registerRecvd sd = .ok conn') : conn'.rm.firstSeq = conn.rm.firstSeq := by
  obtain ⟨rm, hrm, hset⟩ := Run.exists_of_bind_ok h
  rw [← Except.ok.inj hset]
  exact (RangeManager.insertReceivedRange_frame hrm).2

theorem run_recvd_refines {conn conn' : TracedConnection} {frames : List Frame}
    (h : Run.run connStep conn (frames.map .recvd) = .ok conn') :
    ∃ fs sds, fs.Sublist frames ∧
      List.Forall₂ (fun f sd => f.CarriesRecvd conn.rm.firstSeq sd) fs sds ∧
      Run.run TracedConnection.registerRecvd conn sds = .ok conn' := by
  induction frames generalizing conn with
  | nil =>
      obtain rfl := Except.ok.inj h
      exact ⟨[], [], .slnil, .nil, rfl⟩
  | cons f frames ih =>
      obtain ⟨conn₁, hstep, hrun⟩ := Run.exists_of_run_cons h
      obtain ⟨counted, hhandle⟩ := connStep_ok hstep
      obtain ⟨fs, sds, hsub, hsds, hrest⟩ := ih hrun
      rcases TracedConnection.processRecvd_refines hhandle with rfl | ⟨sd, hcarries, hrecvd⟩
      · exact ⟨fs, sds, hsub.cons f, hsds, hrest⟩
      · rw [registerRecvd_firstSeq hrecvd] at hsds
        exact ⟨f :: fs, sd :: sds, hsub.cons_cons f, .cons hcarries hsds,
          (Run.run_cons_ok hrecvd).trans hrest⟩

/-! ## Whole passes -/

variable {nat : NatConfig}

/-- The frames of the pass over sent packets that belong to the connection at `k`. -/
def sentOf (k : ConnectionMapKey) (frames : List Frame) : List Frame :=
  frames.filter fun f => decide (f.connKey = k)

def acksOf (k : ConnectionMapKey) (frames : List Frame) : List Frame :=
  frames.filter fun f => decide (f.connKey.reverse = k)

def recvdOf (nat : NatConfig) (k : ConnectionMapKey) (frames : List Frame) : List Frame :=
  frames.filter fun f => decide (nat.apply f.connKey = k)

theorem framesOf_sender (nat : NatConfig) (k : ConnectionMapKey) (sent acks : List Frame) :
    framesOf nat k (sent.map .sent ++ acks.map .ack) =
      (sentOf k sent).map .sent ++ (acksOf k acks).map .ack := by
  unfold framesOf Keyed.inputs
  rw [List.filter_append, List.filter_map, List.filter_map]
  congr 2
  · exact List.filter_congr fun f _ => decide_eq_decide.mpr Iff.rfl
  · exact List.filter_congr fun f _ => decide_eq_decide.mpr Iff.rfl

theorem framesOf_recvd (nat : NatConfig) (k : ConnectionMapKey) (recvd : List Frame) :
    framesOf nat k (recvd.map .recvd) = (recvdOf nat k recvd).map .recvd := by
  unfold framesOf Keyed.inputs
  rw [List.filter_map]
  congr 1
  exact List.filter_congr fun f _ => decide_eq_decide.mpr Iff.rfl

/-- The frames that start a connection and those after it, by the pass they are in. -/
theorem split_sender {fs gs : List Frame} {lost rest : List Captured} {c : Captured}
    {s : TracedConnection} (h : fs.map .sent ++ gs.map .ack = lost ++ c :: rest)
    (hlost : ∀ j ∈ lost, create j = none) (hc : create c = some s) :
    ∃ f fs', fs = f :: fs' ∧ s = TracedConnection.new f.thSeq ∧
      c :: rest = fs.map .sent ++ gs.map .ack := by
  cases fs with
  | cons f fs' =>
      cases lost with
      | cons j lost =>
          obtain rfl : Captured.sent f = j := (List.cons.inj h).1
          cases hlost _ List.mem_cons_self
      | nil =>
          rw [List.nil_append] at h
          obtain rfl : Captured.sent f = c := (List.cons.inj h).1
          exact ⟨f, fs', rfl, (Option.some.inj hc).symm, h.symm⟩
  | nil =>
      -- an ACK does not start a connection
      have hmem : c ∈ gs.map Captured.ack := by
        rw [List.map_nil, List.nil_append] at h
        rw [h]
        simp
      obtain ⟨g, -, rfl⟩ := List.mem_map.mp hmem
      cases hc

/-- A connection of the sender's passes goes through its own packets and then its own ACKs. -/
theorem exists_of_analyseSender {sent acks : List Frame} {d : Dump}
    (h : analyseSender nat sent acks = .ok d) {k : ConnectionMapKey} {conn : TracedConnection}
    (hconn : d.conns.find? k = some conn) :
    ∃ f rest, sentOf k sent = f :: rest ∧ Run.run connStep (TracedConnection.new f.thSeq)
      ((f :: rest).map .sent ++ (acksOf k acks).map .ack) = .ok conn := by
  have hrun := run_conns nat h
  obtain ⟨lost, c, rest, new, hinputs, hlost, hc, hact⟩ := Keyed.exists_of_run_find? hrun hconn
  have hframes := (framesOf_sender nat k sent acks).symm.trans hinputs
  obtain ⟨f, fs, hsent, rfl, hcons⟩ := split_sender hframes hlost hc
  rw [hcons, hsent] at hact
  exact ⟨f, fs, hsent, hact⟩

/-- A connection of the receiver's pass was there before. -/
theorem exists_of_processRecvdFile {recvd : List Frame} {d d' : Dump}
    (h : processRecvdFile nat d recvd = .ok d') {k : ConnectionMapKey} {conn' : TracedConnection}
    (hconn' : d'.conns.find? k = some conn') :
    ∃ conn, d.conns.find? k = some conn ∧
      Run.run connStep conn ((recvdOf nat k recvd).map .recvd) = .ok conn' := by
  have hrun := Keyed.run_find? (run_conns nat h) k
  have hframes := framesOf_recvd nat k recvd
  unfold framesOf at hframes
  rw [hframes, hconn'] at hrun
  cases hfind : d.conns.find? k with
  | none =>
      -- nothing in this pass starts a connection
      rw [hfind] at hrun
      obtain ⟨lost, c, rest, new, hinputs, -, hc, -⟩ := Keyed.run_part_none hrun
      have hmem : c ∈ (recvdOf nat k recvd).map Captured.recvd := by
        rw [hinputs]
        simp
      obtain ⟨f, -, rfl⟩ := List.mem_map.mp hmem
      cases hc
  | some conn =>
      rw [hfind] at hrun
      obtain ⟨t, ht, hact⟩ := Keyed.run_part_some hrun
      obtain rfl := Option.some.inj ht
      exact ⟨conn, rfl, hact⟩

/-- After the sender's passes, each connection is what the packet-level model makes of its own
packets and then of its own ACKs. -/
theorem analyseSender_refines {sent acks : List Frame} {d : Dump}
    (h : analyseSender nat sent acks = .ok d) {k : ConnectionMapKey} {conn : TracedConnection}
    (hconn : d.conns.find? k = some conn) :
    ∃ f rest sds fs segs sender, sentOf k sent = f :: rest ∧
      List.Forall₂ Frame.Carries (f :: rest) sds ∧
      Run.run processSent (TracedConnection.new f.thSeq).toConnection sds = .ok sender ∧
      fs.Sublist (acksOf k acks) ∧
      List.Forall₂ (fun f seg => f.CarriesAck sender.rm.firstSeq seg) fs segs ∧
      Run.run RangeManager.ackStep sender.rm segs = .ok conn.rm ∧
      conn.toConnection = { sender with rm := conn.rm } := by
  obtain ⟨f, fs, hsent, hact⟩ := exists_of_analyseSender h hconn
  obtain ⟨mid, hsents, hacks⟩ := Run.exists_of_run_append hact
  obtain ⟨-, sds, hsds, hsender⟩ := run_sent_refines hsents
  obtain ⟨hrest, gs, segs, hsub, hsegs, hrm⟩ := run_acks_refines hacks
  exact ⟨f, fs, sds, gs, segs, mid.toConnection, hsent, hsds, hsender, hsub, hsegs, hrm, hrest⟩

/-- A packet and its ACK, next to a packet of another connection. -/
theorem analyseSender_refines_shortFrames :
    ∃ d conn, analyseSender {} [shortFrame ⟨5, 0⟩ 1 9 0 0 0x10 10, shortFrame ⟨6, 0⟩ 2 9 0 0 0x10 20]
        [shortFrame ⟨8, 0⟩ 9 1 0 10 0x10 0] = .ok d ∧
      d.conns.find? ⟨0x1000000, 0x9000000, 0x100, 0x900⟩ = some conn ∧
      ∃ f rest sds fs segs sender,
        sentOf ⟨0x1000000, 0x9000000, 0x100, 0x900⟩ [shortFrame ⟨5, 0⟩ 1 9 0 0 0x10 10,
          shortFrame ⟨6, 0⟩ 2 9 0 0 0x10 20] = f :: rest ∧
        List.Forall₂ Frame.Carries (f :: rest) sds ∧
        Run.run processSent (TracedConnection.new f.thSeq).toConnection sds = .ok sender ∧
        fs.Sublist (acksOf ⟨0x1000000, 0x9000000, 0x100, 0x900⟩
          [shortFrame ⟨8, 0⟩ 9 1 0 10 0x10 0]) ∧
        List.Forall₂ (fun f seg => f.CarriesAck sender.rm.firstSeq seg) fs segs ∧
        Run.run RangeManager.ackStep sender.rm segs = .ok conn.rm ∧
        conn.toConnection = { sender with rm := conn.rm } := by
  have hrun : (analyseSender {} [shortFrame ⟨5, 0⟩ 1 9 0 0 0x10 10,
      shortFrame ⟨6, 0⟩ 2 9 0 0 0x10 20] [shortFrame ⟨8, 0⟩ 9 1 0 10 0x10 0]).toOption.any
        (fun d => (d.conns.find? ⟨0x1000000, 0x9000000, 0x100, 0x900⟩).isSome) = true := by
    decide +kernel
  obtain ⟨d, hd, hfound⟩ := Run.exists_of_any_toOption hrun
  obtain ⟨conn, hconn⟩ := Option.isSome_iff_exists.mp hfound
  exact ⟨d, conn, hd, hconn, analyseSender_refines hd hconn⟩

/-- After the receiver's pass, each connection is what the packet-level model makes of its own
received packets. -/
theorem processRecvdFile_refines {recvd : List Frame} {d d' : Dump}
    (h : processRecvdFile nat d recvd = .ok d') {k : ConnectionMapKey} {conn' : TracedConnection}
    (hconn' : d'.conns.find? k = some conn') :
    ∃ conn fs sds, d.conns.find? k = some conn ∧ fs.Sublist (recvdOf nat k recvd) ∧
      List.Forall₂ (fun f sd => f.CarriesRecvd conn.rm.firstSeq sd) fs sds ∧
      Run.run TracedConnection.registerRecvd conn sds = .ok conn' := by
  obtain ⟨conn, hfind, hact⟩ := exists_of_processRecvdFile h hconn'
  obtain ⟨fs, sds, hsub, hsds, hregister⟩ := run_recvd_refines hact
  exact ⟨conn, fs, sds, hfind, hsub, hsds, hregister⟩

/-- The packet arrives. -/
theorem processRecvdFile_refines_shortFrames :
    ∃ d d' conn', analyseSender {} [shortFrame ⟨5, 0⟩ 1 9 0 0 0x10 10] [] = .ok d ∧
      processRecvdFile {} d [shortFrame ⟨5, 1⟩ 1 9 0 0 0x10 10] = .ok d' ∧
      d'.conns.find? ⟨0x1000000, 0x9000000, 0x100, 0x900⟩ = some conn' ∧
      ∃ conn fs sds, d.conns.find? ⟨0x1000000, 0x9000000, 0x100, 0x900⟩ = some conn ∧
        fs.Sublist (recvdOf {} ⟨0x1000000, 0x9000000, 0x100, 0x900⟩
          [shortFrame ⟨5, 1⟩ 1 9 0 0 0x10 10]) ∧
        List.Forall₂ (fun f sd => f.CarriesRecvd conn.rm.firstSeq sd) fs sds ∧
        Run.run TracedConnection.registerRecvd conn sds = .ok conn' := by
  have hrun : (analyseSender {} [shortFrame ⟨5, 0⟩ 1 9 0 0 0x10 10] []).toOption.any (fun d =>
      (processRecvdFile {} d [shortFrame ⟨5, 1⟩ 1 9 0 0 0x10 10]).toOption.any (fun d' =>
        (d'.conns.find? ⟨0x1000000, 0x9000000, 0x100, 0x900⟩).isSome)) = true := by
    decide +kernel
  obtain ⟨d, hd, hrecvd⟩ := Run.exists_of_any_toOption hrun
  obtain ⟨d', hd', hfound⟩ := Run.exists_of_any_toOption hrecvd
  obtain ⟨conn', hconn'⟩ := Option.isSome_iff_exists.mp hfound
  exact ⟨d, d', conn', hd, hd', hconn', processRecvdFile_refines hd' hconn'⟩

end Dump

end AnalyseTCP
