import AnalyseTCP.FirstSentTime
import AnalyseTCP.CaptureRefinement
import AnalyseTCP.PacketSizes
import Mathlib.Data.Nat.ModEq

/-!
# A capture with throughput tables

With `-T`, `processSent` ends with a call of `registerPacketSize` for each packet that `registerSent`
does not ignore.  The tables do not disturb the run, and the packets in those of a connection are the
ones that its counters have counted.
-/

namespace AnalyseTCP

/-! ## The packet of a frame -/

/-- The packet handed to `registerPacketSize`, with the mark that `registerSent` sets. -/
def Connection.sizedPacket (conn : Connection) (sd : SendData) : Option SizedPacket :=
  match conn.registerSent sd with
  | (_, sd, true) => some
      { ts := sd.data.tstampPcap
        ps := sd.totalSize
        payloadSize := sd.data.payloadSize
        retrans := sd.data.retrans }
  | (_, _, false) => none

/-- The same from the frame on, along the lines of `processSent`. -/
def TracedConnection.sizedPacket (conn : TracedConnection) (f : Frame) :
    Except Halt (Option SizedPacket) := do
  let seq ← liftAbort (conn.getRelativeSequenceNumber f.thSeq .sendOut)
  if 40 < Dump.tcpOptionLen f.thOff then .error .optionLength
  else if seq = ulongMax then return none
  else
    let sd := Dump.stampSent f.sendData seq
    let data ← f.parseTCPOptions none sd.data
    return conn.toConnection.sizedPacket { sd with data := data }

/-- What a table keeps of a frame. -/
def SizedPacket.view (p : SizedPacket) : Timeval × ℕ × ℕ := (p.ts, p.ps, p.payloadSize)

def Frame.view (f : Frame) : Timeval × ℕ × ℕ := (f.ts, f.len, f.payloadSize)

/-- The bytes of the packet, if they were sent before. -/
def SizedPacket.retransSize (p : SizedPacket) : ℕ := if p.retrans then p.payloadSize else 0

/-- The counters of the connection are those of the packets `ps`. -/
structure CountedBy (conn : Connection) (ps : List SizedPacket) : Prop where
  packets : conn.nrPacketsSent = ps.length + conn.ignoredCount
  bytes : conn.totBytesSent ≡ (ps.map SizedPacket.payloadSize).sum [MOD 2 ^ 64]
  retrans : conn.totRetransBytesSent ≡ (ps.map SizedPacket.retransSize).sum [MOD 2 ^ 64]

theorem countedBy_new (seq : ℕ) : CountedBy (Connection.new seq) [] := ⟨rfl, rfl, rfl⟩

section Counters

variable {conn conn' : Connection} {ps : List SizedPacket}

theorem CountedBy.ignored (h : CountedBy conn ps)
    (hpackets : conn'.nrPacketsSent = conn.nrPacketsSent + 1)
    (hignored : conn'.ignoredCount = conn.ignoredCount + 1)
    (hbytes : conn'.totBytesSent = conn.totBytesSent)
    (hretrans : conn'.totRetransBytesSent = conn.totRetransBytesSent) : CountedBy conn' ps := by
  have hcount := h.packets
  refine ⟨by omega, ?_, ?_⟩
  · rw [hbytes]
    exact h.bytes
  · rw [hretrans]
    exact h.retrans

theorem CountedBy.concat (h : CountedBy conn ps) {p : SizedPacket}
    (hpackets : conn'.nrPacketsSent = conn.nrPacketsSent + 1)
    (hignored : conn'.ignoredCount = conn.ignoredCount)
    (hbytes : conn'.totBytesSent ≡ conn.totBytesSent + p.payloadSize [MOD 2 ^ 64])
    (hretrans : conn'.totRetransBytesSent ≡ conn.totRetransBytesSent + p.retransSize
      [MOD 2 ^ 64]) : CountedBy conn' (ps ++ [p]) := by
  have hcount := h.packets
  refine ⟨?_, ?_, ?_⟩
  · rw [List.length_append, List.length_singleton]
    omega
  · rw [List.map_append, List.sum_append, List.map_singleton, List.sum_singleton]
    exact hbytes.trans (h.bytes.add_right _)
  · rw [List.map_append, List.sum_append, List.map_singleton, List.sum_singleton]
    exact hretrans.trans (h.retrans.add_right _)

end Counters

namespace Connection

variable {conn conn' : Connection} {sd : SendData} {ps : List SizedPacket}

theorem classify_marks (conn : Connection) (sd : SendData) :
    (conn.classify sd).2.totalSize = sd.totalSize ∧
      (conn.classify sd).2.data.payloadSize = sd.data.payloadSize := by
  unfold classify
  by_cases hzero : sd.data.payloadSize = 0
  · rw [if_pos hzero]
    exact ⟨rfl, rfl⟩
  rw [if_neg hzero]
  by_cases hnew : conn.lastLargestEndSeq < sd.data.endSeq
  · rw [if_pos hnew]
    unfold registerNewData
    dsimp only
    split <;> exact ⟨rfl, rfl⟩
  · rw [if_neg hnew]
    exact ⟨rfl, rfl⟩

theorem registerNewData_retrans (conn : Connection) (sd : SendData) :
    (conn.registerNewData sd).1.totRetransBytesSent = conn.totRetransBytesSent ∧
      (conn.registerNewData sd).2.data.retrans = sd.data.retrans := by
  cases conn
  unfold registerNewData
  dsimp only
  split <;> exact ⟨rfl, rfl⟩

theorem registerRetrans_retrans (conn : Connection) (sd : SendData) :
    (conn.registerRetrans sd).1.totRetransBytesSent =
        add64 conn.totRetransBytesSent sd.data.payloadSize ∧
      (conn.registerRetrans sd).2.data.retrans = true := by
  cases conn
  unfold registerRetrans
  exact ⟨rfl, rfl⟩

/-- The packet is marked exactly if its bytes are counted as retransmitted. -/
theorem classify_retrans (conn : Connection) (sd : SendData) (hfresh : sd.data.retrans = false) :
    (conn.classify sd).1.totRetransBytesSent % 2 ^ 64 = (conn.totRetransBytesSent +
      if (conn.classify sd).2.data.retrans then sd.data.payloadSize else 0) % 2 ^ 64 := by
  have hout : ∀ out : Connection × SendData,
      out.1.totRetransBytesSent % 2 ^ 64 = (conn.totRetransBytesSent +
        if out.2.data.retrans then sd.data.payloadSize else 0) % 2 ^ 64 →
      (({ out.1 with
          nrDataPacketsSent := out.1.nrDataPacketsSent + 1
          lastLargestStartSeq := out.2.data.seq
          totBytesSent := add64 out.1.totBytesSent out.2.data.payloadSize } :
            Connection).totRetransBytesSent) % 2 ^ 64 = (conn.totRetransBytesSent +
        if out.2.data.retrans then sd.data.payloadSize else 0) % 2 ^ 64 := by
    intro out h
    exact h
  unfold classify
  by_cases hzero : sd.data.payloadSize = 0
  · rw [if_pos hzero, hfresh, if_neg Bool.false_ne_true, Nat.add_zero]
  rw [if_neg hzero]
  by_cases hnew : conn.lastLargestEndSeq < sd.data.endSeq
  · rw [if_pos hnew]
    apply hout
    rw [(registerNewData_retrans conn sd).1, (registerNewData_retrans conn sd).2, hfresh,
      if_neg Bool.false_ne_true, Nat.add_zero]
  · rw [if_neg hnew]
    apply hout
    rw [(registerRetrans_retrans conn sd).1, (registerRetrans_retrans conn sd).2, if_pos rfl]
    exact Nat.mod_mod _ _

/-- A packet that is not ignored goes into the counters and into the tables, any other into
neither. -/
theorem processSent_counted (hfresh : sd.data.retrans = false) (h : conn.processSent sd = .ok conn')
    (hinv : CountedBy conn ps) :
    CountedBy conn' (ps ++ (conn.sizedPacket sd).toList) ∧ ∀ p ∈ conn.sizedPacket sd,
      p.view = (sd.data.tstampPcap, sd.totalSize, sd.data.payloadSize) := by
  unfold Connection.processSent at h
  unfold sizedPacket
  rcases registerSent_cases conn sd with ⟨-, -, hout⟩ | ⟨c, d, hchecked, hout⟩
  · rw [hout] at h ⊢
    rw [← Except.ok.inj h]
    refine ⟨?_, fun p hp => nomatch hp⟩
    rw [Option.toList_none, List.append_nil]
    exact hinv.ignored rfl rfl rfl rfl
  · rw [hout] at h ⊢
    obtain ⟨rm, -, h⟩ := Run.exists_of_bind_ok h
    rw [← Except.ok.inj h]
    obtain ⟨hpackets, hignored, hbytes⟩ := classify_counts c d
    obtain ⟨htotal, hsize⟩ := classify_marks c d
    -- none of the three checks touches a counter, or what the packet is read for
    have hc : c.nrPacketsSent = conn.nrPacketsSent + 1 ∧ c.ignoredCount = conn.ignoredCount ∧
        c.totBytesSent = conn.totBytesSent ∧ c.totRetransBytesSent = conn.totRetransBytesSent := by
      cases hchecked <;> exact ⟨rfl, rfl, rfl, rfl⟩
    have hd : d.data.payloadSize = sd.data.payloadSize ∧ d.data.retrans = sd.data.retrans ∧
        d.totalSize = sd.totalSize ∧ d.data.tstampPcap = sd.data.tstampPcap := by
      cases hchecked <;> exact ⟨rfl, rfl, rfl, rfl⟩
    have hretrans := classify_retrans c d (hd.2.1.trans hfresh)
    rw [hc.2.2.1] at hbytes
    rw [hc.2.2.2] at hretrans
    refine ⟨hinv.concat (hpackets.trans hc.1) (hignored.trans hc.2.1) ?_ ?_, ?_⟩
    · rw [hsize]
      exact hbytes
    · unfold SizedPacket.retransSize
      rw [hsize]
      exact hretrans
    · intro p hp
      rw [← Option.some.inj hp, SizedPacket.view, classify_tstampPcap, htotal, hsize, hd.2.2.2,
        hd.2.2.1, hd.1]

end Connection

namespace TracedConnection

variable {conn conn' : TracedConnection} {f : Frame} {counted : Bool} {ps : List SizedPacket}

theorem processSent_counted (h : conn.processSent f = .ok (conn', counted))
    (hinv : CountedBy conn.toConnection ps) :
    ∃ packet, conn.sizedPacket f = .ok packet ∧
      CountedBy conn'.toConnection (ps ++ packet.toList) ∧
      ∀ p ∈ packet, p.view = f.view ∧ counted = true := by
  unfold sizedPacket
  obtain ⟨seq, hseq, h⟩ := Run.exists_of_bind_ok h
  rw [hseq, Run.ok_bind]
  split_ifs at h ⊢
  · obtain ⟨rfl, -⟩ := Prod.mk.inj (Except.ok.inj h)
    refine ⟨none, rfl, ?_, fun p hp => nomatch hp⟩
    rwa [Option.toList_none, List.append_nil]
  · obtain ⟨data, hdata, h⟩ := Run.exists_of_bind_ok h
    obtain ⟨sender, hsender, h⟩ := Run.exists_of_bind_ok h
    obtain ⟨rfl, rfl⟩ := Prod.mk.inj (Except.ok.inj h)
    dsimp only
    rw [hdata, Run.ok_bind]
    have hfilled := f.parseTCPOptions_none hdata
    have hfresh : data.retrans = false := by rw [hfilled]; rfl
    have hview : data.tstampPcap = f.ts ∧ data.payloadSize = f.payloadSize := by
      rw [hfilled]
      exact ⟨rfl, rfl⟩
    obtain ⟨hcounted, hpacket⟩ :=
      Connection.processSent_counted hfresh (exists_of_liftAbort hsender) hinv
    refine ⟨_, rfl, hcounted, fun p hp => ⟨(hpacket p hp).trans ?_, rfl⟩⟩
    rw [Frame.view, hview.1, hview.2]
    rfl

theorem processAcks_counted (h : conn.processAcks f = .ok (conn', counted))
    (hinv : CountedBy conn.toConnection ps) : CountedBy conn'.toConnection ps := by
  rw [(processAcks_refines h).1]
  exact ⟨hinv.packets, hinv.bytes, hinv.retrans⟩

end TracedConnection

/-! ## The passes with `-T` -/

/-- A dump, and `packetSizes` and `packetSizeGroups` of its connections. -/
structure ThroughputDump where
  dump : Dump := {}
  tables : OrdMap ConnectionMapKey PacketSizeVectors := OrdMap.empty

namespace ThroughputDump

/-- The tables of a connection, which are empty as long as nothing is registered. -/
def table (t : ThroughputDump) (k : ConnectionMapKey) : PacketSizeVectors :=
  (t.tables.find? k).getD {}

variable (throughputAggrMs : ℕ) (nat : NatConfig)

/-- `processSent` with its last lines.  The passes over ACKs and received packets leave the tables
alone. -/
def step (t : ThroughputDump) (c : Captured) : Except Halt ThroughputDump :=
  match c with
  | .sent f =>
      match (t.dump.getConn f.connKey (some f.thSeq)).2 with
      | none => .ok t
      | some tmpConn => do
          let packet ← tmpConn.sizedPacket f
          let dump ← t.dump.step nat (.sent f)
          match packet with
          | none => return { t with dump := dump }
          | some p =>
              let v ← liftAbort
                ((t.table f.connKey).registerPacketSize throughputAggrMs dump.firstSentTime p)
              return { dump := dump, tables := t.tables.put f.connKey v }
  | c => do
      let dump ← t.dump.step nat c
      return { t with dump := dump }

def analyseSender (sent acks : List Frame) : Except Halt ThroughputDump :=
  Run.run (step throughputAggrMs nat) {} (sent.map .sent ++ acks.map .ack)

end ThroughputDump

/-- What the tables of the connection at `k` keep of a frame. -/
def Captured.viewAt (k : ConnectionMapKey) : Captured → Option (Timeval × ℕ × ℕ)
  | .sent f => if f.connKey = k then some f.view else none
  | _ => none

/-- The tables `v` of the connection at `k` are those of `ps`, which are packets of its own in the
order of the capture. -/
structure Tabled (throughputAggrMs : ℕ) (d : Dump) (v : PacketSizeVectors) (k : ConnectionMapKey)
    (done : List Captured) (ps : List SizedPacket) : Prop where
  table : v = {} ∧ ps = [] ∨ d.firstSentTime ≠ Timeval.zero ∧
    PacketSizeVectors.Registered throughputAggrMs d.firstSentTime v ps
  counted : ∀ conn, d.conns.find? k = some conn → CountedBy conn.toConnection ps
  absent : d.conns.find? k = none → ps = []
  frames : (ps.map SizedPacket.view).Sublist (done.filterMap (Captured.viewAt k))

section Steps

variable {throughputAggrMs : ℕ} {nat : NatConfig} {d d' : Dump} {v : PacketSizeVectors}
  {k : ConnectionMapKey} {done : List Captured} {ps : List SizedPacket} {c : Captured}
  {counted : Bool}

/-- A frame that registers nothing in the tables at `k`. -/
theorem Tabled.concat (h : Tabled throughputAggrMs d v k done ps)
    (hfirst : d'.firstSentTime = Dump.firstAfter d.firstSentTime c counted)
    (hcounted : ∀ conn, d'.conns.find? k = some conn → CountedBy conn.toConnection ps)
    (habsent : d'.conns.find? k = none → d.conns.find? k = none) :
    Tabled throughputAggrMs d' v k (done ++ [c]) ps where
  table := by
    rcases h.table with hnew | ⟨hne, hreg⟩
    · exact .inl hnew
    · -- once set, the first time stays
      rw [Dump.firstAfter_of_ne hne] at hfirst
      rw [hfirst]
      exact .inr ⟨hne, hreg⟩
  counted := hcounted
  absent hnone := h.absent (habsent hnone)
  frames := by
    rw [List.filterMap_append]
    exact h.frames.trans (List.sublist_append_left _ _)

/-- The connection as a frame finds it, in the map or new. -/
theorem Tabled.found {tmpConn : TracedConnection}
    (h : Tabled throughputAggrMs d v (Dump.keyOf nat c) done ps)
    (hsome : (d.conns.find? (Dump.keyOf nat c)).or (Dump.create c) = some tmpConn) :
    CountedBy tmpConn.toConnection ps := by
  cases hfind : d.conns.find? (Dump.keyOf nat c) with
  | some conn =>
      rw [hfind, Option.some_or] at hsome
      rw [← Option.some.inj hsome]
      exact h.counted conn hfind
  | none =>
      rw [hfind, Option.none_or] at hsome
      obtain ⟨seq, -, rfl⟩ := Option.map_eq_some_iff.mp hsome
      rw [h.absent hfind]
      exact countedBy_new seq

/-- A frame that changes one connection and registers nothing. -/
theorem Tabled.put {k' : ConnectionMapKey} {conn : TracedConnection}
    (h : Tabled throughputAggrMs d v k done ps)
    (hfirst : d'.firstSentTime = Dump.firstAfter d.firstSentTime c counted)
    (hconns : d'.conns = d.conns.put k' conn)
    (hself : k = k' → CountedBy conn.toConnection ps) :
    Tabled throughputAggrMs d' v k (done ++ [c]) ps := by
  have hfind := OrdMap.find?_put d.conns k' conn k
  rw [← hconns] at hfind
  by_cases hk : k = k'
  · rw [if_pos hk] at hfind
    refine h.concat hfirst (fun conn' hconn' => ?_) fun hnone => ?_
    · rw [← Option.some.inj (hfind.symm.trans hconn')]
      exact hself hk
    · rw [hfind] at hnone
      cases hnone
  · rw [if_neg hk] at hfind
    refine h.concat hfirst (fun conn' hconn' => ?_) fun hnone => hfind ▸ hnone
    exact h.counted conn' (hfind.symm.trans hconn')

/-- A packet goes into the tables of its connection. -/
theorem Tabled.register {f : Frame} {p : SizedPacket}
    (h : Tabled throughputAggrMs d v f.connKey done ps)
    (hfirst : d'.firstSentTime = Dump.firstAfter d.firstSentTime (.sent f) counted)
    (hne : d'.firstSentTime ≠ Timeval.zero) (hsince : CapturedSince d'.firstSentTime p.ts)
    (hview : p.view = f.view) {conn : TracedConnection}
    (hfind : d'.conns.find? f.connKey = some conn)
    (hcounted : CountedBy conn.toConnection (ps ++ [p])) :
    ∃ v', v.registerPacketSize throughputAggrMs d'.firstSentTime p = .ok v' ∧
      Tabled throughputAggrMs d' v' f.connKey (done ++ [.sent f]) (ps ++ [p]) := by
  have hreg : PacketSizeVectors.Registered throughputAggrMs d'.firstSentTime v ps := by
    rcases h.table with ⟨rfl, rfl⟩ | ⟨hset, hreg⟩
    · exact PacketSizeVectors.registered_nil
    · rw [Dump.firstAfter_of_ne hset] at hfirst
      rw [hfirst]
      exact hreg
  obtain ⟨v', hv', hreg'⟩ := hreg.step hsince
  refine ⟨v', hv', .inr ⟨hne, hreg'⟩, fun conn' hconn' => ?_, fun hnone => ?_, ?_⟩
  · rwa [← Option.some.inj (hfind.symm.trans hconn')]
  · rw [hfind] at hnone
    cases hnone
  rw [List.map_append, List.filterMap_append]
  apply h.frames.append
  rw [List.map_singleton, hview]
  show List.Sublist _ ([Captured.sent f].filterMap fun c => c.viewAt f.connKey)
  rw [List.filterMap_cons, Captured.viewAt, if_pos rfl]
  exact List.Sublist.refl _

end Steps

/-- A frame of the sender's file, with a proper capture time. -/
def Captured.Stamped : Captured → Prop
  | .sent f => f.ts.Captured
  | .ack _ => True
  | .recvd _ => False

theorem Captured.Stamped.ofSender {c : Captured} (h : c.Stamped) : c.OfSender := by
  cases c with
  | sent f =>
      intro hzero
      have hsec := Timeval.Captured.sec h
      rw [hzero] at hsec
      exact absurd hsec (by decide)
  | ack f => trivial
  | recvd f => exact h

theorem Captured.stamped_of_files {sent : List Frame} (acks : List Frame)
    (hts : ∀ f ∈ sent, f.ts.Captured) :
    ∀ c ∈ sent.map Captured.sent ++ acks.map Captured.ack, c.Stamped := by
  intro c hc
  rcases List.mem_append.mp hc with hc | hc
  · obtain ⟨f, hf, rfl⟩ := List.mem_map.mp hc
    exact hts f hf
  · obtain ⟨f, -, rfl⟩ := List.mem_map.mp hc
    trivial

theorem CapturedSince.of_usecs {first ts : Timeval} (hfirst : first.Captured) (hts : ts.Captured)
    (hle : first.getUsecs ≤ ts.getUsecs) : CapturedSince first ts := by
  apply CapturedSince.of_captured hfirst hts
  obtain ⟨-, -, husec, hbelow⟩ := hfirst
  obtain ⟨-, -, husec', hbelow'⟩ := hts
  unfold Timeval.getUsecs at hle
  unfold Timeval.before
  split
  · exact decide_eq_false (by omega)
  · exact decide_eq_false (by omega)

namespace ThroughputDump

/-- The run with `-T` is where the one without it is, and all tables are those of packets. -/
structure Follows (throughputAggrMs : ℕ) (d : Dump) (t : ThroughputDump) (done : List Captured) :
    Prop where
  dump : t.dump = d
  timed : d.TimedBy done
  first : d.firstSentTime ≠ Timeval.zero → d.firstSentTime.Captured
  tables : ∀ k, ∃ ps, Tabled throughputAggrMs d (t.table k) k done ps

variable {throughputAggrMs : ℕ} {nat : NatConfig} {d d' : Dump} {t : ThroughputDump}
  {done : List Captured} {c : Captured}

theorem follows_new (throughputAggrMs : ℕ) : Follows throughputAggrMs {} {} [] where
  dump := rfl
  timed := ⟨fun _ hen => (nomatch hen), fun hne => absurd rfl hne⟩
  first hne := absurd rfl hne
  tables _ := ⟨[], .inl ⟨rfl, rfl⟩, fun _ h => (nomatch h), fun _ => rfl, List.Sublist.refl _⟩

theorem Follows.first_concat {counted : Bool} (h : Follows throughputAggrMs d t done)
    (hc : c.Stamped) (hfirst : d'.firstSentTime = Dump.firstAfter d.firstSentTime c counted)
    (hne : d'.firstSentTime ≠ Timeval.zero) : d'.firstSentTime.Captured := by
  by_cases hset : d.firstSentTime = Timeval.zero
  · rw [hset] at hfirst
    unfold Dump.firstAfter at hfirst
    split at hfirst
    · rw [if_pos rfl] at hfirst
      rw [hfirst]
      exact hc
    · exact absurd hfirst hne
  · rw [Dump.firstAfter_of_ne hset] at hfirst
    rw [hfirst]
    exact h.first hset

theorem table_put (t : ThroughputDump) (d : Dump) (k k' : ConnectionMapKey) (v : PacketSizeVectors) :
    ThroughputDump.table { dump := d, tables := t.tables.put k v } k' =
      if k' = k then v else t.table k' := by
  unfold table
  dsimp only
  rw [OrdMap.find?_put]
  split <;> rfl

/-- A frame that registers nothing. -/
theorem Follows.put {counted : Bool} {conn : TracedConnection}
    (h : Follows throughputAggrMs d t done) (hc : c.Stamped)
    (htimed : d'.TimedBy (done ++ [c]))
    (hfirst : d'.firstSentTime = Dump.firstAfter d.firstSentTime c counted)
    (hconns : d'.conns = d.conns.put (Dump.keyOf nat c) conn)
    (hself : ∀ ps, Tabled throughputAggrMs d (t.table (Dump.keyOf nat c)) (Dump.keyOf nat c) done ps →
      CountedBy conn.toConnection ps) :
    Follows throughputAggrMs d' { t with dump := d' } (done ++ [c]) where
  dump := rfl
  timed := htimed
  first := h.first_concat hc hfirst
  tables k := by
    obtain ⟨ps, hps⟩ := h.tables k
    refine ⟨ps, hps.put hfirst hconns fun hk => ?_⟩
    subst hk
    exact hself ps hps

/-- A packet that registers itself. -/
theorem Follows.register {f : Frame} {p : SizedPacket} {conn : TracedConnection}
    (h : Follows throughputAggrMs d t done) (hc : (Captured.sent f).Stamped)
    (horder : ∀ c' ∈ done, c'.InOrder (.sent f)) (htimed : d'.TimedBy (done ++ [.sent f]))
    (hfirst : d'.firstSentTime = Dump.firstAfter d.firstSentTime (.sent f) true)
    (hconns : d'.conns = d.conns.put f.connKey conn) (hview : p.view = f.view)
    {ps : List SizedPacket} (hps : Tabled throughputAggrMs d (t.table f.connKey) f.connKey done ps)
    (hcounted : CountedBy conn.toConnection (ps ++ [p])) :
    ∃ v, (t.table f.connKey).registerPacketSize throughputAggrMs d'.firstSentTime p = .ok v ∧
      Follows throughputAggrMs d' { dump := d', tables := t.tables.put f.connKey v }
        (done ++ [.sent f]) := by
  obtain ⟨-, -, -, -, hne, hle⟩ := h.timed.sentTime_counted hc.ofSender horder hfirst
  have hts : p.ts = f.ts := congrArg Prod.fst hview
  have hsince : CapturedSince d'.firstSentTime p.ts := by
    rw [hts]
    exact CapturedSince.of_usecs (h.first_concat hc hfirst hne) hc hle
  have hfind : d'.conns.find? f.connKey = some conn := by
    rw [hconns, OrdMap.find?_put, if_pos rfl]
  obtain ⟨v, hv, htabled⟩ := hps.register hfirst hne hsince hview hfind hcounted
  refine ⟨v, hv, rfl, htimed, h.first_concat hc hfirst, fun k => ?_⟩
  rw [table_put]
  by_cases hk : k = f.connKey
  · rw [if_pos hk, hk]
    exact ⟨_, htabled⟩
  · rw [if_neg hk]
    obtain ⟨ps', hps'⟩ := h.tables k
    exact ⟨ps', hps'.put hfirst hconns fun heq => absurd heq hk⟩

theorem Follows.step (h : Follows throughputAggrMs d t done) (hc : c.Stamped)
    (horder : ∀ c' ∈ done, c'.InOrder c) (hstep : d.step nat c = .ok d') :
    ∃ t', t.step throughputAggrMs nat c = .ok t' ∧
      Follows throughputAggrMs d' t' (done ++ [c]) := by
  have htimed := Dump.step_timedBy h.timed hc.ofSender horder hstep
  obtain rfl := h.dump
  rcases Dump.step_cases nat hstep with ⟨hnone, rfl⟩ |
    ⟨tmpConn, conn, counted, hsome, hhandle, hd'⟩
  · cases c with
    | sent f =>
        -- a sent packet creates its connection
        obtain ⟨-, hcreate⟩ := Option.or_eq_none_iff.mp hnone
        cases hcreate
    | ack f =>
        refine ⟨t, ?_, rfl, htimed, h.first, fun k => ?_⟩
        · unfold ThroughputDump.step
          dsimp only
          rw [hstep, Run.ok_bind]
          rfl
        · obtain ⟨ps, hps⟩ := h.tables k
          have hfirst : t.dump.firstSentTime =
              Dump.firstAfter t.dump.firstSentTime (.ack f) false := rfl
          exact ⟨ps, hps.concat hfirst hps.counted id⟩
    | recvd f => exact hc.elim
  have hfirst : d'.firstSentTime = Dump.firstAfter t.dump.firstSentTime c counted := by
    rw [hd', Dump.count_firstSentTime]
    rfl
  have hconns : d'.conns = t.dump.conns.put (Dump.keyOf nat c) conn := by
    rw [hd', Dump.count_conns]
    rfl
  cases c with
  | sent f =>
      obtain ⟨ps, hps⟩ := h.tables f.connKey
      have htmp : CountedBy tmpConn.toConnection ps := Tabled.found (c := .sent f) hps hsome
      obtain ⟨packet, hpacket, hcounted, hview⟩ :=
        TracedConnection.processSent_counted hhandle htmp
      have hget : (t.dump.getConn f.connKey (some f.thSeq)).2 = some tmpConn :=
        (Dump.getConn_eq t.dump f.connKey (.sent f)).trans hsome
      unfold ThroughputDump.step
      dsimp only
      rw [hget]
      dsimp only
      rw [hpacket, Run.ok_bind, hstep, Run.ok_bind]
      cases packet with
      | none =>
          refine ⟨_, rfl, h.put hc htimed hfirst hconns fun ps hps => ?_⟩
          have htmp : CountedBy tmpConn.toConnection ps := Tabled.found (c := .sent f) hps hsome
          obtain ⟨packet', hpacket', hcounted', -⟩ :=
            TracedConnection.processSent_counted hhandle htmp
          obtain rfl := Except.ok.inj (hpacket.symm.trans hpacket')
          rwa [Option.toList_none, List.append_nil] at hcounted'
      | some p =>
          obtain ⟨hsame, rfl⟩ := hview p rfl
          obtain ⟨v, hv, hfollows⟩ := h.register hc horder htimed hfirst hconns hsame hps hcounted
          dsimp only
          rw [hv]
          exact ⟨_, rfl, hfollows⟩
  | ack f =>
      unfold ThroughputDump.step
      dsimp only
      rw [hstep, Run.ok_bind]
      refine ⟨_, rfl, h.put hc htimed hfirst hconns fun ps hps => ?_⟩
      exact TracedConnection.processAcks_counted hhandle (hps.found hsome)
  | recvd f => exact hc.elim

/-- A run over the sender's file has a run with `-T` beside it. -/
theorem exists_follows (throughputAggrMs : ℕ) {sent acks : List Frame}
    (hts : ∀ f ∈ sent, f.ts.Captured)
    (horder : sent.Pairwise fun f g => f.ts.getUsecs ≤ g.ts.getUsecs)
    (h : Dump.analyseSender nat sent acks = .ok d) :
    ∃ t, analyseSender throughputAggrMs nat sent acks = .ok t ∧
      Follows throughputAggrMs d t (sent.map .sent ++ acks.map .ack) := by
  exact Run.simulates_after (R := Follows throughputAggrMs) (d := [])
    (fun _ _ _ _ _ hinv horder hc hstep => hinv.step hc horder hstep) (follows_new throughputAggrMs)
    (Run.stepsAfter_of_pairwise (Dump.pairwise_inOrder acks horder))
    (Captured.stamped_of_files acks hts) h

theorem filterMap_viewAt (k : ConnectionMapKey) (sent acks : List Frame) :
    (sent.map Captured.sent ++ acks.map Captured.ack).filterMap (Captured.viewAt k) =
      (Dump.sentOf k sent).map Frame.view := by
  have hacks : (acks.map Captured.ack).filterMap (Captured.viewAt k) = [] := by
    rw [List.filterMap_map]
    exact List.filterMap_eq_nil_iff.mpr fun _ _ => rfl
  rw [List.filterMap_append, hacks, List.append_nil, List.filterMap_map]
  unfold Dump.sentOf
  induction sent with
  | nil => rfl
  | cons f sent ih =>
      by_cases hk : f.connKey = k
      · have hview : (Captured.viewAt k ∘ Captured.sent) f = some f.view := if_pos hk
        rw [List.filterMap_cons_some hview, List.filter_cons_of_pos (by simpa using hk),
          List.map_cons, ih]
      · have hview : (Captured.viewAt k ∘ Captured.sent) f = none := if_neg hk
        rw [List.filterMap_cons_none hview, List.filter_cons_of_neg (by simpa using hk), ih]

/-- The packets behind the tables of a connection. -/
theorem Follows.table_of_mem {sent acks : List Frame}
    (h : Follows throughputAggrMs d t (sent.map .sent ++ acks.map .ack))
    {en : ConnectionMapKey × TracedConnection} (hen : en ∈ d.conns.entries) :
    ∃ ps, PacketSizeVectors.Registered throughputAggrMs d.firstSentTime (t.table en.1) ps ∧
      (ps.map SizedPacket.view).Sublist ((Dump.sentOf en.1 sent).map Frame.view) ∧
      CountedBy en.2.toConnection ps := by
  obtain ⟨ps, hps⟩ := h.tables en.1
  refine ⟨ps, ?_, ?_, hps.counted _ (OrdMap.find?_eq_some_iff.mpr hen)⟩
  · rcases hps.table with ⟨hnew, rfl⟩ | ⟨-, hreg⟩
    · rw [hnew]
      exact PacketSizeVectors.registered_nil
    · exact hreg
  · rw [← filterMap_viewAt en.1 sent acks]
    exact hps.frames

/-- The tables do not disturb a run over a capture in time order, and those of a connection hold
packets of its own in that order: the ones that its counters have counted. -/
theorem analyseSender_tables (throughputAggrMs : ℕ) {sent acks : List Frame}
    (hts : ∀ f ∈ sent, f.ts.Captured)
    (horder : sent.Pairwise fun f g => f.ts.getUsecs ≤ g.ts.getUsecs)
    (h : Dump.analyseSender nat sent acks = .ok d) :
    ∃ t, analyseSender throughputAggrMs nat sent acks = .ok t ∧ t.dump = d ∧
      ∀ en ∈ d.conns.entries, ∃ ps,
        PacketSizeVectors.Registered throughputAggrMs d.firstSentTime (t.table en.1) ps ∧
          (ps.map SizedPacket.view).Sublist ((Dump.sentOf en.1 sent).map Frame.view) ∧
          CountedBy en.2.toConnection ps := by
  obtain ⟨t, ht, hfollows⟩ := exists_follows throughputAggrMs hts horder h
  exact ⟨t, ht, hfollows.dump, fun en hen => hfollows.table_of_mem hen⟩

/-- Two senders, one of which resends its packet two seconds later. -/
def resentCapture : List Frame :=
  [Dump.shortFrame ⟨5, 0⟩ 1 9 0 0 0x10 10, Dump.shortFrame ⟨6, 0⟩ 2 9 0 0 0x10 20,
    Dump.shortFrame ⟨7, 0⟩ 1 9 0 0 0x10 10]

theorem resentCapture_timely : (∀ f ∈ resentCapture, f.ts.Captured) ∧
    resentCapture.Pairwise fun f g => f.ts.getUsecs ≤ g.ts.getUsecs := by
  constructor
  · intro f hf
    have hts : f.ts ∈ [(⟨5, 0⟩ : Timeval), ⟨6, 0⟩, ⟨7, 0⟩] := List.mem_map_of_mem hf
    have hall : ∀ ts ∈ [(⟨5, 0⟩ : Timeval), ⟨6, 0⟩, ⟨7, 0⟩], ts.Captured := by decide
    exact hall f.ts hts
  · simp [resentCapture, Dump.shortFrame, Timeval.getUsecs]

theorem analyseSender_tables_resent :
    ∃ d t, Dump.analyseSender {} resentCapture [] = .ok d ∧
      analyseSender 1000 {} resentCapture [] = .ok t ∧
      (d.conns.entries.map fun en => (t.table en.1).packetSizeGroups.map fun g => g.size.val) =
        [[1, 0, 1], [0, 1]] ∧
      t.dump = d ∧ ∀ en ∈ d.conns.entries, ∃ ps,
        PacketSizeVectors.Registered 1000 d.firstSentTime (t.table en.1) ps ∧
          (ps.map SizedPacket.view).Sublist ((Dump.sentOf en.1 resentCapture).map Frame.view) ∧
          CountedBy en.2.toConnection ps := by
  have hrun : (Dump.analyseSender {} resentCapture []).toOption.any (fun d =>
      (analyseSender 1000 {} resentCapture []).toOption.any fun t =>
        decide ((d.conns.entries.map fun en => (t.table en.1).packetSizeGroups.map
          fun g => g.size.val) = [[1, 0, 1], [0, 1]])) = true := by
    decide +kernel
  obtain ⟨d, hd, hrun⟩ := Run.exists_of_any_toOption hrun
  obtain ⟨t, ht, hsizes⟩ := Run.exists_of_any_toOption hrun
  obtain ⟨t', ht', htables⟩ :=
    analyseSender_tables 1000 resentCapture_timely.1 resentCapture_timely.2 hd
  obtain rfl := Except.ok.inj (ht.symm.trans ht')
  exact ⟨d, t, hd, ht, of_decide_eq_true hsizes, htables⟩

end ThroughputDump

end AnalyseTCP
