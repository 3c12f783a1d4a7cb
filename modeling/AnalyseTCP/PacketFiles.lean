import AnalyseTCP.ThroughputFiles

/-!
# The packet files

`writePacketByteCountAndITT` writes a row for each packet in the throughput tables of a connection,
bucket after bucket, with the time since the row before.  One bucket behind the other, the packets
of a capture are in its order, and the search for the first one ends within the tables, since the
packet that creates a connection is never ignored.
-/

namespace AnalyseTCP

/-! ## The writer -/

structure PacketRow where
  timestamp : ℤ
  itt : ℤ
  payloadSize : ℕ
  packetSize : ℕ
deriving DecidableEq, Repr

namespace PacketSizeVectors

/-- The loop over `k`, and the time of the packet it ends at.  Nothing stops it at the end of the
vector. -/
def firstTime : List (List PacketSize) → Except Abort ℤ
  | [] => .error .outOfRange
  | [] :: rest => firstTime rest
  | (p :: _) :: _ => .ok p.time.getUsecs

/-- The rows of packets behind one that was sent at `prev`. -/
def packetRows : ℤ → List PacketSize → List PacketRow
  | _, [] => []
  | prev, p :: rest =>
      { timestamp := p.time.getUsecs
        itt := (p.time.getUsecs - prev).tdiv 1000
        payloadSize := p.payloadSize
        packetSize := p.packetSize } :: packetRows p.time.getUsecs rest

/-- What `writePacketByteCountAndITT` writes to each of its streams. -/
def writePacketByteCountAndITT (v : PacketSizeVectors) : Except Abort (List PacketRow) := do
  let prev ← firstTime v.packetSizes
  return packetRows prev v.packetSizes.flatten

end PacketSizeVectors

/-- `writePacketByteCountAndITT`, through `writeStatisticsFiles`: a stream for each connection, and
the aggregated one, which all connections write to. -/
def ThroughputDump.writePacketByteCountAndITT (t : ThroughputDump) (aggregate aggOnly : Bool) :
    Except Abort (List (String × List PacketRow)) := do
  let files ← t.dump.conns.entries.mapM fun en => do
    let rows ← (t.table en.1).writePacketByteCountAndITT
    return (en.1.text, rows)
  return (if aggOnly then [] else files) ++
    if aggregate then [("aggr", files.flatMap Prod.snd)] else []

/-! ## The rows -/

/-- The rows of `ps`: the packets in their order, each with the whole milliseconds since the one
before. -/
structure PacketFile (rows : List PacketRow) (ps : List SizedPacket) : Prop where
  timestamps : rows.map PacketRow.timestamp = ps.map fun p => p.ts.getUsecs
  sizes : rows.map (fun r => (r.payloadSize, r.packetSize)) =
    ps.map fun p => (p.payloadSize, p.ps % 2 ^ 16)
  itts : rows.map PacketRow.itt =
    0 :: List.zipWith (fun p q => (q.ts.getUsecs - p.ts.getUsecs) / 1000) ps ps.tail

/-- Milliseconds keep the order of microseconds. -/
theorem tvToMs_le {tv tv' : Timeval} (h : tv.Captured) (h' : tv'.Captured)
    (hle : tv.getUsecs ≤ tv'.getUsecs) : tvToMs tv ≤ tvToMs tv' := by
  obtain ⟨-, -, husec, hbelow⟩ := h
  obtain ⟨-, -, husec', hbelow'⟩ := h'
  unfold Timeval.getUsecs at hle
  rw [tvToMs_of_nonneg husec, tvToMs_of_nonneg husec']
  omega

namespace PacketSizeVectors

theorem firstTime_eq {l : List (List PacketSize)} {p : PacketSize} {rest : List PacketSize}
    (h : l.flatten = p :: rest) : firstTime l = .ok p.time.getUsecs := by
  induction l with
  | nil => cases h
  | cons bucket l ih =>
      cases bucket with
      | nil => exact ih h
      | cons q bucket =>
          rw [List.flatten_cons, List.cons_append] at h
          rw [← (List.cons.inj h).1]
          rfl

theorem packetRows_times (prev : ℤ) (l : List SizedPacket) :
    (packetRows prev (l.map SizedPacket.pSize)).map PacketRow.timestamp =
        l.map (fun p => p.ts.getUsecs) ∧
      (packetRows prev (l.map SizedPacket.pSize)).map (fun r => (r.payloadSize, r.packetSize)) =
        l.map fun p => (p.payloadSize, p.ps % 2 ^ 16) := by
  induction l generalizing prev with
  | nil => exact ⟨rfl, rfl⟩
  | cons p l ih =>
      obtain ⟨htimes, hsizes⟩ := ih p.pSize.time.getUsecs
      rw [List.map_cons, packetRows, List.map_cons, List.map_cons, List.map_cons, List.map_cons,
        htimes, hsizes]
      exact ⟨rfl, rfl⟩

theorem packetRows_itt {q : SizedPacket} {l : List SizedPacket}
    (h : (q :: l).Pairwise fun p p' => p.ts.getUsecs ≤ p'.ts.getUsecs) :
    (packetRows q.ts.getUsecs (l.map SizedPacket.pSize)).map PacketRow.itt =
      List.zipWith (fun p q => (q.ts.getUsecs - p.ts.getUsecs) / 1000) (q :: l) l := by
  induction l generalizing q with
  | nil => rfl
  | cons p l ih =>
      obtain ⟨hq, hl⟩ := List.pairwise_cons.mp h
      have hle : q.ts.getUsecs ≤ p.ts.getUsecs := hq p List.mem_cons_self
      rw [List.map_cons, packetRows, List.map_cons, List.zipWith_cons_cons, ← ih hl]
      congr 1
      exact Int.tdiv_eq_ediv_of_nonneg (sub_nonneg.mpr hle)

/-- The rows of packets in the order of their times. -/
theorem packetFile {q : SizedPacket} {l : List SizedPacket}
    (h : (q :: l).Pairwise fun p p' => p.ts.getUsecs ≤ p'.ts.getUsecs) :
    PacketFile (packetRows q.ts.getUsecs ((q :: l).map SizedPacket.pSize)) (q :: l) := by
  obtain ⟨htimes, hsizes⟩ := packetRows_times q.ts.getUsecs (q :: l)
  refine ⟨htimes, hsizes, ?_⟩
  rw [List.map_cons, packetRows, List.map_cons, List.tail_cons, ← packetRows_itt h]
  congr 1
  show (q.ts.getUsecs - q.ts.getUsecs).tdiv 1000 = 0
  rw [sub_self, Int.zero_tdiv]

variable {throughputAggrMs : ℕ} {first : Timeval} {v : PacketSizeVectors} {ps : List SizedPacket}

/-- There are as many packets in the buckets as were registered. -/
theorem Registered.length_flatten (h : Registered throughputAggrMs first v ps) :
    v.packetSizes.flatten.length = ps.length := by
  have hcount := h.totals (fun g => g.packetSizes.length) (fun _ => 1) rfl fun g p =>
    List.length_append
  have hbeside : ∀ k, (v.packetSizes.getD k []).length =
      (v.packetSizeGroups.getD k {}).packetSizes.length := by
    intro k
    rw [h.beside]
  rw [List.length_flatten, ← Buckets.sum_range_getD [] rfl v.packetSizes le_rfl,
    List.map_congr_left fun k _ => hbeside k,
    Buckets.sum_range_getD {} (π := fun g => g.packetSizes.length) rfl v.packetSizeGroups
      h.parallel.ge, hcount, Buckets.sum_map_one]

/-- The buckets of packets in the order of their times are these packets again. -/
theorem Registered.flatten (h : Registered throughputAggrMs first v ps)
    (horder : ps.Pairwise fun p p' => p.ts.getUsecs ≤ p'.ts.getUsecs)
    (hcaptured : ∀ p ∈ ps, p.ts.Captured) : v.packetSizes.flatten = ps.map SizedPacket.pSize := by
  refine Buckets.flatten_of_sorted
    (b := fun p : SizedPacket => (tvToMs p.ts - tvToMs first) / throughputAggrMs) ?_ h.counted
    h.length_flatten
  apply horder.imp_of_mem
  intro p p' hp hp' hle
  have hms := tvToMs_le (hcaptured p hp) (hcaptured p' hp') hle
  rcases Nat.eq_zero_or_pos throughputAggrMs with rfl | hpos
  · rw [Nat.cast_zero, Int.ediv_zero, Int.ediv_zero]
  · exact Int.ediv_le_ediv (by omega) (by omega)

end PacketSizeVectors

/-! ## No connection without packets -/

/-- A connection can unwrap the number it was created with. -/
theorem TracedConnection.getRelativeSequenceNumber_new {seq r : ℕ}
    (h : (TracedConnection.new seq).getRelativeSequenceNumber seq .sendOut = .ok r) :
    r ≠ ulongMax := by
  have hend : ∃ wrapIndex, relativeFromWrapIndex seq seq wrapIndex = .ok r := by
    change AnalyseTCP.getRelativeSequenceNumber seq seq 0 seq = .ok r at h
    unfold AnalyseTCP.getRelativeSequenceNumber at h
    dsimp only at h
    rw [if_neg (lt_irrefl seq)] at h
    split at h
    · exact ⟨_, h⟩
    · exact ⟨_, h⟩
  obtain ⟨wrapIndex, hend⟩ := hend
  have hlimit := (relativeFromWrapIndex_congr hend).1
  unfold ulongMax
  omega

theorem Connection.sizedPacket_of_open {conn : Connection} (sd : SendData)
    (hopen : conn.closed = false) : ∃ p, conn.sizedPacket sd = some p := by
  unfold Connection.sizedPacket
  rcases registerSent_cases conn sd with ⟨-, hclosed, -⟩ | ⟨c, d, -, hout⟩
  · rw [hopen] at hclosed
    cases hclosed
  · rw [hout]
    exact ⟨_, rfl⟩

/-- The packet that creates a connection is not ignored. -/
theorem TracedConnection.sizedPacket_new {f : Frame} {packet : Option SizedPacket}
    (h : (TracedConnection.new f.thSeq).sizedPacket f = .ok packet) : ∃ p, packet = some p := by
  unfold sizedPacket at h
  obtain ⟨seq, hseq, h⟩ := Run.exists_of_bind_ok h
  have hne : seq ≠ ulongMax := getRelativeSequenceNumber_new (exists_of_liftAbort hseq)
  split_ifs at h
  obtain ⟨data, -, h⟩ := Run.exists_of_bind_ok h
  rw [← Except.ok.inj h]
  exact Connection.sizedPacket_of_open _ rfl

namespace Dump

variable {nat : NatConfig} {d d' : Dump} {c : Captured}

/-- The counters of every connection are those of some packets. -/
def Registers (d : Dump) : Prop :=
  ∀ k conn, d.conns.find? k = some conn → ∃ ps, ps ≠ [] ∧ CountedBy conn.toConnection ps

theorem handle_counted {conn conn' : TracedConnection} {counted : Bool} {ps : List SizedPacket}
    (hc : c.OfSender) (h : handle conn c = .ok (conn', counted))
    (hps : CountedBy conn.toConnection ps) (hne : ps ≠ []) :
    ∃ ps', ps' ≠ [] ∧ CountedBy conn'.toConnection ps' := by
  cases c with
  | sent f =>
      obtain ⟨packet, -, hcounted, -⟩ := TracedConnection.processSent_counted h hps
      exact ⟨_, List.append_ne_nil_of_left_ne_nil hne _, hcounted⟩
  | ack f => exact ⟨ps, hne, TracedConnection.processAcks_counted h hps⟩
  | recvd f => exact hc.elim

theorem step_registers (hinv : d.Registers) (hc : c.OfSender) (hstep : d.step nat c = .ok d') :
    d'.Registers := by
  rcases step_cases nat hstep with ⟨-, rfl⟩ | ⟨tmpConn, conn, counted, hsome, hhandle, hd'⟩
  · exact hinv
  have hconns : d'.conns = d.conns.put (keyOf nat c) conn := by
    rw [hd', count_conns]
    rfl
  intro k conn' hfind
  rw [hconns, OrdMap.find?_put] at hfind
  split at hfind
  · rw [← Option.some.inj hfind]
    cases hold : d.conns.find? (keyOf nat c) with
    | some old =>
        rw [hold, Option.some_or] at hsome
        obtain rfl := Option.some.inj hsome
        obtain ⟨ps, hne, hps⟩ := hinv _ _ hold
        exact handle_counted hc hhandle hps hne
    | none =>
        -- a new connection, with the packet that created it
        rw [hold, Option.none_or] at hsome
        cases c with
        | sent f =>
            obtain rfl := Option.some.inj hsome
            obtain ⟨packet, hpacket, hcounted, -⟩ :=
              TracedConnection.processSent_counted hhandle (countedBy_new f.thSeq)
            obtain ⟨p, rfl⟩ := TracedConnection.sizedPacket_new hpacket
            exact ⟨_, List.cons_ne_nil p [], hcounted⟩
        | ack f => cases hsome
        | recvd f => cases hsome
  · exact hinv k conn' hfind

theorem analyseSender_registers {sent acks : List Frame} (hts : ∀ f ∈ sent, f.ts.Captured)
    (h : analyseSender nat sent acks = .ok d) : d.Registers := by
  have hsender : ∀ c ∈ sent.map Captured.sent ++ acks.map Captured.ack, c.OfSender :=
    fun c hc => (Captured.stamped_of_files acks hts c hc).ofSender
  exact Run.invariant (I := fun d _ => d.Registers) (d := [])
    (fun _ _ _ _ hinv hok hstep => step_registers hinv hok.2 hstep)
    (fun _ _ hfind => nomatch hfind) ((Run.steps_true _ _).and_forall hsender) h

end Dump

/-- The counters say how many packets there are. -/
theorem CountedBy.length_eq {conn : Connection} {ps ps' : List SizedPacket} (h : CountedBy conn ps)
    (h' : CountedBy conn ps') : ps.length = ps'.length := by
  have hps := h.packets
  have hps' := h'.packets
  omega

namespace PacketSizeVectors

/-- The rows of a connection that has registered packets. -/
theorem Registered.writes {throughputAggrMs : ℕ} {first : Timeval} {v : PacketSizeVectors}
    {ps : List SizedPacket} (h : Registered throughputAggrMs first v ps) (hne : ps ≠ [])
    (horder : ps.Pairwise fun p p' => p.ts.getUsecs ≤ p'.ts.getUsecs)
    (hcaptured : ∀ p ∈ ps, p.ts.Captured) :
    ∃ rows, v.writePacketByteCountAndITT = .ok rows ∧ PacketFile rows ps := by
  have hflatten := h.flatten horder hcaptured
  cases ps with
  | nil => exact absurd rfl hne
  | cons q l =>
      refine ⟨_, ?_, packetFile horder⟩
      unfold writePacketByteCountAndITT
      rw [firstTime_eq hflatten, Run.ok_bind, hflatten]
      rfl

end PacketSizeVectors

/-- Packets of a capture have its times, in its order. -/
theorem timely_of_sublist {sent : List Frame} {k : ConnectionMapKey} {ps : List SizedPacket}
    (hts : ∀ f ∈ sent, f.ts.Captured)
    (horder : sent.Pairwise fun f g => f.ts.getUsecs ≤ g.ts.getUsecs)
    (hsub : (ps.map SizedPacket.view).Sublist ((Dump.sentOf k sent).map Frame.view)) :
    (∀ p ∈ ps, p.ts.Captured) ∧ ps.Pairwise fun p p' => p.ts.getUsecs ≤ p'.ts.getUsecs := by
  constructor
  · intro p hp
    obtain ⟨f, hf, hview⟩ := List.mem_map.mp (hsub.subset (List.mem_map_of_mem hp))
    have hsame : f.ts = p.ts := congrArg Prod.fst hview
    rw [← hsame]
    exact hts f (List.mem_of_mem_filter hf)
  · have hframes : ((Dump.sentOf k sent).map Frame.view).Pairwise
        fun b b' => b.1.getUsecs ≤ b'.1.getUsecs :=
      List.pairwise_map.mpr (horder.sublist List.filter_sublist)
    have hviews : (ps.map SizedPacket.view).Pairwise fun b b' => b.1.getUsecs ≤ b'.1.getUsecs :=
      hframes.sublist hsub
    rw [List.pairwise_map] at hviews
    exact hviews

namespace ThroughputDump

/-- The files of a capture in time order: that of a connection has a row for each of the packets
that its counters have counted, and the aggregated one has the rows of all connections. -/
theorem writePacketByteCountAndITT_files {nat : NatConfig} {d : Dump} (throughputAggrMs : ℕ)
    (aggregate aggOnly : Bool) {sent acks : List Frame} (hts : ∀ f ∈ sent, f.ts.Captured)
    (horder : sent.Pairwise fun f g => f.ts.getUsecs ≤ g.ts.getUsecs)
    (h : Dump.analyseSender nat sent acks = .ok d) :
    ∃ (t : ThroughputDump) (ps : ConnectionMapKey × TracedConnection → List SizedPacket)
        (rows : ConnectionMapKey × TracedConnection → List PacketRow),
      analyseSender throughputAggrMs nat sent acks = .ok t ∧
      t.writePacketByteCountAndITT aggregate aggOnly =
        .ok ((if aggOnly then [] else d.conns.entries.map fun en => (en.1.text, rows en)) ++
          if aggregate then [("aggr", d.conns.entries.flatMap rows)] else []) ∧
      ∀ en ∈ d.conns.entries, ps en ≠ [] ∧
        ((ps en).map SizedPacket.view).Sublist ((Dump.sentOf en.1 sent).map Frame.view) ∧
          CountedBy en.2.toConnection (ps en) ∧ PacketFile (rows en) (ps en) := by
  obtain ⟨t, ht, hfollows⟩ := exists_follows throughputAggrMs hts horder h
  have htables := fun en (hen : en ∈ d.conns.entries) => hfollows.table_of_mem hen
  choose! ps hreg hsub hcounted using htables
  have hne : ∀ en ∈ d.conns.entries, ps en ≠ [] := by
    intro en hen
    obtain ⟨ps', hne, hps'⟩ :=
      Dump.analyseSender_registers hts h _ _ (OrdMap.find?_eq_some_iff.mpr hen)
    apply List.ne_nil_of_length_pos
    rw [(hcounted en hen).length_eq hps']
    exact List.length_pos_iff.mpr hne
  have hwrites : ∀ en ∈ d.conns.entries, ∃ rows,
      (t.table en.1).writePacketByteCountAndITT = .ok rows ∧ PacketFile rows (ps en) := by
    intro en hen
    obtain ⟨hcaptured, hordered⟩ := timely_of_sublist hts horder (hsub en hen)
    exact (hreg en hen).writes (hne en hen) hordered hcaptured
  choose! rows hwritten hfile using hwrites
  refine ⟨t, ps, rows, ht, ?_,
    fun en hen => ⟨hne en hen, hsub en hen, hcounted en hen, hfile en hen⟩⟩
  have hfiles : (d.conns.entries.mapM fun en => do
      let rows ← (t.table en.1).writePacketByteCountAndITT
      return (en.1.text, rows) : Except Abort (List (String × List PacketRow))) =
        .ok (d.conns.entries.map fun en => (en.1.text, rows en)) := by
    rw [Run.mapM_eq_ok_iff, List.forall₂_map_right_iff, List.forall₂_same]
    intro en hen
    rw [hwritten en hen]
    rfl
  unfold writePacketByteCountAndITT
  rw [hfollows.dump, hfiles, Run.ok_bind, List.flatMap_map]
  rfl

theorem writePacketByteCountAndITT_files_resent :
    ∃ (d : Dump) (t : ThroughputDump) (ps : ConnectionMapKey × TracedConnection → List SizedPacket)
        (rows : ConnectionMapKey × TracedConnection → List PacketRow),
      Dump.analyseSender {} resentCapture [] = .ok d ∧
      (d.conns.entries.flatMap rows).map (fun r => (r.timestamp, r.itt, r.payloadSize)) =
        [(5000000, 0, 10), (7000000, 2000, 10), (6000000, 0, 20)] ∧
      analyseSender 1000 {} resentCapture [] = .ok t ∧
      t.writePacketByteCountAndITT true false =
        .ok ((if false then [] else d.conns.entries.map fun en => (en.1.text, rows en)) ++
          if true then [("aggr", d.conns.entries.flatMap rows)] else []) ∧
      ∀ en ∈ d.conns.entries, ps en ≠ [] ∧
        ((ps en).map SizedPacket.view).Sublist ((Dump.sentOf en.1 resentCapture).map Frame.view) ∧
          CountedBy en.2.toConnection (ps en) ∧ PacketFile (rows en) (ps en) := by
  have hrun : (Dump.analyseSender {} resentCapture []).toOption.any (fun _ =>
      (analyseSender 1000 {} resentCapture []).toOption.any fun t =>
        (t.writePacketByteCountAndITT true false).toOption.any fun files =>
          decide (files.getLast?.map (fun file =>
            file.2.map fun r => (r.timestamp, r.itt, r.payloadSize)) =
              some [(5000000, 0, 10), (7000000, 2000, 10), (6000000, 0, 20)])) = true := by
    decide +kernel
  obtain ⟨d, hd, hrun⟩ := Run.exists_of_any_toOption hrun
  obtain ⟨t, ht, hrun⟩ := Run.exists_of_any_toOption hrun
  obtain ⟨files, hwrites, hrows⟩ := Run.exists_of_any_toOption hrun
  obtain ⟨t', ps, rows, ht', hwritten, hfiles⟩ := writePacketByteCountAndITT_files 1000 true false
    resentCapture_timely.1 resentCapture_timely.2 hd
  obtain rfl := Except.ok.inj (ht.symm.trans ht')
  have hlast := of_decide_eq_true hrows
  rw [← Except.ok.inj (hwritten.symm.trans hwrites), if_pos rfl, List.getLast?_concat,
    Option.map_some] at hlast
  exact ⟨d, t, ps, rows, hd, Option.some.inj hlast, ht, hwritten, hfiles⟩

end ThroughputDump

end AnalyseTCP
