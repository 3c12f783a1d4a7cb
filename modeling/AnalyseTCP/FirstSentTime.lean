import AnalyseTCP.DumpTotals
import AnalyseTCP.AckTimes

/-!
# The time everything else is counted from

The files of latencies, sent times and throughput hold times relative to `first_sent_time`, which
`processSent` takes from the first packet it counts.  The times that are made relative are those in
`sent_tstamp_pcap`, and each of these is the capture time of a packet of its own connection.
-/

namespace AnalyseTCP

namespace RangeManager

/-! ## The times of a range -/

/-- The times of all transmissions of the range are in `T`. -/
def TimesIn (T : Timeval → Prop) (r : ByteRange) : Prop := ∀ t ∈ r.sentTstampPcap, T t.1

section Ranges

variable {T : Timeval → Prop} {r r' : ByteRange} {seg : DataSeg}

theorem TimesIn.congr (h : TimesIn T r) (hsame : r'.sentTstampPcap = r.sentTstampPcap) :
    TimesIn T r' := by
  unfold TimesIn
  rw [hsame]
  exact h

theorem TimesIn.recordSent (h : TimesIn T r) (hseg : T seg.tstampPcap) (rdb : Bool)
    (sentT : SentType) : TimesIn T (recordSent seg rdb sentT r) := by
  intro t ht
  have ht' : t ∈ r.sentTstampPcap ++ [(seg.tstampPcap, sentT)] := ht
  rcases List.mem_append.mp ht' with ht | ht
  · exact h t ht
  · rw [List.mem_singleton.mp ht]
    exact hseg

theorem updateByteCount_times (r : ByteRange) :
    Ensures (fun r' => r'.sentTstampPcap = r.sentTstampPcap) r.updateByteCount := by
  unfold ByteRange.updateByteCount
  split_ifs
  · exact .ok rfl
  · exact .error _

/-- The part that is split off takes a copy of the times. -/
theorem TimesIn.cut (h : TimesIn T r) (c stop : ℕ) :
    Ensures (fun parts => TimesIn T parts.1 ∧ TimesIn T parts.2) (r.splitEnd c stop) := by
  unfold ByteRange.splitEnd ByteRange.split
  refine (Ensures.trivial _).bind fun newBr _ => ?_
  refine (updateByteCount_times _).bind fun head hhead => ?_
  have htimes : TimesIn T head := h.congr hhead
  refine .ok ⟨htimes, fun t ht => ?_⟩
  obtain ⟨p, hp, rfl⟩ := List.mem_map.mp ht
  exact htimes p hp

theorem timesIn_blank (T : Timeval → Prop) (s e : ℕ) : TimesIn T (ByteRange.blank s e) :=
  fun _ ht => nomatch ht

theorem new_timesIn (T : Timeval → Prop) (s e : ℕ) : Ensures (TimesIn T) (ByteRange.new s e) := by
  unfold ByteRange.new
  refine (updateByteCount_times _).bind fun r hr => .ok ?_
  exact ((timesIn_blank T s e).congr hr).congr rfl

theorem TimesIn.recordSentFound (h : TimesIn T r) (hseg : T seg.tstampPcap) (level : ℕ)
    (rdb : Bool) : TimesIn T (recordSentFound seg level rdb r) := by
  have hcounts : TimesIn T (recordSentCounts seg level rdb r) :=
    (h.recordSent hseg rdb _).congr rfl
  exact hcounts.congr (recordSentFound_blind seg level rdb r fun _ _ => rfl)

theorem TimesIn.recordEmpty (h : TimesIn T r) (hseg : T seg.tstampPcap) (level : ℕ) (rdb : Bool) :
    TimesIn T (recordEmpty seg .sent level rdb r) := by
  unfold RangeManager.recordEmpty
  dsimp only
  split_ifs
  · apply TimesIn.recordSent _ hseg
    exact h
  · apply TimesIn.recordSent _ hseg
    exact h
  · exact h.recordSent hseg _ _

/-- A sent packet adds its own time to the ranges. -/
theorem rangeRule_timesIn (hseg : T seg.tstampPcap) : RangeRule .sent seg (TimesIn T) where
  fresh _ s e := by
    unfold newDataRange
    refine (new_timesIn T s e).bind fun r hr => ?_
    dsimp only
    split
    · exact .error _
    · refine .ok (TimesIn.congr ?_ (finSet_blind seg _ fun _ _ => rfl))
      apply TimesIn.recordSent _ hseg
      exact hr
  empty rdb q := by
    unfold newEmptyRange
    refine (new_timesIn T q q).bind fun r hr => .ok ?_
    apply TimesIn.recordSent _ hseg
    exact hr
  recordEmpty level rdb r h := h.recordEmpty hseg level rdb
  recordFound level rdb r h := h.recordSentFound hseg level rdb
  recordSplit level rdb r h := (h.recordSent hseg rdb _).congr rfl
  cut r c stop h := h.cut c stop
  finSet r h := h.congr (finSet_blind seg r fun _ _ => rfl)
  finIncrease r h := h.congr (finIncrease_blind seg r fun _ _ => rfl)
  synIncrease r h := h.congr (synIncrease_blind seg r fun _ _ => rfl)
  payloadSet r h := h
  reuse _ s upTo r h := by
    unfold reuseEmpty
    refine (updateByteCount_times _).bind fun r' hr' => .ok ?_
    apply TimesIn.recordSent _ hseg
    exact h.congr hr'
  kernelTime hne := nomatch hne

/-- An ACK adds no time. -/
theorem ackRule_timesIn (seg : DataSeg) : AckRule seg (TimesIn T) where
  exact b r h := h.congr (ackExact_blind seg r _ b (fun _ _ => rfl) (fun _ _ => rfl)
    (fun _ => rfl) (fun _ => rfl) fun _ _ => rfl)
  mark r h := by
    unfold markAcked
    split
    · exact h
    · exact h
  count r h := h
  part r h := h
  cut r c stop h := h.cut c stop

end Ranges

/-- Every range has its times in `T`. -/
def AllTimesIn (T : Timeval → Prop) (rm : RangeManager) : Prop :=
  ∀ en ∈ rm.ranges.entries, TimesIn T en.2

theorem AllTimesIn.mono {T T' : Timeval → Prop} {rm : RangeManager} (h : AllTimesIn T rm)
    (himp : ∀ t, T t → T' t) : AllTimesIn T' rm := fun en hen t ht => himp _ (h en hen t ht)

theorem insertSentRange_timesIn {T : Timeval → Prop} {rm rm' : RangeManager} {sd : SendData}
    (h : rm.insertSentRange sd = .ok rm') (htimes : AllTimesIn T rm)
    (hsd : T sd.data.tstampPcap) : AllTimesIn T rm' := by
  have hkept : Kept rm (TimesIn T) rm := ⟨rfl, rfl, htimes⟩
  exact (insertSentRange_kept (rangeRule_timesIn hsd) hkept rm' h).ranges

theorem processAck_timesIn {T : Timeval → Prop} {rm rm' : RangeManager} {seg : DataSeg} {ret : Bool}
    (h : rm.processAck seg = .ok (rm', ret)) (htimes : AllTimesIn T rm) : AllTimesIn T rm' :=
  (processAck_kept (ackRule_timesIn seg) htimes _ h).ranges

end RangeManager

/-! ## One frame on its connection -/

namespace Connection

theorem classify_tstampPcap (conn : Connection) (sd : SendData) :
    (conn.classify sd).2.data.tstampPcap = sd.data.tstampPcap := by
  unfold classify
  by_cases hzero : sd.data.payloadSize = 0
  · rw [if_pos hzero]
  rw [if_neg hzero]
  by_cases hnew : conn.lastLargestEndSeq < sd.data.endSeq
  · rw [if_pos hnew]
    unfold registerNewData
    dsimp only
    split <;> rfl
  · rw [if_neg hnew]
    rfl

/-- A sent packet brings its own capture time and no other. -/
theorem processSent_timesIn {T : Timeval → Prop} {conn conn' : Connection} {sd : SendData}
    (h : conn.processSent sd = .ok conn') (htimes : conn.rm.AllTimesIn T)
    (hsd : T sd.data.tstampPcap) : conn'.rm.AllTimesIn T := by
  unfold Connection.processSent at h
  rcases registerSent_cases conn sd with ⟨-, -, hout⟩ | ⟨c, d, hchecked, hout⟩
  · rw [hout] at h
    rw [← Except.ok.inj h]
    exact htimes
  · rw [hout] at h
    obtain ⟨rm, hrm, h⟩ := Run.exists_of_bind_ok h
    rw [← Except.ok.inj h]
    -- the check may move `firstSeq`, and nothing else of the manager
    have hc : c.rm.AllTimesIn T ∧ d.data.tstampPcap = sd.data.tstampPcap := by
      cases hchecked <;> exact ⟨htimes, rfl⟩
    refine RangeManager.insertSentRange_timesIn hrm ?_ ?_
    · rw [(classify_reference c d).1]
      exact hc.1
    · rw [classify_tstampPcap, hc.2]
      exact hsd

end Connection

namespace TracedConnection

theorem processSent_timesIn {T : Timeval → Prop} {conn conn' : TracedConnection} {f : Frame}
    {counted : Bool} (h : conn.processSent f = .ok (conn', counted)) (htimes : conn.rm.AllTimesIn T) :
    conn'.rm.AllTimesIn fun t => T t ∨ counted = true ∧ t = f.ts := by
  obtain ⟨seq, -, h⟩ := Run.exists_of_bind_ok h
  split_ifs at h
  · obtain ⟨rfl, rfl⟩ := Prod.mk.inj (Except.ok.inj h)
    exact htimes.mono fun t ht => .inl ht
  · obtain ⟨data, hdata, h⟩ := Run.exists_of_bind_ok h
    obtain ⟨sender, hsender, h⟩ := Run.exists_of_bind_ok h
    obtain ⟨rfl, rfl⟩ := Prod.mk.inj (Except.ok.inj h)
    have htime : data.tstampPcap = f.ts := by rw [f.parseTCPOptions_none hdata]; rfl
    refine Connection.processSent_timesIn (exists_of_liftAbort hsender)
      (htimes.mono fun t ht => .inl ht) ?_
    exact .inr ⟨rfl, htime⟩

theorem processAcks_timesIn {T : Timeval → Prop} {conn conn' : TracedConnection} {f : Frame}
    {counted : Bool} (h : conn.processAcks f = .ok (conn', counted)) (htimes : conn.rm.AllTimesIn T) :
    conn'.rm.AllTimesIn T := by
  obtain ⟨ack, -, h⟩ := Run.exists_of_bind_ok h
  split_ifs at h
  · obtain ⟨rfl, -⟩ := Prod.mk.inj (Except.ok.inj h)
    exact htimes
  · obtain ⟨seg, -, h⟩ := Run.exists_of_bind_ok h
    obtain ⟨⟨rm, ret⟩, hrm, h⟩ := Run.exists_of_bind_ok h
    have hkept := RangeManager.processAck_timesIn (exists_of_liftAbort hrm) htimes
    cases ret with
    | true =>
        obtain ⟨rfl, -⟩ := Prod.mk.inj (Except.ok.inj h)
        exact hkept
    | false =>
        obtain ⟨rfl, -⟩ := Prod.mk.inj (Except.ok.inj h)
        exact hkept

end TracedConnection

/-! ## The sender's passes -/

/-- A frame of the sender's file that was not captured at time 0. -/
def Captured.OfSender : Captured → Prop
  | .sent f => f.ts ≠ Timeval.zero
  | .ack _ => True
  | .recvd _ => False

/-- Sent packets come in the order of their capture times. -/
def Captured.InOrder (c c' : Captured) : Prop :=
  ∀ f g, c = .sent f → c' = .sent g → f.ts.getUsecs ≤ g.ts.getUsecs

namespace Dump

variable {nat : NatConfig}

/-- A time of the connection at `k`, which does not lie before `first_sent_time`. -/
def SentTime (d : Dump) (cs : List Captured) (k : ConnectionMapKey) (t : Timeval) : Prop :=
  ∃ f, .sent f ∈ cs ∧ f.connKey = k ∧ t = f.ts ∧ d.firstSentTime ≠ Timeval.zero ∧
    d.firstSentTime.getUsecs ≤ t.getUsecs

/-- All times are those of the packets in `cs`, and none lies before `first_sent_time`. -/
structure TimedBy (d : Dump) (cs : List Captured) : Prop where
  times : ∀ en ∈ d.conns.entries, en.2.rm.AllTimesIn (d.SentTime cs en.1)
  first : d.firstSentTime ≠ Timeval.zero → ∃ f, .sent f ∈ cs ∧ d.firstSentTime = f.ts

/-- `first_sent_time` after a frame: a sent packet that is counted sets it, if it is not set yet. -/
def firstAfter (first : Timeval) : Captured → Bool → Timeval
  | .sent f, true => if first = Timeval.zero then f.ts else first
  | _, _ => first

theorem count_firstSentTime (d : Dump) (c : Captured) (counted : Bool) :
    (if counted then d.count c else d).firstSentTime = firstAfter d.firstSentTime c counted := by
  cases counted with
  | false => cases c <;> rfl
  | true => cases c <;> rfl

theorem firstAfter_of_ne {first : Timeval} (hne : first ≠ Timeval.zero) (c : Captured)
    (counted : Bool) : firstAfter first c counted = first := by
  unfold firstAfter
  split
  · exact if_neg hne
  · rfl

/-- Once set, `first_sent_time` stays, and so do the times after it. -/
theorem SentTime.mono {d d' : Dump} {done : List Captured} {k : ConnectionMapKey} {t : Timeval}
    {c : Captured} {counted : Bool} (h : d.SentTime done k t)
    (hfirst : d'.firstSentTime = firstAfter d.firstSentTime c counted) :
    d'.SentTime (done ++ [c]) k t := by
  obtain ⟨f, hf, hkey, ht, hne, hle⟩ := h
  rw [firstAfter_of_ne hne] at hfirst
  refine ⟨f, List.mem_append_left _ hf, hkey, ht, ?_, ?_⟩
  · rw [hfirst]
    exact hne
  · rw [hfirst]
    exact hle

theorem TimedBy.first_concat {d d' : Dump} {done : List Captured} {c : Captured} {counted : Bool}
    (hinv : d.TimedBy done) (hfirst : d'.firstSentTime = firstAfter d.firstSentTime c counted)
    (hne : d'.firstSentTime ≠ Timeval.zero) :
    ∃ f, .sent f ∈ done ++ [c] ∧ d'.firstSentTime = f.ts := by
  by_cases hset : d.firstSentTime = Timeval.zero
  · rw [hset] at hfirst
    unfold firstAfter at hfirst
    split at hfirst
    · next f =>
      rw [if_pos rfl] at hfirst
      exact ⟨f, by simp, hfirst⟩
    · exact absurd hfirst hne
  · obtain ⟨f, hf, hts⟩ := hinv.first hset
    rw [firstAfter_of_ne hset] at hfirst
    exact ⟨f, List.mem_append_left _ hf, hfirst.trans hts⟩

/-- The packet that is counted now does not lie before `first_sent_time` either. -/
theorem TimedBy.sentTime_counted {d d' : Dump} {done : List Captured} {f : Frame}
    (hinv : d.TimedBy done) (hne : f.ts ≠ Timeval.zero)
    (horder : ∀ c' ∈ done, c'.InOrder (.sent f))
    (hfirst : d'.firstSentTime = firstAfter d.firstSentTime (.sent f) true) :
    d'.SentTime (done ++ [.sent f]) f.connKey f.ts := by
  by_cases hset : d.firstSentTime = Timeval.zero
  · have hnow : d'.firstSentTime = f.ts := hfirst.trans (if_pos hset)
    exact ⟨f, by simp, rfl, rfl, by rwa [hnow], by rw [hnow]⟩
  · rw [firstAfter_of_ne hset] at hfirst
    obtain ⟨g, hg, hts⟩ := hinv.first hset
    have hle : g.ts.getUsecs ≤ f.ts.getUsecs := horder _ hg g f rfl rfl
    exact ⟨f, by simp, rfl, rfl, by rwa [hfirst], by rwa [hfirst, hts]⟩

theorem step_timedBy {d d' : Dump} {done : List Captured} {c : Captured}
    (hinv : d.TimedBy done) (hsender : c.OfSender) (horder : ∀ c' ∈ done, c'.InOrder c)
    (h : step nat d c = .ok d') : d'.TimedBy (done ++ [c]) := by
  rcases step_cases nat h with ⟨-, rfl⟩ | ⟨tmpConn, conn, counted, hsome, hhandle, hd'⟩
  · have hfirst : d'.firstSentTime = firstAfter d'.firstSentTime c false := by
      cases c <;> rfl
    exact ⟨fun en hen => (hinv.times en hen).mono fun t ht => ht.mono hfirst,
      hinv.first_concat hfirst⟩
  have hfirst : d'.firstSentTime = firstAfter d.firstSentTime c counted := by
    rw [hd', count_firstSentTime]
    rfl
  have hconns : d'.conns = d.conns.put (keyOf nat c) conn := by
    rw [hd', count_conns]
    rfl
  refine ⟨fun en hen => ?_, hinv.first_concat hfirst⟩
  rw [hconns] at hen
  rcases OrdMap.mem_put_iff.mp hen with rfl | ⟨hen, -⟩
  · -- the connection before the frame: one of the map, or a new one without ranges
    have htmp : tmpConn.rm.AllTimesIn (d.SentTime done (keyOf nat c)) := by
      cases hfind : d.conns.find? (keyOf nat c) with
      | some conn₀ =>
          rw [hfind, Option.some_or] at hsome
          rw [← Option.some.inj hsome]
          exact hinv.times _ (OrdMap.find?_eq_some_iff.mp hfind)
      | none =>
          rw [hfind, Option.none_or] at hsome
          obtain ⟨seq, -, rfl⟩ := Option.map_eq_some_iff.mp hsome
          exact fun en hen => nomatch hen
    cases c with
    | sent f =>
        refine (TracedConnection.processSent_timesIn hhandle htmp).mono fun t ht => ?_
        rcases ht with ht | ⟨rfl, rfl⟩
        · exact ht.mono hfirst
        · exact hinv.sentTime_counted hsender horder hfirst
    | ack f =>
        exact (TracedConnection.processAcks_timesIn hhandle htmp).mono fun t ht => ht.mono hfirst
    | recvd f => exact hsender.elim
  · exact (hinv.times en hen).mono fun t ht => ht.mono hfirst

/-- The frames of `analyseSender`, when the sent packets are in order. -/
theorem pairwise_inOrder {sent : List Frame} (acks : List Frame)
    (horder : sent.Pairwise fun f g => f.ts.getUsecs ≤ g.ts.getUsecs) :
    (sent.map Captured.sent ++ acks.map Captured.ack).Pairwise Captured.InOrder := by
  refine List.pairwise_append.mpr ⟨?_, ?_, ?_⟩
  · refine List.pairwise_map.mpr (horder.imp fun {f g} hle f' g' hf hg => ?_)
    rw [← Captured.sent.inj hf, ← Captured.sent.inj hg]
    exact hle
  · refine List.pairwise_map.mpr (List.pairwise_of_forall fun f g f' _ hf => ?_)
    cases hf
  · intro c _ c' hc' f g _ hg
    obtain ⟨a, -, rfl⟩ := List.mem_map.mp hc'
    cases hg

/-- When the sender's capture is in order, every time that a connection holds is the capture time of
a packet of its own, and none is earlier than `first_sent_time`. -/
theorem analyseSender_times {sent acks : List Frame} {d : Dump}
    (hts : ∀ f ∈ sent, f.ts ≠ Timeval.zero)
    (horder : sent.Pairwise fun f g => f.ts.getUsecs ≤ g.ts.getUsecs)
    (h : analyseSender nat sent acks = .ok d) :
    ∀ en ∈ d.conns.entries, ∀ r ∈ en.2.rm.ranges.entries, ∀ t ∈ r.2.sentTstampPcap,
      (∃ f ∈ sent, f.connKey = en.1 ∧ t.1 = f.ts) ∧
        d.firstSentTime.getUsecs ≤ t.1.getUsecs := by
  have hsender : ∀ c ∈ sent.map Captured.sent ++ acks.map Captured.ack, c.OfSender := by
    intro c hc
    rcases List.mem_append.mp hc with hc | hc
    · obtain ⟨f, hf, rfl⟩ := List.mem_map.mp hc
      exact hts f hf
    · obtain ⟨f, -, rfl⟩ := List.mem_map.mp hc
      trivial
  have hnew : ({} : Dump).TimedBy [] := ⟨fun en hen => (nomatch hen), fun hne => absurd rfl hne⟩
  have hinv : d.TimedBy ([] ++ (sent.map Captured.sent ++ acks.map Captured.ack)) :=
    Run.invariant_after (I := fun d done => d.TimedBy done) (P := Captured.OfSender) (d := [])
      (fun _ _ _ _ hinv horder hsender hstep => step_timedBy hinv hsender horder hstep) hnew
      (Run.stepsAfter_of_pairwise (pairwise_inOrder acks horder)) hsender h
  intro en hen r hr t ht
  obtain ⟨f, hf, hkey, hft, -, hle⟩ := hinv.times en hen r hr t ht
  refine ⟨⟨f, ?_, hkey, hft⟩, hle⟩
  simpa using hf

/-- Packets of two senders, and an ACK. -/
theorem analyseSender_times_two :
    ∃ d, analyseSender {} [shortFrame ⟨5, 0⟩ 1 9 0 0 0x10 10, shortFrame ⟨6, 0⟩ 2 9 0 0 0x10 20]
        [shortFrame ⟨8, 0⟩ 9 1 0 10 0x10 0] = .ok d ∧
      d.firstSentTime = ⟨5, 0⟩ ∧
      ∀ en ∈ d.conns.entries, ∀ r ∈ en.2.rm.ranges.entries, ∀ t ∈ r.2.sentTstampPcap,
        (∃ f ∈ [shortFrame ⟨5, 0⟩ 1 9 0 0 0x10 10, shortFrame ⟨6, 0⟩ 2 9 0 0 0x10 20],
            f.connKey = en.1 ∧ t.1 = f.ts) ∧
          d.firstSentTime.getUsecs ≤ t.1.getUsecs := by
  have hrun : (analyseSender {} [shortFrame ⟨5, 0⟩ 1 9 0 0 0x10 10,
      shortFrame ⟨6, 0⟩ 2 9 0 0 0x10 20] [shortFrame ⟨8, 0⟩ 9 1 0 10 0x10 0]).toOption.any
        (fun d => d.firstSentTime == ⟨5, 0⟩) = true := by
    decide +kernel
  obtain ⟨d, hd, hfirst⟩ := Run.exists_of_any_toOption hrun
  refine ⟨d, hd, by simpa using hfirst, analyseSender_times ?_ ?_ hd⟩
  · simp [shortFrame, Timeval.zero]
  · simp [shortFrame, Timeval.getUsecs]

end Dump

end AnalyseTCP
