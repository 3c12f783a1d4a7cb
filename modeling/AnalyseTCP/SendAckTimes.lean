import AnalyseTCP.Traces
import AnalyseTCP.SentCounts

/-!
# Send-to-ACK latencies

`getSendAckTimeDiff` subtracts the first entry of `sent_tstamp_pcap` from the ACK time.  That entry is
the time of the data's first transmission, unless the range was made by a packet without payload and
took the data over later: then it is the time of that packet.
-/

namespace AnalyseTCP

namespace ByteRange

/-- The capture time that `getSendAckTimeDiff` measures from. -/
def firstTime (r : ByteRange) : Option Timeval := r.sentTstampPcap.head?.map Prod.fst

/-- `ackTime` minus the capture time `sent`. -/
def latency (r : ByteRange) (sent : Timeval) : ℤ := r.ackTime.getUsecs - sent.getUsecs

theorem signed32_emod_eq_iff {x : ℤ} (hx : 0 ≤ x) :
    signed32 (x % 2 ^ 32).toNat = x ↔ x < 2 ^ 31 := by
  unfold signed32
  split <;> omega

/-- The difference is returned as an `int`, so it must fit one; a negative one fails the assertion. -/
theorem getSendAckTimeDiff_eq_iff {r : ByteRange} {sent : Timeval} (hfirst : r.firstTime = some sent)
    (hsent : sent ≠ Timeval.zero) (hack : r.ackTime ≠ Timeval.zero) :
    r.getSendAckTimeDiff = .ok (r.latency sent) ↔ 0 ≤ r.latency sent ∧ r.latency sent < 2 ^ 31 := by
  unfold firstTime at hfirst
  unfold getSendAckTimeDiff
  cases hsents : r.sentTstampPcap with
  | nil =>
      rw [hsents] at hfirst
      cases hfirst
  | cons p ps =>
      rw [hsents] at hfirst
      obtain rfl : p.1 = sent := Option.some.inj hfirst
      dsimp only
      rw [if_neg hsent, if_neg hack, Timeval.getUsecs_sub]
      change (if r.latency p.1 < 0 then _ else _) = _ ↔ _
      by_cases hneg : r.latency p.1 < 0
      · rw [if_pos hneg]
        exact ⟨fun h => (nomatch h), fun h => absurd h.1 (not_le.mpr hneg)⟩
      · have hle : 0 ≤ r.latency p.1 := not_lt.mp hneg
        rw [if_neg hneg, Except.ok.injEq, ← signed32_emod_eq_iff hle]
        exact ⟨fun h => ⟨hle, h⟩, fun h => h.2⟩

end ByteRange

/-! ## The packets that carry a byte -/

namespace SendData

def carries (b : ℕ) (sd : SendData) : Bool := decide (sd.data.seq ≤ b ∧ b < sd.data.endSeq)

/-- The packet carries at least one byte of the range. -/
def carriesSome (r : ByteRange) (sd : SendData) : Bool :=
  decide (max sd.data.seq r.startSeq < min sd.data.endSeq r.endSeq)

theorem carries_iff {b : ℕ} {sd : SendData} :
    carries b sd = true ↔ sd.data.seq ≤ b ∧ b < sd.data.endSeq := decide_eq_true_iff

theorem carriesSome_iff {r : ByteRange} {sd : SendData} :
    carriesSome r sd = true ↔ ∃ b, r.Holds b ∧ carries b sd = true := by
  unfold carriesSome ByteRange.Holds
  simp only [decide_eq_true_iff, carries_iff]
  constructor
  · intro h
    exact ⟨max sd.data.seq r.startSeq, by omega, by omega⟩
  · rintro ⟨b, hb, hsd⟩
    omega

end SendData

namespace RangeManager

open SendData

/-- When every byte of a range was first carried at time `t`, so was the range. -/
theorem exists_find?_carriesSome {sds : List SendData} {r : ByteRange} {t : Timeval}
    (hbytes : r.startSeq < r.endSeq)
    (h : ∀ b, r.Holds b → ∃ sd, sds.find? (carries b) = some sd ∧ sd.data.tstampPcap = t) :
    ∃ sd, sds.find? (carriesSome r) = some sd ∧ sd.data.tstampPcap = t := by
  obtain ⟨sd₀, hsd₀, -⟩ := h r.startSeq ⟨le_rfl, hbytes⟩
  have hsome : (sds.find? (carriesSome r)).isSome = true := by
    rw [List.find?_isSome]
    have hcarries := List.find?_some hsd₀
    exact ⟨sd₀, List.mem_of_find?_eq_some hsd₀, carriesSome_iff.mpr ⟨_, ⟨le_rfl, hbytes⟩, hcarries⟩⟩
  obtain ⟨sd, hsd⟩ := Option.isSome_iff_exists.mp hsome
  refine ⟨sd, hsd, ?_⟩
  -- the first packet with any byte of the range is the first packet with that byte
  obtain ⟨hcarries, before, after, rfl, hnone⟩ := List.find?_eq_some_iff_append.mp hsd
  obtain ⟨b, hb, hsdb⟩ := carriesSome_iff.mp hcarries
  have hfind : (before ++ sd :: after).find? (carries b) = some sd := by
    refine List.find?_eq_some_iff_append.mpr ⟨hsdb, before, after, rfl, fun d hd => ?_⟩
    by_contra hdb
    have hd' : carriesSome r d = true := carriesSome_iff.mpr ⟨b, hb, by simpa using hdb⟩
    have := hnone d hd
    rw [hd'] at this
    cases this
  obtain ⟨sd', hsd', ht⟩ := h b hb
  obtain rfl := Option.some.inj (hfind.symm.trans hsd')
  exact ht

/-- Every byte of the range was first carried at the range's first time, and its ACK time is that of
an ACK. -/
structure Dated (sds : List SendData) (segs : List DataSeg) (r : ByteRange) : Prop where
  first : ∀ b, r.Holds b →
    ∃ sd, sds.find? (carries b) = some sd ∧ r.firstTime = some sd.data.tstampPcap
  acked : r.acked = true → ∃ seg ∈ segs, r.ackTime = seg.tstampPcap

section Dated

variable {sds : List SendData} {segs : List DataSeg} {r r' : ByteRange}

/-- A part of the range with the same history. -/
theorem Dated.part (h : Dated sds segs r) (hsub : ∀ b, r'.Holds b → r.Holds b)
    (hfirst : ∀ t, r.firstTime = some t → r'.firstTime = some t) (hacked : r'.acked = r.acked)
    (htime : r'.ackTime = r.ackTime) : Dated sds segs r' := by
  constructor
  · intro b hb
    obtain ⟨sd, hsd, ht⟩ := h.first b (hsub b hb)
    exact ⟨sd, hsd, hfirst _ ht⟩
  · rw [hacked, htime]
    exact h.acked

theorem Dated.congr (h : Dated sds segs r) (hstart : r'.startSeq = r.startSeq)
    (hend : r'.endSeq = r.endSeq) (hsent : r'.sentTstampPcap = r.sentTstampPcap)
    (hacked : r'.acked = r.acked) (htime : r'.ackTime = r.ackTime) : Dated sds segs r' := by
  refine h.part (fun b hb => ?_) (fun t ht => ?_) hacked htime
  · unfold ByteRange.Holds at *
    rwa [hstart, hend] at hb
  · unfold ByteRange.firstTime at *
    rwa [hsent]

theorem Dated.mono (h : Dated sds segs r) (sds' : List SendData) (segs' : List DataSeg) :
    Dated (sds ++ sds') (segs ++ segs') r := by
  constructor
  · intro b hb
    obtain ⟨sd, hsd, ht⟩ := h.first b hb
    refine ⟨sd, ?_, ht⟩
    rw [List.find?_append, hsd]
    rfl
  · intro hr
    obtain ⟨seg, hseg, ht⟩ := h.acked hr
    exact ⟨seg, List.mem_append_left _ hseg, ht⟩

/-- A range without bytes that no ACK has reached. -/
theorem dated_of_empty (hempty : r.endSeq = r.startSeq) (hacked : r.acked = false) :
    Dated sds segs r := by
  constructor
  · intro b hb
    unfold ByteRange.Holds at hb
    omega
  · intro h
    rw [hacked] at h
    cases h

variable (seg : DataSeg) (level : ℕ) (rdb : Bool)

theorem firstTime_recordSent (sentT : SentType) (r : ByteRange) :
    (recordSent seg rdb sentT r).firstTime = r.firstTime.or (some seg.tstampPcap) := by
  show ((r.sentTstampPcap ++ [(seg.tstampPcap, sentT)]).head?).map Prod.fst = _
  rw [List.head?_append]
  unfold ByteRange.firstTime
  cases r.sentTstampPcap.head? <;> rfl

theorem Dated.recordSent (h : Dated sds segs r) (sentT : SentType) :
    Dated sds segs (recordSent seg rdb sentT r) := by
  refine h.part (fun b hb => hb) (fun t ht => ?_) rfl rfl
  rw [firstTime_recordSent, ht]
  rfl

theorem Dated.recordSentFound (h : Dated sds segs r) :
    Dated sds segs (recordSentFound seg level rdb r) := by
  have hcounts : Dated sds segs (recordSentCounts seg level rdb r) :=
    (h.recordSent seg rdb (foundType seg level)).congr rfl rfl rfl rfl rfl
  refine hcounts.congr ?_ ?_ ?_ ?_ ?_ <;>
    exact recordSentFound_blind seg level rdb r fun _ _ => rfl

theorem Dated.recordSentSplit (h : Dated sds segs r) :
    Dated sds segs (recordSentSplit seg level rdb r) := by
  have hsent := h.recordSent seg rdb (if level = 0 then .rtr else .none)
  exact hsent.congr rfl rfl rfl rfl rfl

theorem Dated.finSet (h : Dated sds segs r) : Dated sds segs (finSet seg r) := by
  refine h.congr ?_ ?_ ?_ ?_ ?_ <;> exact finSet_blind seg r fun _ _ => rfl

theorem Dated.wholeRange (h : Dated sds segs r) (s : ℕ) :
    Dated sds segs (wholeRange .sent seg level s r) := by
  have hfound : Dated sds segs (recordFound seg level (thisIsRdbData seg s) .sent r) :=
    h.recordSentFound seg level _
  refine hfound.congr ?_ ?_ ?_ ?_ ?_ <;> exact wholeRange_blind .sent seg level s r fun _ _ => rfl

theorem Dated.head (h : Dated sds segs r) {c : ℕ} (hc : c ≤ r.endSeq) :
    Dated sds segs (r.head c) := by
  refine h.part (fun b hb => ?_) (fun t ht => ht) rfl rfl
  exact ⟨hb.1, hb.2.trans_le hc⟩

theorem Dated.tail (h : Dated sds segs r) {c : ℕ} (hc : r.startSeq ≤ c) :
    Dated sds segs (r.tail c) := by
  refine h.part (fun b hb => ?_) (fun t ht => ?_) rfl rfl
  · exact ⟨hc.trans hb.1, hb.2⟩
  · unfold ByteRange.firstTime at *
    show ((r.sentTstampPcap.map fun p => (p.1, SentType.none)).head?).map Prod.fst = some t
    rw [List.head?_map, Option.map_map]
    exact ht

theorem Dated.recordEmpty (h : Dated sds segs r) :
    Dated sds segs (recordEmpty seg .sent 0 rdb r) := by
  unfold RangeManager.recordEmpty
  dsimp only
  split_ifs
  · have hmarked : Dated sds segs
        { r with syn := r.syn + seg.syn.toNat, fin := r.fin + seg.fin.toNat } :=
      h.congr rfl rfl rfl rfl rfl
    exact hmarked.recordSent seg rdb .rtr
  · have hmarked : Dated sds segs { r with rst := r.rst + 1 } := h.congr rfl rfl rfl rfl rfl
    exact hmarked.recordSent seg rdb .rst
  · exact h.recordSent seg rdb .pureAck

end Dated

/-! ## ACKs -/

section Acks

variable {sds : List SendData} {segs : List DataSeg} {seg : DataSeg} {r r' : ByteRange}

/-- The range keeps its ACK time, or takes that of the ACK. -/
theorem Dated.ack (h : Dated sds segs r) (hseg : seg ∈ segs) (hstart : r'.startSeq = r.startSeq)
    (hend : r'.endSeq = r.endSeq) (hsent : r'.sentTstampPcap = r.sentTstampPcap)
    (htimes : (r'.acked, r'.ackTime) = (r.acked, r.ackTime) ∨ r'.ackTime = seg.tstampPcap) :
    Dated sds segs r' := by
  rcases htimes with htimes | htime
  · obtain ⟨hacked, htime⟩ := Prod.mk.inj htimes
    exact h.congr hstart hend hsent hacked htime
  · constructor
    · unfold ByteRange.Holds ByteRange.firstTime
      rw [hstart, hend, hsent]
      exact h.first
    · exact fun _ => ⟨seg, hseg, htime⟩

theorem ackExact_ackTime (seg : DataSeg) (b : Bool) (r : ByteRange) :
    ((ackExact seg b r).acked, (ackExact seg b r).ackTime) = (r.acked, r.ackTime) ∨
      (ackExact seg b r).ackTime = seg.tstampPcap := by
  let f : ByteRange → Bool × Timeval := fun r => (r.acked, r.ackTime)
  suffices f (ackExact seg b r) = f r ∨ f (ackExact seg b r) = (true, seg.tstampPcap) from
    this.imp_right fun h => (Prod.mk.inj h).2
  have hwin : ∀ (r : ByteRange) w, f { r with tcpWindow := w } = f r := fun _ _ => rfl
  have htime : ∀ r : ByteRange, f (r.insertAckTime seg.tstampPcap) = (true, seg.tstampPcap) :=
    fun _ => rfl
  have hsack : ∀ r : ByteRange, f (r.registerSacks seg) = f r := fun _ => rfl
  have hcount : ∀ (r : ByteRange) w, f { r with ackCount := r.ackCount + 1, tcpWindow := w } = f r :=
    fun _ _ => rfl
  unfold ackExact
  dsimp only
  rw [hcount, apply_ite f, hsack, ite_self]
  -- only a range that is not yet acknowledged gets a time, and that is the one of this ACK
  by_cases hacked : r.acked = true
  · left
    rw [if_neg (by rw [hacked]; decide)]
    cases b
    · rw [if_neg Bool.false_ne_true]
    · rw [if_pos rfl, apply_ite f]
      exact ite_self _
  · rw [if_pos (by simpa using hacked)]
    by_cases hbytes : r.byteCount = 0
    · rw [if_pos hbytes]
      split
      · exact .inl (hwin r seg.window)
      · split
        · exact .inl (hwin r seg.window)
        · exact .inr (htime _)
    · rw [if_neg hbytes]
      exact .inr (htime _)

theorem ackKeeps_dated (l : List Entry) (hseg : seg ∈ segs) :
    AckKeeps l seg fun en => Dated sds segs en.2 where
  exact _ r b h := by
    have hsent : (ackExact seg b r).sentTstampPcap = r.sentTstampPcap :=
      ackExact_blind seg r _ b (fun _ _ => rfl) (fun _ _ => rfl) (fun _ => rfl) (fun _ => rfl)
        fun _ _ => rfl
    exact h.ack hseg (ackExact_startSeq seg r b) (ackExact_endSeq seg r b) hsent
      (ackExact_ackTime seg b r)
  mark _ r h := by
    unfold markAcked
    split
    · exact h
    · exact h.ack hseg rfl rfl rfl (.inr rfl)
  count _ _ h := h.congr rfl rfl rfl rfl rfl
  part _ r _ _ hlo hhi h := by
    refine ⟨?_, fun _ => h.tail hlo.le⟩
    exact (h.head hhi.le).ack hseg rfl rfl rfl (.inr rfl)

/-- An ACK keeps the ranges apart and every byte held. -/
theorem ackStep_apart {rm rm' : RangeManager} (hinv : rm.Apart) (h : ackStep rm seg = .ok rm') :
    rm'.Apart ∧ ∀ b, Covered rm.ranges.entries b → Covered rm'.ranges.entries b := by
  obtain ⟨pre, rest', okey, hp⟩ := ackStep_processed hinv.1 hinv.2 h
  obtain ⟨hwf, hsep⟩ := hinv
  rw [hp.cut] at hwf hsep
  obtain ⟨hwfpre, hwfrest⟩ := wfEntries_append.mp hwf
  obtain ⟨hseppre, hseprest, hacross⟩ := separated_append.mp hsep
  have hsep' : Separated (pre ++ rest') := separated_append.mpr
    ⟨hseppre, hp.pass.separated hwfrest hseprest, fun a ha =>
      hp.pass.start_le hwfrest (hacross a ha)⟩
  refine ⟨⟨?_, ?_⟩, fun b hb => ?_⟩
  · rw [hp.entries]
    exact wfEntries_countAt (wfEntries_append.mpr ⟨hwfpre, hp.pass.wf hwfrest⟩)
  · rw [hp.entries]
    exact separated_countAt hsep'
  · rw [hp.cut, covered_append] at hb
    have hb' : Covered (pre ++ rest') b := covered_append.mpr (hb.imp_right hp.pass.covered)
    obtain ⟨en, hen, hhold⟩ := hb'
    rw [hp.entries]
    refine ⟨countAt okey en, List.mem_map_of_mem hen, ?_⟩
    unfold ByteRange.Holds
    rw [countAt_blind (fun en => en.2.startSeq) (fun _ _ => rfl),
      countAt_blind (fun en => en.2.endSeq) (fun _ _ => rfl)]
    exact hhold

end Acks

/-! ## Sent data -/

/-- Data from `s` up to `e` covers no number at which a range without bytes starts. -/
def AvoidsEmpty (l : List Entry) (s e : ℕ) : Prop :=
  ∀ o ∈ l, o.2.endSeq = o.2.startSeq → o.1 < s ∨ e ≤ o.1

instance (l : List Entry) (s e : ℕ) : Decidable (AvoidsEmpty l s e) :=
  inferInstanceAs (Decidable (∀ o ∈ l, _ → _))

/-- The entries after `sds`, and before the rest of `sd` from `s` on is inserted. -/
structure Dating (sds : List SendData) (segs : List DataSeg) (sd : SendData) (l : List Entry)
    (s : ℕ) : Prop where
  dated : ∀ en ∈ l, Dated (sds ++ [sd]) segs en.2
  covered : ∀ b, (∃ d ∈ sds, carries b d = true) ∨ (sd.data.seq ≤ b ∧ b < s) → Covered l b
  start : sd.data.seq ≤ s
  empties : AvoidsEmpty l sd.data.seq sd.data.endSeq

/-- A new range holds only bytes that no packet carried before. -/
theorem dated_freshRange {sds : List SendData} {segs : List DataSeg} {sd : SendData} {s : ℕ}
    (hs : sd.data.seq ≤ s)
    (hnew : ∀ b, s ≤ b → b < sd.data.endSeq → ∀ d ∈ sds, carries b d = false) :
    Dated (sds ++ [sd]) segs (freshRange sd.data s sd.data.endSeq) := by
  have hfirst : (freshRange sd.data s sd.data.endSeq).firstTime = some sd.data.tstampPcap := by
    unfold freshRange
    rw [finSet_blind sd.data _ (f := ByteRange.firstTime) fun _ _ => rfl, firstTime_recordSent]
    rfl
  constructor
  · intro b hb
    have hlo : s ≤ b := by simpa using hb.1
    have hhi : b < sd.data.endSeq := by simpa using hb.2
    refine ⟨sd, ?_, hfirst⟩
    have hnone : sds.find? (carries b) = none := by
      rw [List.find?_eq_none]
      intro d hd hdb
      rw [hnew b hlo hhi d hd] at hdb
      cases hdb
    have hsd : carries b sd = true := carries_iff.mpr ⟨hs.trans hlo, hhi⟩
    rw [List.find?_append, hnone, Option.none_or, List.find?_cons_of_pos hsd]
  · intro hacked
    have hfalse : (freshRange sd.data s sd.data.endSeq).acked = false :=
      finSet_blind sd.data _ fun _ _ => rfl
    rw [hfalse] at hacked
    cases hacked

section Pass

variable {sds : List SendData} {segs : List DataSeg} {sd : SendData} {lastSeq level s : ℕ}
  {pre post old new : List Entry} {next : Option ℕ}

/-- Where a new range is opened, none of its bytes is held. -/
theorem Pass.not_covered_of_fresh (hready : Ready lastSeq .sent sd.data.endSeq (pre ++ [] ++ post) s)
    (hpre : ∀ en ∈ pre, en.1 < s) (hpost : ∀ en ∈ post, s < en.1)
    (hgap : s < lastSeq → ∀ en ∈ pre ++ post, ¬en.2.Holds s) {b : ℕ} (hlo : s ≤ b)
    (hhi : b < sd.data.endSeq) : ¬Covered (pre ++ [] ++ post) b := by
  rintro ⟨en, hen, hhold⟩
  have hkey := (hready.wf en hen).1
  have hnot : ∀ o ∈ pre ++ post, ¬o.2.Holds s := by
    intro o ho hos
    have ho' : o ∈ pre ++ [] ++ post := by simpa using ho
    rcases lt_trichotomy o.1 s with hlt | heq | hgt
    · exact hgap (hready.inside o ho' hlt hos.2) o ho hos
    · rcases List.mem_append.mp ho with ho | ho
      · exact (hpre o ho).ne heq
      · exact (hpost o ho).ne' heq
    · have := (hready.wf o ho').1
      have := hos.1
      omega
  have hen' : en ∈ pre ++ post := by simpa using hen
  have hheld : ¬Held (pre ++ [] ++ post) s := by
    rintro ⟨o, ho, hos | hos⟩
    · have ho' : o ∈ pre ++ post := by simpa using ho
      rcases List.mem_append.mp ho' with ho' | ho'
      · exact (hpre o ho').ne hos
      · exact (hpost o ho').ne' hos
    · exact hnot o (by simpa using ho) hos
  have hhold' := hhold.1
  have hend := hhold.2
  -- a range that holds `b` starts at or before `s`, hence holds `s`, or was skipped over
  rcases hready.noSkip s le_rfl hready.lt (.inl rfl) hheld en hen with hle | hge
  · exact hnot en hen' ⟨by omega, by omega⟩
  · omega

theorem Pass.dated (hpass : Pass lastSeq .sent sd.data level s sd.data.endSeq pre post old new next)
    (hready : Ready lastSeq .sent sd.data.endSeq (pre ++ old ++ post) s)
    (hinv : Dating sds segs sd (pre ++ old ++ post) s) :
    ∀ en ∈ new, Dated (sds ++ [sd]) segs en.2 := by
  have hlt := hready.lt
  have hwf := (wfEntries_append.mp (wfEntries_append.mp hready.wf).1).2
  have hold : ∀ en ∈ old, Dated (sds ++ [sd]) segs en.2 := fun en hen =>
    hinv.dated en (by simp [hen])
  cases hpass with
  | missing hitype => cases hitype
  | fresh hitype hpre hpost hgap hsize =>
      rw [List.forall_mem_singleton]
      refine dated_freshRange hinv.start fun b hlo hhi d hd => ?_
      by_contra hdb
      have hcov := hinv.covered b (.inl ⟨d, hd, by simpa using hdb⟩)
      exact Pass.not_covered_of_fresh hready hpre hpost hgap hlo hhi hcov
  | reuse r c hitype hempty hlo hhi =>
      -- a range without bytes at `s`
      have hr : s = r.startSeq := (hwf (s, r) (by simp)).1
      have hstart := hinv.start
      rcases hinv.empties (s, r) (by simp) (hempty.trans hr) with h | h
      · have : s < sd.data.seq := h
        omega
      · have : sd.data.endSeq ≤ s := h
        omega
  | whole r hend =>
      rw [List.forall_mem_singleton]
      exact (hold (s, r) (by simp)).wholeRange sd.data level s
  | span r hbytes hend =>
      rw [List.forall_mem_singleton]
      exact (hold (s, r) (by simp)).recordSentFound sd.data level _
  | front r hend =>
      have hr : s = r.startSeq := (hwf (s, r) (by simp)).1
      have h := hold (s, r) (by simp)
      rw [List.forall_mem_cons, List.forall_mem_singleton]
      exact ⟨(h.head hend.le).recordSentFound sd.data level _, h.tail (hr ▸ hlt.le)⟩
  | back key r hkey hlo hend =>
      have hr : key = r.startSeq := (hwf (key, r) (by simp)).1
      have h := hold (key, r) (by simp)
      rw [List.forall_mem_cons, List.forall_mem_singleton]
      refine ⟨h.head hlo.le, ?_⟩
      exact ((h.tail (hr ▸ hkey.le)).finSet sd.data).recordSentSplit sd.data level _
  | middle key r hkey hend =>
      have hr : key = r.startSeq := (hwf (key, r) (by simp)).1
      have h := hold (key, r) (by simp)
      have htail := h.tail (hr ▸ hkey.le)
      rw [List.forall_mem_cons, List.forall_mem_cons, List.forall_mem_singleton]
      refine ⟨h.head (hlt.trans hend).le, ?_, htail.tail hlt.le⟩
      exact ((htail.head hend.le).finSet sd.data).recordSentSplit sd.data level _
  | beyond key r hkey hlo hend =>
      have hr : key = r.startSeq := (hwf (key, r) (by simp)).1
      have h := hold (key, r) (by simp)
      rw [List.forall_mem_cons, List.forall_mem_singleton]
      exact ⟨h.head hlo.le, (h.tail (hr ▸ hkey.le)).recordSentSplit sd.data level _⟩

end Pass

theorem passKeeps_dating {lastSeq : ℕ} {sds : List SendData} {segs : List DataSeg}
    {sd : SendData} :
    PassKeeps lastSeq .sent sd.data sd.data.endSeq (fun l s _ => Dating sds segs sd l s)
      (fun l => Dating sds segs sd l sd.data.endSeq) := by
  intro s level pre old new post next hready hinv hpass
  have hwf := (wfEntries_append.mp (wfEntries_append.mp hready.wf).1).2
  have hlt := hready.lt
  have hbytes := hpass.new_bytes hwf hlt
  have hnew : new ≠ [] := by
    rintro rfl
    cases hpass with
    | missing hitype => cases hitype
  have hmem : ∀ en ∈ pre ++ new ++ post, en ∈ new ∨ en ∈ pre ++ old ++ post := by
    intro en hen
    simp only [List.mem_append] at hen ⊢
    tauto
  -- the next pass starts where this one stopped
  have hkept : s ≤ next.getD sd.data.endSeq →
      Dating sds segs sd (pre ++ new ++ post) (next.getD sd.data.endSeq) := by
    intro hle
    refine ⟨fun en hen => ?_, fun b hb => ?_, hinv.start.trans hle, fun en hen hempty => ?_⟩
    · rcases hmem en hen with hen | hen
      · exact hpass.dated hready hinv en hen
      · exact hinv.dated en hen
    · rw [hpass.covered_iff hwf hlt hnew]
      by_cases hs : s ≤ b
      · rcases hb with hb | hb
        · exact .inl (hinv.covered b (.inl hb))
        · exact .inr ⟨hs, hb.2⟩
      · exact .inl (hinv.covered b (hb.imp_right fun hb => ⟨hb.1, not_le.mp hs⟩))
    · rcases hmem en hen with hen | hen
      · have := hbytes en hen
        omega
      · exact hinv.empties en hen hempty
  constructor
  · rintro rfl
    exact hkept hlt.le
  · rintro s' rfl
    exact hkept (hpass.next_bounds rfl).1.le

/-! ## Runs -/

def sentPackets (evs : List SenderEvent) : List SendData :=
  evs.filterMap fun
    | .sent sd => some sd
    | .ack _ => none

def ackPackets (evs : List SenderEvent) : List DataSeg :=
  evs.filterMap fun
    | .sent _ => none
    | .ack seg => some seg

def SenderEvent.tstampPcap : SenderEvent → Timeval
  | .sent sd => sd.data.tstampPcap
  | .ack seg => seg.tstampPcap

/-- The packet opens no range across an existing one and takes over no range without bytes. -/
def KeepsFirst (rm : RangeManager) : SenderEvent → Prop
  | .sent sd =>
      KeepsApart rm sd ∧
        (sd.data.payloadSize ≠ 0 → AvoidsEmpty rm.ranges.entries sd.data.seq sd.data.endSeq)
  | .ack _ => True

instance (rm : RangeManager) : (ev : SenderEvent) → Decidable (KeepsFirst rm ev)
  | .sent _ => inferInstanceAs (Decidable (_ ∧ _))
  | .ack _ => inferInstanceAs (Decidable True)

/-- What holds after the packets `evs`. -/
structure DatedBy (evs : List SenderEvent) (rm : RangeManager) : Prop where
  apart : rm.Apart
  dated : ∀ en ∈ rm.ranges.entries, Dated (sentPackets evs) (ackPackets evs) en.2
  covered : ∀ b, (∃ sd ∈ sentPackets evs, carries b sd = true) → Covered rm.ranges.entries b

theorem sentPackets_append (evs evs' : List SenderEvent) :
    sentPackets (evs ++ evs') = sentPackets evs ++ sentPackets evs' := List.filterMap_append

theorem ackPackets_append (evs evs' : List SenderEvent) :
    ackPackets (evs ++ evs') = ackPackets evs ++ ackPackets evs' := List.filterMap_append

section Steps

variable {evs : List SenderEvent} {rm rm' : RangeManager} {sd : SendData}

theorem EmptyPass.dated {sds : List SendData} {segs : List DataSeg} {seg : DataSeg} {rdb : Bool}
    {q : ℕ} {l l' : List Entry} (hpass : EmptyPass seg rdb q l l')
    (hold : ∀ en ∈ l, Dated sds segs en.2) : ∀ en ∈ l', Dated sds segs en.2 := by
  cases hpass with
  | fresh hpre hpost =>
      intro en hen
      rcases List.mem_append.mp hen with hen | hen
      · exact hold en (List.mem_append_left _ hen)
      rcases List.mem_cons.mp hen with rfl | hen
      · exact dated_of_empty rfl rfl
      · exact hold en (List.mem_append_right _ hen)
  | found r =>
      intro en hen
      rcases List.mem_append.mp hen with hen | hen
      · exact hold en (List.mem_append_left _ hen)
      rcases List.mem_cons.mp hen with rfl | hen
      · exact (hold (q, r) (by simp)).recordEmpty seg rdb
      · exact hold en (by simp [hen])

theorem insertSentRange_dated_empty (hinv : DatedBy evs rm) (hsd : Sized sd)
    (hsize : sd.data.payloadSize = 0) (hok : KeepsApart rm sd)
    (h : rm.insertSentRange sd = .ok rm') : DatedBy (evs ++ [.sent sd]) rm' := by
  have hend : sd.data.endSeq = sd.data.seq := by simpa [hsize] using hsd.size
  obtain ⟨rm₁, h₁, -, hpass⟩ := insertSentRange_empty rm hend
  obtain rfl := Except.ok.inj (h₁.symm.trans h)
  refine ⟨insertSentRange_apart hinv.apart hsd hok h, ?_, fun b hb => ?_⟩
  · have hold := fun en hen => (hinv.dated en hen).mono (sentPackets [.sent sd]) []
    rw [sentPackets_append, ackPackets_append]
    exact hpass.dated hold
  · rw [hpass.covered_iff]
    obtain ⟨d, hd, hdb⟩ := hb
    rw [sentPackets_append] at hd
    rcases List.mem_append.mp hd with hd | hd
    · exact hinv.covered b ⟨d, hd, hdb⟩
    · obtain rfl : d = sd := List.mem_singleton.mp hd
      have := carries_iff.mp hdb
      omega

theorem insertSentRange_dated_data (hinv : DatedBy evs rm) (hsd : Sized sd)
    (hsize : sd.data.payloadSize ≠ 0) (hok : KeepsApart rm sd)
    (hempties : AvoidsEmpty rm.ranges.entries sd.data.seq sd.data.endSeq)
    (h : rm.insertSentRange sd = .ok rm') : DatedBy (evs ++ [.sent sd]) rm' := by
  have hapart := insertSentRange_apart hinv.apart hsd hok h
  have hready := hinv.apart.ready hsd hsize hok
  have hstart : Dating (sentPackets evs) (ackPackets evs) sd rm.ranges.entries sd.data.seq := by
    refine ⟨fun en hen => ?_, fun b hb => ?_, le_rfl, hempties⟩
    · have hmono := (hinv.dated en hen).mono [sd] []
      rwa [List.append_nil] at hmono
    · rcases hb with hb | hb
      · exact hinv.covered b hb
      · omega
  obtain ⟨rm₁, ret, h₁, rfl⟩ := insertSentRange_cases h
  have hins := insertLoop_inserted (by simp) passKeeps_dating hready hstart h₁
  refine ⟨hapart, ?_, fun b hb => hins.post.covered b ?_⟩
  · rw [sentPackets_append, ackPackets_append]
    show ∀ en ∈ rm₁.ranges.entries, Dated (sentPackets evs ++ [sd]) (ackPackets evs ++ []) en.2
    rw [List.append_nil]
    exact hins.post.dated
  · obtain ⟨d, hd, hdb⟩ := hb
    rw [sentPackets_append] at hd
    rcases List.mem_append.mp hd with hd | hd
    · exact .inl ⟨d, hd, hdb⟩
    · obtain rfl : d = sd := List.mem_singleton.mp hd
      exact .inr (carries_iff.mp hdb)

theorem ackStep_dated {seg : DataSeg} (hinv : DatedBy evs rm) (h : ackStep rm seg = .ok rm') :
    DatedBy (evs ++ [.ack seg]) rm' := by
  obtain ⟨hapart, hcovered⟩ := ackStep_apart hinv.apart h
  have hseg : seg ∈ ackPackets evs ++ [seg] := by simp
  have hold : ∀ en ∈ rm.ranges.entries,
      Dated (sentPackets evs) (ackPackets evs ++ [seg]) en.2 := by
    intro en hen
    have hmono := (hinv.dated en hen).mono [] [seg]
    rwa [List.append_nil] at hmono
  refine ⟨hapart, ?_, fun b hb => ?_⟩
  · rw [sentPackets_append, ackPackets_append]
    show ∀ en ∈ rm'.ranges.entries, Dated (sentPackets evs ++ []) (ackPackets evs ++ [seg]) en.2
    rw [List.append_nil]
    exact (ackStep_forall (ackKeeps_dated _ hseg) hinv.apart.1 hold h).2.2
  · rw [sentPackets_append] at hb
    have hnil : sentPackets [.ack seg] = [] := rfl
    rw [hnil, List.append_nil] at hb
    exact hcovered b (hinv.covered b hb)

theorem senderStep_dated {ev : SenderEvent} (hinv : DatedBy evs rm) (hsized : ev.Sized)
    (hok : KeepsFirst rm ev) (h : senderStep rm ev = .ok rm') : DatedBy (evs ++ [ev]) rm' := by
  cases ev with
  | ack seg => exact ackStep_dated hinv h
  | sent sd =>
      by_cases hsize : sd.data.payloadSize = 0
      · exact insertSentRange_dated_empty hinv hsized hsize hok.1 h
      · exact insertSentRange_dated_data hinv hsized hsize hok.1 (hok.2 hsize) h

end Steps

/-- In every run whose packets open no range across an existing one and take over no range without
bytes, the latency of an acknowledged range is measured from the first packet that carried any of
its bytes, and is the one returned exactly when it fits a non-negative `int`. -/
theorem getSendAckTimeDiff_run_iff {firstSeq : ℕ} {evs : List SenderEvent} {rm : RangeManager}
    (hsized : ∀ ev ∈ evs, ev.Sized) (htimes : ∀ ev ∈ evs, ev.tstampPcap ≠ Timeval.zero)
    (hsteps : Run.Steps senderStep KeepsFirst (new firstSeq) evs)
    (hrun : Run.run senderStep (new firstSeq) evs = .ok rm) :
    ∀ en ∈ rm.ranges.entries, 0 < en.2.byteCount → en.2.acked = true →
      ∃ seg ∈ ackPackets evs, en.2.ackTime = seg.tstampPcap ∧
      ∃ sd, (sentPackets evs).find? (carriesSome en.2) = some sd ∧
        (en.2.getSendAckTimeDiff = .ok (en.2.latency sd.data.tstampPcap) ↔
          0 ≤ en.2.latency sd.data.tstampPcap ∧ en.2.latency sd.data.tstampPcap < 2 ^ 31) := by
  have hinit : DatedBy [] (new firstSeq) :=
    ⟨⟨wfEntries_nil, separated_nil⟩, fun en hen => absurd hen List.not_mem_nil,
      fun b ⟨_, hsd, _⟩ => absurd hsd List.not_mem_nil⟩
  have hinv : DatedBy evs rm := Run.invariant (I := fun rm evs => DatedBy evs rm) (d := [])
    (fun _ _ _ _ hinv hok hstep => senderStep_dated hinv hok.2 hok.1 hstep) hinit
    (hsteps.and_forall hsized) hrun
  intro en hen hbytes hacked
  obtain ⟨seg, hseg, hack⟩ := (hinv.dated en hen).acked hacked
  have hfirst := (hinv.dated en hen).first
  have hlt : en.2.startSeq < en.2.endSeq := by
    have := (hinv.apart.1 en hen).2.size
    omega
  -- all bytes of the range have the time of its first one
  obtain ⟨sd₀, -, ht₀⟩ := hfirst en.2.startSeq ⟨le_rfl, hlt⟩
  have hsame : ∀ b, en.2.Holds b → ∃ sd, (sentPackets evs).find? (carries b) = some sd ∧
      sd.data.tstampPcap = sd₀.data.tstampPcap := by
    intro b hb
    obtain ⟨sd, hsd, ht⟩ := hfirst b hb
    exact ⟨sd, hsd, Option.some.inj (ht.symm.trans ht₀)⟩
  obtain ⟨sd, hsd, ht⟩ := exists_find?_carriesSome hlt hsame
  refine ⟨seg, hseg, hack, sd, hsd, ?_⟩
  rw [ht]
  refine ByteRange.getSendAckTimeDiff_eq_iff ht₀ ?_ ?_
  · obtain ⟨ev, hev, hevsd⟩ := List.mem_filterMap.mp (List.mem_of_find?_eq_some hsd)
    cases ev with
    | ack seg => cases hevsd
    | sent sd' =>
        obtain rfl := Option.some.inj hevsd
        rw [← ht]
        exact htimes _ hev
  · obtain ⟨ev, hev, hevseg⟩ := List.mem_filterMap.mp hseg
    cases ev with
    | sent sd' => cases hevseg
    | ack seg' =>
        obtain rfl := Option.some.inj hevseg
        rw [hack]
        exact htimes _ hev

/-- The time of the packets below. -/
def atSecond (n : ℤ) : Timeval := ⟨n, 0⟩

/-- Two segments, an ACK that reaches into the second, and a retransmission of it. -/
def twoSegments : List SenderEvent :=
  [.sent { data := { endSeq := 4, payloadSize := 4, tstampPcap := atSecond 10 } },
    .sent { data := { seq := 4, endSeq := 8, payloadSize := 4, tstampPcap := atSecond 11 } },
    .ack { ack := 6, tstampPcap := atSecond 12 },
    .sent { data :=
      { seq := 6, endSeq := 8, payloadSize := 2, retrans := true, tstampPcap := atSecond 13 } },
    .ack { ack := 8, tstampPcap := atSecond 14 }]

theorem getSendAckTimeDiff_run_iff_two :
    ∃ rm, Run.run senderStep (new 0) twoSegments = .ok rm ∧
      ∀ en ∈ rm.ranges.entries, 0 < en.2.byteCount → en.2.acked = true →
        ∃ sd, (sentPackets twoSegments).find? (carriesSome en.2) = some sd ∧
          (en.2.getSendAckTimeDiff = .ok (en.2.latency sd.data.tstampPcap) ↔
            0 ≤ en.2.latency sd.data.tstampPcap ∧ en.2.latency sd.data.tstampPcap < 2 ^ 31) := by
  have hsome : (Run.run senderStep (new 0) twoSegments).toOption.any
      (fun rm => decide (∃ en ∈ rm.ranges.entries, 0 < en.2.byteCount ∧ en.2.acked = true)) =
      true := by decide
  obtain ⟨rm, hrun, -⟩ := Run.exists_of_any_toOption hsome
  have hall := getSendAckTimeDiff_run_iff (by decide) (by decide) (by decide) hrun
  refine ⟨rm, hrun, fun en hen hbytes hacked => ?_⟩
  obtain ⟨-, -, -, hlatency⟩ := hall en hen hbytes hacked
  exact hlatency

/-- The request was answered, and the answer acknowledged, before the second request was sent. -/
def requestResponse : List SenderEvent :=
  [.sent { data := { endSeq := 4, payloadSize := 4, tstampPcap := atSecond 10 } },
    .ack { ack := 4, tstampPcap := atSecond 11 },
    .sent { data := { seq := 4, endSeq := 4, tstampPcap := atSecond 12 } },
    .sent { data := { seq := 4, endSeq := 8, payloadSize := 4, tstampPcap := atSecond 60 } },
    .ack { ack := 8, tstampPcap := atSecond 61 }]

/-- The second request took one second; reported are the 49 seconds since the pure ACK before it. -/
theorem getSendAckTimeDiff_counts_idle_time :
    ∃ rm en sd, Run.run senderStep (new 0) requestResponse = .ok rm ∧ en ∈ rm.ranges.entries ∧
      en.2.byteCount = 4 ∧ en.2.acked = true ∧
      (sentPackets requestResponse).find? (carriesSome en.2) = some sd ∧
      en.2.latency sd.data.tstampPcap = 1000000 ∧ en.2.getSendAckTimeDiff = .ok 49000000 := by
  have hall : ((Run.run senderStep (new 0) requestResponse).toOption.any fun rm =>
      decide (∃ en ∈ rm.ranges.entries, en.2.byteCount = 4 ∧ en.2.acked = true ∧
        en.2.getSendAckTimeDiff.toOption = some 49000000 ∧
        ∃ sd ∈ (sentPackets requestResponse).find? (carriesSome en.2),
          en.2.latency sd.data.tstampPcap = 1000000)) = true := by decide
  obtain ⟨rm, hrun, hen⟩ := Run.exists_of_any_toOption hall
  obtain ⟨en, hen, hbytes, hacked, hdiff, sd, hsd, hlatency⟩ := of_decide_eq_true hen
  refine ⟨rm, en, sd, hrun, hen, hbytes, hacked, hsd, hlatency, ?_⟩
  cases hres : en.2.getSendAckTimeDiff with
  | error e =>
      rw [hres] at hdiff
      cases hdiff
  | ok v =>
      rw [hres] at hdiff
      rw [Option.some.inj hdiff]

end RangeManager

end AnalyseTCP
