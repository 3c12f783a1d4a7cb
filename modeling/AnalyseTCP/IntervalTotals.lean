import AnalyseTCP.LossIntervals
import AnalyseTCP.SentFrame

/-!
# No interval loses more than it sent

`calculateLossGroupedByInterval` puts the losses of a range into buckets by the times in
`lost_tstamps_tcp` and the totals by those in `sent_tstamp_pcap`, and then reads the totals at every
index of the losses.  Both lists grow together; a received packet erases from the first one only, and
a split copies the second one only.  So the times of the losses are among those of the
transmissions, as often, in every state that packets of any kind in any order can build.
-/

namespace AnalyseTCP

namespace RangeManager

/-- The times of the losses are among the times of the transmissions, in their order. -/
def LossesSent (r : ByteRange) : Prop :=
  (r.lostTstampsTcp.map Prod.snd).Sublist (r.sentTstampPcap.map Prod.fst)

/-! ## Ranges -/

section Ranges

variable {r r' : ByteRange} (seg : DataSeg) (level : ℕ) (rdb : Bool)

theorem LossesSent.congr (h : LossesSent r) (hlost : r'.lostTstampsTcp = r.lostTstampsTcp)
    (hsent : r'.sentTstampPcap = r.sentTstampPcap) : LossesSent r' := by
  unfold LossesSent
  rw [hlost, hsent]
  exact h

theorem LossesSent.exists_sent (h : LossesSent r) {l : ℕ × Timeval} (hl : l ∈ r.lostTstampsTcp) :
    ∃ t ∈ r.sentTstampPcap, t.1 = l.2 := by
  have htime : l.2 ∈ r.sentTstampPcap.map Prod.fst :=
    h.subset (List.mem_map_of_mem (f := Prod.snd) hl)
  exact List.mem_map.mp htime

theorem lossesSent_tail (r : ByteRange) (c : ℕ) : LossesSent (r.tail c) := List.nil_sublist _

theorem LossesSent.recordSent {sentT : SentType} (h : LossesSent r) :
    LossesSent (recordSent seg rdb sentT r) := by
  show List.Sublist ((r.lostTstampsTcp ++ [(seg.tstampTcp, seg.tstampPcap)]).map Prod.snd)
    ((r.sentTstampPcap ++ [(seg.tstampPcap, sentT)]).map Prod.fst)
  rw [List.map_append, List.map_append]
  exact List.Sublist.append h (List.Sublist.refl [seg.tstampPcap])

theorem LossesSent.recordRecv (h : LossesSent r) : LossesSent (recordRecv seg level r) := by
  have hlost : (RangeManager.recordRecv seg level r).lostTstampsTcp =
      r.lostTstampsTcp.eraseP fun p => p.1 == seg.tstampTcp :=
    recordRecv_blind seg level r (f := fun r => r.lostTstampsTcp) fun _ _ _ _ => rfl
  have hsent : (RangeManager.recordRecv seg level r).sentTstampPcap = r.sentTstampPcap :=
    recordRecv_blind seg level r (f := fun r => r.sentTstampPcap) fun _ _ _ _ => rfl
  unfold LossesSent
  rw [hlost, hsent]
  exact (List.eraseP_sublist.map Prod.snd).trans h

theorem LossesSent.finSet (h : LossesSent r) : LossesSent (finSet seg r) :=
  h.congr (finSet_blind seg r fun _ _ => rfl) (finSet_blind seg r fun _ _ => rfl)

theorem LossesSent.recordSplit {itype : InsertType} (h : LossesSent r) :
    LossesSent (recordSplit seg level rdb itype r) := by
  cases itype with
  | sent => exact (h.recordSent seg rdb).congr rfl rfl
  | recv => exact h.recordRecv seg level
  | sojourn => exact h

theorem LossesSent.recordFound {itype : InsertType} (h : LossesSent r) :
    LossesSent (recordFound seg level rdb itype r) := by
  cases itype with
  | sent =>
      have hcounts : LossesSent (recordSentCounts seg level rdb r) :=
        (h.recordSent seg rdb).congr rfl rfl
      exact hcounts.congr (recordSentFound_blind seg level rdb r fun _ _ => rfl)
        (recordSentFound_blind seg level rdb r fun _ _ => rfl)
  | recv => exact h.recordRecv seg level
  | sojourn => exact h

theorem LossesSent.wholeRange {itype : InsertType} (h : LossesSent r) (s : ℕ) :
    LossesSent (wholeRange itype seg level s r) :=
  (h.recordFound seg level _).congr (wholeRange_blind itype seg level s r fun _ _ => rfl)
    (wholeRange_blind itype seg level s r fun _ _ => rfl)

theorem lossesSent_freshRange (s e : ℕ) : LossesSent (freshRange seg s e) := by
  apply LossesSent.finSet
  apply LossesSent.recordSent
  exact List.Sublist.refl []

theorem LossesSent.reusedRange (h : LossesSent r) (s c : ℕ) :
    LossesSent (reusedRange seg s c r) := by
  have hsent : LossesSent (RangeManager.recordSent seg (thisIsRdbData seg s) .pkt r) :=
    h.recordSent seg (thisIsRdbData seg s)
  exact hsent.congr rfl rfl

theorem lossesSent_emptyRange (q : ℕ) : LossesSent (emptyRange seg rdb q) := by
  apply LossesSent.recordSent
  exact List.Sublist.refl []

theorem LossesSent.recordEmpty {itype : InsertType} (h : LossesSent r) :
    LossesSent (recordEmpty seg itype level rdb r) := by
  cases itype with
  | sojourn => exact h
  | sent =>
      unfold RangeManager.recordEmpty
      dsimp only
      split
      · apply LossesSent.recordSent
        exact h
      · split
        · apply LossesSent.recordSent
          exact h
        · exact h.recordSent seg rdb
  | recv =>
      have hinc : LossesSent (r.increaseReceived seg.tstampTcp seg.tstampPcap seg.inSequence) :=
        h.recordRecv seg 1
      unfold RangeManager.recordEmpty
      dsimp only
      split
      · split
        · exact hinc.congr rfl rfl
        · exact h.congr rfl rfl
      · split
        · exact hinc
        · exact h

end Ranges

/-! ## Packets -/

section Packets

variable {rm rm' : RangeManager} {seg : DataSeg}

theorem pieceKeeps_lossesSent (m : OrdMap ℕ ByteRange) (itype : InsertType) (seg : DataSeg)
    (e : ℕ) : PieceKeeps m itype seg e (fun _ => True) (fun _ en => LossesSent en.2) where
  next _ _ _ _ _ _ _ := trivial
  old _ _ _ h _ := h
  piece l s level next en _ _ _ _ hl _ hpiece := by
    cases hpiece with
    | fresh => exact lossesSent_freshRange seg s e
    | whole r hmem => exact LossesSent.wholeRange seg level (hl _ hmem) s
    | front r hmem =>
        have hhead : LossesSent (r.head e) := (hl _ hmem).congr rfl rfl
        exact hhead.recordFound seg level _
    | frontRest r => exact lossesSent_tail r e
    | span r hmem => exact LossesSent.recordFound seg level _ (hl _ hmem)
    | reuse r c hmem => exact LossesSent.reusedRange seg (hl _ hmem) s c
    | cutHead key r _ _ hmem => exact (hl (key, r) hmem).congr rfl rfl
    | back key r => exact ((lossesSent_tail r s).finSet seg).recordSplit seg level _
    | middle key r =>
        have hhead : LossesSent ((r.tail s).head e) := (lossesSent_tail r s).congr rfl rfl
        exact (hhead.finSet seg).recordSplit seg level _
    | middleRest key r => exact lossesSent_tail _ e
    | beyond key r => exact (lossesSent_tail r s).recordSplit seg level _

theorem emptyKeeps_lossesSent (itype : InsertType) (seg : DataSeg) (rm : RangeManager) :
    EmptyKeeps itype seg rm fun en => LossesSent en.2 where
  new _ := lossesSent_emptyRange seg _ _
  found _ _ h := LossesSent.recordEmpty seg 0 _ h

theorem ackKeeps_lossesSent (l : List Entry) (seg : DataSeg) :
    AckKeeps l seg fun en => LossesSent en.2 where
  exact _ r b h := by
    apply LossesSent.congr h
    · exact ackExact_blind seg r _ b (fun _ _ => rfl) (fun _ _ => rfl) (fun _ => rfl)
        (fun _ => rfl) fun _ _ => rfl
    · exact ackExact_blind seg r _ b (fun _ _ => rfl) (fun _ _ => rfl) (fun _ => rfl)
        (fun _ => rfl) fun _ _ => rfl
  mark _ r h := by
    unfold markAcked
    split
    · exact h
    · exact h.congr rfl rfl
  count _ _ h := h.congr rfl rfl
  part _ r _ _ _ _ h := ⟨h.congr rfl rfl, fun _ => lossesSent_tail r _⟩

theorem insertLoop_sojourn_forall {P : Entry → Prop} {s e level fuel : ℕ} {ret : Bool}
    (htime : ∀ key r r' q, P (key, r) →
      r.addSegmentEnteredKernelTime q seg.tstampPcap = .ok r' → P (key, r'))
    (hne : s ≠ e) (hP : ∀ en ∈ rm.ranges.entries, P en)
    (h : insertLoop e .sojourn seg fuel rm s level = .ok (rm', ret)) :
    ∀ en ∈ rm'.ranges.entries, P en := by
  induction fuel generalizing rm s level with
  | zero => cases h
  | succ fuel ih =>
      have hstep : ∀ {out}, rm.insertBody s e .sojourn seg level = .ok out →
          ∀ en ∈ out.rm.ranges.entries, P en := by
        intro out hbody en hen
        rcases (insertBody_timeWritten hne hbody).ranges with hrm | ⟨key, r, r', q, hr, hadd, hrm⟩
        · rw [hrm] at hen
          exact hP en hen
        · rw [hrm] at hen
          rcases mem_modify_const hen with hen | rfl
          · exact hP en hen
          · exact htime key r r' q (hP _ hr) hadd
      rw [insertLoop] at h
      split at h
      · cases h
      · next hbody =>
          obtain ⟨rfl, rfl⟩ := Prod.mk.inj (Except.ok.inj h)
          exact hstep hbody
      · next rm₁ s₁ hbody =>
          have hlt : s₁ < e := (insertBody_timeWritten hne hbody).bound s₁ rfl
          exact ih hlt.ne (hstep hbody) h

/-- Every loss of the map is the loss of a transmission. -/
structure LossesKept (rm : RangeManager) : Prop where
  wf : WfEntries rm.ranges.entries
  sent : ∀ en ∈ rm.ranges.entries, LossesSent en.2

theorem senderStep_lossesKept {ev : SenderEvent} (hinv : LossesKept rm) (hsized : ev.Sized)
    (h : senderStep rm ev = .ok rm') : LossesKept rm' := by
  refine ⟨senderStep_wf hinv.wf hsized h, ?_⟩
  cases ev with
  | ack seg => exact (ackStep_forall (ackKeeps_lossesSent _ seg) hinv.wf hinv.sent h).2.2
  | sent sd =>
      have hkept := insertSentRange_forall (P := fun en => LossesSent en.2)
        (Q := fun _ en => LossesSent en.2) hsized
        (fun _ => emptyKeeps_lossesSent .sent sd.data rm)
        (fun _ => ⟨pieceKeeps_lossesSent rm.ranges .sent sd.data _, trivial, hinv.sent⟩)
        (fun _ hen => hen) hinv.wf hinv.sent h
      exact hkept.2

theorem observe_lossesKept {ob : Observed} (hinv : LossesKept rm)
    (hle : ob.seg.seq ≤ ob.seg.endSeq) (h : observe rm ob = .ok rm') : LossesKept rm' := by
  cases ob with
  | received sd =>
      have hkept := insertReceivedRange_forall (P := fun en => LossesSent en.2)
        (Q := fun _ en => LossesSent en.2) hle
        (fun _ => emptyKeeps_lossesSent .recv (receivedSeg sd) rm)
        (fun _ => ⟨pieceKeeps_lossesSent rm.ranges .recv (receivedSeg sd) _, trivial, hinv.sent⟩)
        (fun _ hen => hen) hinv.wf hinv.sent h
      exact ⟨hkept.1, hkept.2⟩
  | sojourn seg =>
      obtain ⟨⟨rm₁, ret⟩, hins, hrm⟩ := Run.exists_of_bind_ok h
      obtain rfl : rm₁ = rm' := Except.ok.inj hrm
      by_cases hempty : seg.seq = seg.endSeq
      · rw [← hempty] at hins
        have hkept := insertByteRange_empty_forall (emptyKeeps_lossesSent .sojourn seg rm) hinv.wf
          hinv.sent hins
        exact ⟨hkept.1, hkept.2⟩
      · refine ⟨(insertLoop_sojourn_sentKept hempty hinv.wf hins).wf, ?_⟩
        refine insertLoop_sojourn_forall (fun key r r' q hr hadd => ?_) hempty hinv.sent hins
        exact LossesSent.congr hr (addSegmentEnteredKernelTime_blind (fun _ _ => rfl) hadd)
          (addSegmentEnteredKernelTime_blind (fun _ _ => rfl) hadd)

end Packets

/-! ## Any interleaving of both traces -/

/-- A packet of either trace, or a sojourn entry. -/
inductive TraceEvent
  | sender (ev : SenderEvent)
  | observed (ob : Observed)

def traceStep (rm : RangeManager) : TraceEvent → Except Abort RangeManager
  | .sender ev => senderStep rm ev
  | .observed ob => observe rm ob

/-- Sent packets are as the capture hands them over, and what is received does not end before it
starts. -/
def TraceEvent.Sized : TraceEvent → Prop
  | .sender ev => ev.Sized
  | .observed ob => ob.seg.seq ≤ ob.seg.endSeq

instance : (ev : TraceEvent) → Decidable ev.Sized
  | .sender ev => inferInstanceAs (Decidable ev.Sized)
  | .observed ob => inferInstanceAs (Decidable (ob.seg.seq ≤ ob.seg.endSeq))

theorem traceStep_lossesKept {rm rm' : RangeManager} {ev : TraceEvent} (hinv : LossesKept rm)
    (hsized : ev.Sized) (h : traceStep rm ev = .ok rm') : LossesKept rm' := by
  cases ev with
  | sender ev => exact senderStep_lossesKept hinv hsized h
  | observed ob => exact observe_lossesKept hinv hsized h

theorem traceStep_run_lossesKept {firstSeq : ℕ} {evs : List TraceEvent} {rm : RangeManager}
    (hsized : ∀ ev ∈ evs, ev.Sized) (hrun : Run.run traceStep (new firstSeq) evs = .ok rm) :
    LossesKept rm := by
  have hsteps : Run.Steps traceStep (fun _ ev => True ∧ ev.Sized) (new firstSeq) evs :=
    (Run.steps_true _ _).and_forall hsized
  have hnew : LossesKept (new firstSeq) := ⟨wfEntries_nil, fun en hen => by cases hen⟩
  exact Run.invariant (I := fun rm _ => LossesKept rm) (d := [])
    (fun _ _ _ _ hinv hok hstep => traceStep_lossesKept hinv hok.2 hstep) hnew hsteps hrun

end RangeManager

/-! ## The buckets -/

variable {lossAggrMs : ℕ} {firstTstamp : ℤ}

/-- The number of losses of the range in interval `i`. -/
def ByteRange.lostIn (lossAggrMs : ℕ) (firstTstamp : ℤ) (r : ByteRange) (i : ℕ) : ℕ :=
  (r.lostTstampsTcp.filter fun l => intervalIdx lossAggrMs firstTstamp l.2 = i).length

theorem ByteRange.lostIn_le_sentIn {r : ByteRange} (h : RangeManager.LossesSent r) (i : ℕ) :
    r.lostIn lossAggrMs firstTstamp i ≤ r.sentIn lossAggrMs firstTstamp i := by
  have hsub := h.filter fun tv => decide (intervalIdx lossAggrMs firstTstamp tv = i)
  rw [List.filter_map, List.filter_map] at hsub
  have hlen := hsub.length_le
  rw [List.length_map, List.length_map] at hlen
  exact hlen

namespace RangeManager

section Buckets

open Buckets

variable {r : ByteRange} {v : List LossInterval} {u : List SentTotals} {first : Option Timeval}

theorem sum_lostIn (r : ByteRange) (k i : ℕ) :
    (r.lostTstampsTcp.map fun l =>
      if intervalIdx lossAggrMs firstTstamp l.2 = i then k else 0).sum =
      k * r.lostIn lossAggrMs firstTstamp i :=
  sum_ite_const r.lostTstampsTcp _ k

/-- What the losses of a range add to an interval, seen through `π`. -/
theorem placeLosses_getD {π : LossInterval → ℕ} {k : ℕ}
    (hlost : ∀ l, π (l.add { cntBytes := 1, allBytes := r.byteCount }) = π l + k)
    (v : List LossInterval) (first : Option Timeval) (i : ℕ) :
    π ((placeLosses lossAggrMs firstTstamp v r first).getD i {}) =
      π ((placeNewBytes lossAggrMs firstTstamp v r first).getD i {}) +
        k * r.lostIn lossAggrMs firstTstamp i := by
  rw [placeLosses, ← sum_lostIn r k i]
  apply foldl_adds fun v : List LossInterval => π (v.getD i {})
  intro v l
  rw [getD_bump]
  split
  · exact hlost _
  · rfl

theorem placeNewBytes_getD {π : LossInterval → ℕ}
    (hnew : ∀ l, π (l.add { newBytes := r.originalPayloadSize }) = π l)
    (v : List LossInterval) (first : Option Timeval) (i : ℕ) :
    π ((placeNewBytes lossAggrMs firstTstamp v r first).getD i {}) = π (v.getD i {}) := by
  unfold placeNewBytes
  split
  · rfl
  · rw [getD_bump]
    split
    · exact hnew _
    · rfl

/-- The payload of a lost first transmission is counted where the transmission is. -/
theorem newBytes_le (hfirst : lostFirstSent r = .ok first) (i : ℕ)
    (h : (v.getD i {}).newBytes ≤ (u.getD i {}).newBytes) :
    ((placeNewBytes lossAggrMs firstTstamp v r first).getD i {}).newBytes ≤
      ((addNewBytes lossAggrMs firstTstamp u r).getD i {}).newBytes := by
  -- a first transmission may also be counted in the totals without being lost
  have hmore : (u.getD i {}).newBytes ≤
      ((addNewBytes lossAggrMs firstTstamp u r).getD i {}).newBytes := by
    unfold addNewBytes
    split
    · exact le_rfl
    · split
      · rw [getD_bump]
        split
        · exact Nat.le_add_right _ _
        · exact le_rfl
      · exact le_rfl
  cases first with
  | none => exact h.trans hmore
  | some ts =>
      unfold lostFirstSent at hfirst
      split at hfirst
      · cases hfirst
      split at hfirst
      · next hsent =>
          split at hfirst
          · cases hfirst
          · next s rest hcons =>
              split at hfirst
              · obtain rfl := Option.some.inj (Except.ok.inj hfirst)
                unfold placeNewBytes addNewBytes
                rw [hcons]
                dsimp only
                -- lost and sent land in the interval of the same first send time
                rw [if_pos hsent, getD_bump, getD_bump]
                split
                · exact Nat.add_le_add_right h _
                · exact h
              · cases Except.ok.inj hfirst
      · cases Except.ok.inj hfirst

/-- In every interval the totals `u` cover the losses `v`. -/
structure CoveredBy (v : List LossInterval) (u : List SentTotals) : Prop where
  length_le : v.length ≤ u.length
  cnt : ∀ i, (v.getD i {}).cntBytes ≤ (u.getD i {}).count
  all : ∀ i, (v.getD i {}).allBytes ≤ (u.getD i {}).bytes
  new : ∀ i, (v.getD i {}).newBytes ≤ (u.getD i {}).newBytes

/-- One range, in the first two loops. -/
theorem CoveredBy.step (hcov : CoveredBy v u) (hsent : LossesSent r)
    (hfirst : lostFirstSent r = .ok first) :
    CoveredBy (placeLosses lossAggrMs firstTstamp v r first)
      (addSentTotals lossAggrMs firstTstamp u r) where
  length_le := by
    -- a vector of losses only grows for a time that is also one of a transmission
    by_contra hlt
    rw [Nat.not_le, lt_length_placeLosses v hfirst] at hlt
    apply lt_irrefl (addSentTotals lossAggrMs firstTstamp u r).length
    rw [lt_length_addSentTotals]
    rcases hlt with hlt | ⟨l, hl, hle⟩
    · exact .inl (hlt.trans_le hcov.length_le)
    · obtain ⟨s, hs, hsl⟩ := hsent.exists_sent hl
      rw [← hsl] at hle
      exact .inr ⟨s, hs, hle⟩
  cnt i := by
    rw [placeLosses_getD (π := LossInterval.cntBytes) (k := 1) (fun _ => rfl),
      placeNewBytes_getD (π := LossInterval.cntBytes) (fun _ => rfl),
      addSentTotals_getD (π := SentTotals.count) (k := 1) (fun _ _ => rfl) (fun _ => rfl)]
    have hle : r.lostIn lossAggrMs firstTstamp i ≤ r.sentIn lossAggrMs firstTstamp i :=
      ByteRange.lostIn_le_sentIn hsent i
    have := hcov.cnt i
    omega
  all i := by
    rw [placeLosses_getD (π := LossInterval.allBytes) (fun _ => rfl),
      placeNewBytes_getD (π := LossInterval.allBytes) (fun _ => rfl),
      addSentTotals_getD (π := SentTotals.bytes) (fun _ _ => rfl) (fun _ => rfl)]
    have hle : r.lostIn lossAggrMs firstTstamp i ≤ r.sentIn lossAggrMs firstTstamp i :=
      ByteRange.lostIn_le_sentIn hsent i
    exact Nat.add_le_add (hcov.all i) (Nat.mul_le_mul_left _ hle)
  new i := by
    -- the loop over the transmissions does not touch the new bytes
    have htotals : ((addSentTotals lossAggrMs firstTstamp u r).getD i {}).newBytes =
        ((addNewBytes lossAggrMs firstTstamp u r).getD i {}).newBytes := by
      have hfold := foldl_adds
        (F := fun v s => bump {} v (intervalIdx lossAggrMs firstTstamp s.1) fun t : SentTotals =>
          { t with count := t.count + 1, bytes := t.bytes + r.byteCount })
        (fun v : List SentTotals => (v.getD i {}).newBytes) (fun _ : Timeval × SentType => 0)
        (fun v s => by
          rw [getD_bump]
          split <;> rfl) (addNewBytes lossAggrMs firstTstamp u r) r.sentTstampPcap
      have hzero : (r.sentTstampPcap.map fun _ => 0).sum = 0 := by simp
      rw [hzero, Nat.add_zero] at hfold
      exact hfold
    rw [placeLosses_getD (π := LossInterval.newBytes) (k := 0) (fun _ => rfl), htotals, Nat.zero_mul]
    exact newBytes_le hfirst i (hcov.new i)

theorem CoveredBy.run {analysed : List (ℕ × ByteRange)}
    (hsent : ∀ en ∈ analysed, LossesSent en.2) :
    ∃ loss, Run.run (addLosses lossAggrMs firstTstamp) [] analysed = .ok loss ∧
      CoveredBy loss (sentTotals lossAggrMs firstTstamp analysed) := by
  have hsteps : Run.Steps (addLosses lossAggrMs firstTstamp)
      (fun _ en => True ∧ LossesSent en.2) [] analysed :=
    (Run.steps_true _ _).and_forall hsent
  have hnew : CoveredBy [] (sentTotals lossAggrMs firstTstamp []) :=
    ⟨le_rfl, fun _ => le_rfl, fun _ => le_rfl, fun _ => le_rfl⟩
  refine Run.exists_ok (d := [])
    (I := fun loss d => CoveredBy loss (sentTotals lossAggrMs firstTstamp d)) ?_ hnew hsteps
  intro v en d hcov hen
  obtain ⟨first, hfirst⟩ := lostFirstSent_ok fun _ hl => hen.2.exists_sent hl
  refine ⟨placeLosses lossAggrMs firstTstamp v en.2 first, ?_, ?_⟩
  · unfold addLosses
    rw [hfirst]
    rfl
  · unfold sentTotals
    rw [List.foldl_append]
    exact hcov.step hen.2 hfirst

end Buckets

/-! ## The intervals -/

/-- No amount of the interval is above its total. -/
structure Within (l : LossInterval) : Prop where
  cnt : l.cntBytes ≤ l.totCntBytes
  all : l.allBytes ≤ l.totAllBytes
  new : l.newBytes ≤ l.totNewBytes

instance (l : LossInterval) : Decidable (Within l) :=
  decidable_of_iff (l.cntBytes ≤ l.totCntBytes ∧ l.allBytes ≤ l.totAllBytes ∧
    l.newBytes ≤ l.totNewBytes) ⟨fun h => ⟨h.1, h.2.1, h.2.2⟩, fun h => ⟨h.1, h.2, h.3⟩⟩

theorem setTotals_within {allLoss loss allLoss' loss' : List LossInterval} {tot : List SentTotals}
    (hall : ∀ a ∈ allLoss, Within a)
    (hcnt : ∀ i, (loss.getD i {}).cntBytes ≤ (tot.getD i {}).count)
    (hbytes : ∀ i, (loss.getD i {}).allBytes ≤ (tot.getD i {}).bytes)
    (hnew : ∀ i, (loss.getD i {}).newBytes ≤ (tot.getD i {}).newBytes)
    (h : setTotals allLoss loss tot = .ok (allLoss', loss')) :
    (∀ l ∈ loss', Within l) ∧ ∀ a ∈ allLoss', Within a := by
  -- interval by interval; the aggregate takes the losses and their totals together
  induction allLoss, loss, tot using setTotals.induct generalizing allLoss' loss' with
  | case1 allLoss tot =>
      rw [setTotals] at h
      cases h
      exact ⟨List.forall_mem_nil _, hall⟩
  | case2 a allLoss l loss t tot ih =>
      obtain ⟨⟨as, ls⟩, hrec, heq⟩ := Run.exists_of_bind_ok h
      cases heq
      obtain ⟨ha, hall⟩ := List.forall_mem_cons.mp hall
      obtain ⟨hls, has⟩ := ih hall (fun i => hcnt (i + 1)) (fun i => hbytes (i + 1))
        (fun i => hnew (i + 1)) hrec
      have hcnt₀ : l.cntBytes ≤ t.count := hcnt 0
      have hbytes₀ : l.allBytes ≤ t.bytes := hbytes 0
      have hnew₀ : l.newBytes ≤ t.newBytes := hnew 0
      constructor
      · refine List.forall_mem_cons.mpr ⟨⟨?_, ?_, ?_⟩, hls⟩
        · exact hcnt₀.trans (Nat.le_add_left _ _)
        · exact hbytes₀.trans (Nat.le_add_left _ _)
        · exact hnew₀.trans (Nat.le_add_left _ _)
      · refine List.forall_mem_cons.mpr ⟨⟨?_, ?_, ?_⟩, has⟩
        · exact Nat.add_le_add ha.cnt hcnt₀
        · exact Nat.add_le_add ha.all hbytes₀
        · exact Nat.add_le_add ha.new hnew₀
  | case3 => simp_all [setTotals]

/-- In every state that sent packets, ACKs, received packets and sojourn entries can build, in any
order, the call finds a total for every interval with losses, and no interval loses more than its
total, neither that of the connection nor, where earlier connections had none, that of all
connections.  The times need not lie behind `first_tstamp`. -/
theorem calculateLossGroupedByInterval_run_covered {firstSeq : ℕ} {evs : List TraceEvent}
    {rm : RangeManager} (hsized : ∀ ev ∈ evs, ev.Sized)
    (hrun : Run.run traceStep (new firstSeq) evs = .ok rm) (lossAggrMs : ℕ) (firstTstamp : ℤ)
    {analysed : List Entry} (hanalysed : ∀ en ∈ analysed, en ∈ rm.ranges.entries)
    {allLoss : List LossInterval} (hall : ∀ a ∈ allLoss, Within a) :
    ∃ allLoss' loss',
      calculateLossGroupedByInterval lossAggrMs firstTstamp analysed allLoss [] =
        .ok (allLoss', loss') ∧
      (∀ l ∈ loss', Within l) ∧ ∀ a ∈ allLoss', Within a := by
  have hkept := traceStep_run_lossesKept hsized hrun
  have hsent : ∀ en ∈ analysed, LossesSent en.2 := fun en hen => hkept.sent en (hanalysed en hen)
  obtain ⟨loss, hloss, hcov⟩ : ∃ loss, Run.run (addLosses lossAggrMs firstTstamp) [] analysed =
      .ok loss ∧ CoveredBy loss (sentTotals lossAggrMs firstTstamp analysed) :=
    CoveredBy.run hsent
  -- `all_loss` is grown first, so each interval with losses has a place in it
  have hgrown : loss.length ≤ (Buckets.grow {} allLoss (loss.length + 1)).length := by
    rw [Buckets.length_grow]
    omega
  have hall' : ∀ a ∈ Buckets.grow {} allLoss (loss.length + 1), Within a := by
    intro a ha
    rcases List.mem_append.mp ha with ha | ha
    · exact hall a ha
    · rw [List.eq_of_mem_replicate ha]
      decide
  obtain ⟨⟨allLoss', loss'⟩, hset⟩ := setTotals_ok hgrown hcov.length_le
  refine ⟨allLoss', loss', ?_, setTotals_within hall' hcov.cnt hcov.all hcov.new hset⟩
  unfold calculateLossGroupedByInterval
  rw [hloss, Run.ok_bind]
  exact hset

/-- Ten bytes sent twice; the receiver gets the last five of the second copy. -/
def halfLost : List TraceEvent :=
  [.sender (.sent { data :=
      { seq := 0, endSeq := 10, payloadSize := 10, tstampPcap := ⟨1, 0⟩, tstampTcp := 1 } }),
    .sender (.sent { data :=
      { seq := 0, endSeq := 10, payloadSize := 10, tstampPcap := ⟨2, 0⟩, tstampTcp := 2
        retrans := true } }),
    .sender (.ack { ack := 5, tstampPcap := ⟨3, 0⟩ }),
    .observed (.received { data :=
      { seq := 5, endSeq := 10, payloadSize := 5, tstampPcap := ⟨3, 0⟩, tstampTcp := 2 } })]

theorem calculateLossGroupedByInterval_run_covered_half :
    ∃ rm allLoss' loss', Run.run traceStep (new 0) halfLost = .ok rm ∧
      calculateLossGroupedByInterval 1000 0 rm.ranges.entries [] [] = .ok (allLoss', loss') ∧
      loss' = [{}, ⟨1, 5, 10, 2, 10, 10⟩, ⟨1, 5, 0, 2, 10, 0⟩] ∧
      (∀ l ∈ loss', Within l) ∧ ∀ a ∈ allLoss', Within a := by
  obtain ⟨rm, hrun, hloss⟩ := Run.exists_of_any_toOption
    (x := Run.run traceStep (new 0) halfLost)
    (p := fun rm => decide ((calculateLossGroupedByInterval 1000 0 rm.ranges.entries [] []).toOption.map
      Prod.snd = some [{}, ⟨1, 5, 10, 2, 10, 10⟩, ⟨1, 5, 0, 2, 10, 0⟩])) (by decide)
  obtain ⟨allLoss', loss', hcalc, hwithin⟩ := calculateLossGroupedByInterval_run_covered
    (by decide) hrun 1000 0 (fun _ hen => hen) (List.forall_mem_nil _)
  refine ⟨rm, allLoss', loss', hrun, hcalc, ?_, hwithin⟩
  have hval := of_decide_eq_true hloss
  rw [hcalc] at hval
  exact Option.some.inj hval

end RangeManager

end AnalyseTCP
