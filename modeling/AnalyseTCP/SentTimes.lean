import AnalyseTCP.BundleHits

/-!
# Send times and the cursor in a sender trace

What `processAck` and the statistics read without a check: `sent_tstamp_pcap[0]` of every range, and
the range at `highestAckedByteRangeIt`.
-/

namespace AnalyseTCP

namespace RangeManager

/-- Every range of the map has been sent. -/
def AllSent (rm : RangeManager) : Prop := ∀ e ∈ rm.ranges.entries, e.2.sentTstampPcap ≠ []

instance (rm : RangeManager) : Decidable rm.AllSent := inferInstanceAs (Decidable (∀ e ∈ _, _))

/-! ## Every range has a send time -/

section Ranges

variable {r : ByteRange} (seg : DataSeg)

theorem recordSent_sent (rdb : Bool) (sentT : SentType) (r : ByteRange) :
    (recordSent seg rdb sentT r).sentTstampPcap ≠ [] := by
  show r.sentTstampPcap ++ [(seg.tstampPcap, sentT)] ≠ []
  simp

theorem recordSplit_sent (level : ℕ) (rdb : Bool) (r : ByteRange) :
    (recordSplit seg level rdb .sent r).sentTstampPcap ≠ [] :=
  recordSent_sent seg rdb (if level = 0 then .rtr else .none) r

theorem recordFound_sent (level : ℕ) (rdb : Bool) (r : ByteRange) :
    (recordFound seg level rdb .sent r).sentTstampPcap ≠ [] := by
  have hfound : (recordFound seg level rdb .sent r).sentTstampPcap =
      (recordSentCounts seg level rdb r).sentTstampPcap :=
    recordSentFound_blind seg level rdb r fun _ _ => rfl
  rw [hfound]
  exact recordSent_sent seg rdb _ r

theorem recordEmpty_sent (level : ℕ) (rdb : Bool) (r : ByteRange) :
    (recordEmpty seg .sent level rdb r).sentTstampPcap ≠ [] := by
  unfold recordEmpty
  dsimp only
  split
  · exact recordSent_sent seg rdb _ _
  · split
    · exact recordSent_sent seg rdb _ _
    · exact recordSent_sent seg rdb _ _

theorem finSet_sent (h : r.sentTstampPcap ≠ []) : (finSet seg r).sentTstampPcap ≠ [] := by
  rw [finSet_blind (f := ByteRange.sentTstampPcap) seg r fun _ _ => rfl]
  exact h

theorem tail_sent (h : r.sentTstampPcap ≠ []) (c : ℕ) : (r.tail c).sentTstampPcap ≠ [] := by
  show r.sentTstampPcap.map _ ≠ []
  simpa using h

end Ranges

section Steps

variable {rm rm' : RangeManager} {seg : DataSeg}

theorem pieceKeeps_sent (m : OrdMap ℕ ByteRange) (seg : DataSeg) (e : ℕ) :
    PieceKeeps m .sent seg e (fun _ => True) (fun _ en => en.2.sentTstampPcap ≠ []) where
  next _ _ _ _ _ _ _ := trivial
  old _ _ _ h _ := h
  piece l s level next en _ _ _ _ hl _ hpiece := by
    cases hpiece with
    | fresh => exact finSet_sent seg (recordSent_sent seg _ _ _)
    | whole r hmem =>
        rw [wholeRange_blind (f := ByteRange.sentTstampPcap) .sent seg level s r fun _ _ => rfl]
        exact recordFound_sent seg level _ r
    | front r hmem => exact recordFound_sent seg level _ _
    | frontRest r hmem => exact tail_sent (hl (s, r) hmem) e
    | span r hmem => exact recordFound_sent seg level _ r
    | reuse r c hmem => exact recordSent_sent seg (thisIsRdbData seg s) .pkt r
    | cutHead key r _ _ hmem => exact hl (key, r) hmem
    | back key r => exact recordSplit_sent seg level _ _
    | middle key r => exact recordSplit_sent seg level _ _
    | middleRest key r _ hmem => exact tail_sent (tail_sent (hl (key, r) hmem) s) e
    | beyond key r => exact recordSplit_sent seg level _ _

theorem emptyKeeps_sent (rm : RangeManager) (seg : DataSeg) :
    EmptyKeeps .sent seg rm fun en => en.2.sentTstampPcap ≠ [] where
  new _ := recordSent_sent seg _ _ _
  found r _ _ := recordEmpty_sent seg 0 _ r

theorem ackKeeps_sent (l : List Entry) (seg : DataSeg) :
    AckKeeps l seg fun en => en.2.sentTstampPcap ≠ [] where
  exact _ r b h := by
    have hsame : (ackExact seg b r).sentTstampPcap = r.sentTstampPcap :=
      ackExact_blind seg r _ b (fun _ _ => rfl) (fun _ _ => rfl) (fun _ => rfl) (fun _ => rfl)
        fun _ _ => rfl
    show (ackExact seg b r).sentTstampPcap ≠ []
    rw [hsame]
    exact h
  mark _ r h := by
    unfold markAcked
    split
    · exact h
    · exact h
  count _ _ h := h
  part _ r _ _ _ _ h := ⟨h, fun _ => tail_sent h _⟩

theorem senderStep_allSent {ev : SenderEvent} (hwf : WfEntries rm.ranges.entries)
    (hsent : rm.AllSent) (hsized : ev.Sized) (h : senderStep rm ev = .ok rm') : rm'.AllSent := by
  cases ev with
  | ack seg => exact (ackStep_forall (ackKeeps_sent _ seg) hwf hsent h).2.2
  | sent sd =>
      have hkept := insertSentRange_forall (P := fun en => en.2.sentTstampPcap ≠ [])
        (Q := fun _ en => en.2.sentTstampPcap ≠ []) hsized
        (fun _ => emptyKeeps_sent rm sd.data)
        (fun _ => ⟨pieceKeeps_sent rm.ranges sd.data _, trivial, hsent⟩) (fun _ hen => hen) hwf
        hsent h
      exact hkept.2

/-! ## The cursor is in the map -/

/-- `highestAckedByteRangeIt` points to a range of the map, or is `ranges.end()`. -/
def CursorValid (rm : RangeManager) : Prop :=
  ∀ c ∈ rm.highestAckedByteRangeIt, ∃ en ∈ rm.ranges.entries, en.1 = c

theorem CursorValid.mono (h : rm.CursorValid) (hkeys : OrdMap.KeysKept rm.ranges rm'.ranges)
    (hcursor : rm'.highestAckedByteRangeIt = rm.highestAckedByteRangeIt) : rm'.CursorValid := by
  intro c hc
  rw [hcursor] at hc
  obtain ⟨en, hen, rfl⟩ := h c hc
  exact hkeys en hen

/-- Wherever the loop moves the cursor, there is a range. -/
theorem ackLoop_cursorValid {rest : List Entry} {ret : Bool} {out : RangeManager × Bool}
    (hvalid : rm.CursorValid) (hwf : WfEntries rest)
    (hrest : ∀ en ∈ rest, ∃ d ∈ rm.ranges.entries, d.1 = en.1)
    (h : ackLoop seg rest rm ret = .ok out) : out.1.CursorValid := by
  induction rest generalizing rm ret with
  | nil =>
      obtain rfl := Except.ok.inj h
      exact hvalid
  | cons d rest ih =>
      obtain ⟨key, r⟩ := d
      have ⟨⟨_, hr⟩, hwf'⟩ := wfEntries_cons.mp hwf
      have hkey : ∃ d ∈ rm.ranges.entries, d.1 = key := hrest _ List.mem_cons_self
      have hmodify : ∀ (f : ByteRange → ByteRange), ∀ en ∈ (key, r) :: rest,
          ∃ d ∈ (rm.ranges.modify key f).entries, d.1 = en.1 := by
        intro f en hen
        obtain ⟨d, hd, hdk⟩ := hrest en hen
        obtain ⟨d', hd', hdk'⟩ := OrdMap.keysKept_modify rm.ranges key f d hd
        exact ⟨d', hd', hdk'.trans hdk⟩
      -- the loop moves the cursor to the range it is at
      have hat : ∀ (f : ByteRange → ByteRange), ({ rm with
          ranges := rm.ranges.modify key f
          highestAckedByteRangeIt := some key } : RangeManager).CursorValid := by
        intro f c hc
        obtain rfl : key = c := Option.some.inj hc
        exact hmodify f _ List.mem_cons_self
      rw [ackLoop] at h
      by_cases hexact : AckedExactly seg r
      · rw [ackBody_exact hexact] at h
        obtain rfl := Except.ok.inj h
        exact hat _
      rcases lt_or_split_or_old hr hexact with hend | ⟨hlo, hhi⟩ | ⟨hend, hold⟩
      · rw [ackBody_past hexact hend] at h
        cases hs : r.sentTstampPcap with
        | nil =>
            rw [hs] at h
            cases h
        | cons sent sents =>
            rw [hs] at h
            dsimp only at h
            by_cases hlate : seg.tstampPcap.before sent.1 = true
            · rw [if_pos hlate] at h
              obtain rfl := Except.ok.inj h
              exact hvalid
            · rw [if_neg hlate] at h
              exact ih (hat _) hwf' (fun en hen => hmodify _ en (List.mem_cons_of_mem _ hen)) h
      · rw [ackBody_split hr hlo hhi] at h
        obtain rfl := Except.ok.inj h
        intro c hc
        obtain rfl : seg.ack = c := Option.some.inj hc
        -- the back part is new, or its key was taken
        by_cases hfree : ∀ d ∈ (rm.ranges.modify key fun _ => ackPart seg (r.head seg.ack)).entries,
            d.1 ≠ seg.ack
        · exact ⟨(seg.ack, r.tail seg.ack), OrdMap.mem_insertEntry_self _ hfree, rfl⟩
        · simp only [not_forall, not_not] at hfree
          obtain ⟨d, hd, hdk⟩ := hfree
          obtain ⟨d', hd', hdk'⟩ := OrdMap.keysKept_insert _ seg.ack (r.tail seg.ack) d hd
          exact ⟨d', hd', hdk'.trans hdk⟩
      · rw [ackBody_old hexact hend hold] at h
        cases hout : rm.ackOld seg key r ret with
        | error e =>
            rw [hout] at h
            cases h
        | ok out' =>
            rw [hout, Run.ok_bind] at h
            obtain rfl := Except.ok.inj h
            rcases ackOld_counts hout with hrm | ⟨okey, hrm⟩
            · rw [hrm]
              exact hvalid
            · rw [hrm]
              exact hvalid.mono (OrdMap.keysKept_modify _ _ _) rfl

theorem ackStep_cursorValid (hwf : WfEntries rm.ranges.entries) (hvalid : rm.CursorValid)
    (h : ackStep rm seg = .ok rm') : rm'.CursorValid := by
  have hvalid₁ : ({ rm with ackCount := rm.ackCount + 1 } : RangeManager).CursorValid := hvalid
  obtain ⟨ret, hprocess⟩ := exists_of_ackStep h
  rcases processAck_cases hprocess with ⟨first, -, -, hout⟩ | hloop
  · obtain rfl := (Prod.mk.inj hout).1
    exact hvalid
  · exact ackLoop_cursorValid hvalid₁ (fun en hen => hwf en (mem_of_mem_resume hen))
      (fun en hen => ⟨en, mem_of_mem_resume hen, rfl⟩) hloop

/-- Sending moves ranges only, so the cursor stays where it is. -/
theorem insertByteRange_sent_cursor {s e : ℕ} {ret : Bool} (hwf : WfEntries rm.ranges.entries)
    (hle : s ≤ e) (hsize : e - s < 2 ^ 16 - 1)
    (h : rm.insertByteRange s e .sent seg 0 = .ok (rm', ret)) :
    rm'.highestAckedByteRangeIt = rm.highestAckedByteRangeIt := by
  rcases Nat.eq_or_lt_of_le hle with rfl | hlt
  · obtain ⟨rm₁, hins, hframe, -⟩ := insertByteRange_empty rm s seg
    rw [hins] at h
    obtain ⟨rfl, -⟩ := Prod.mk.inj (Except.ok.inj h)
    rw [hframe]
  · rw [insertLoop_onlyRanges (by simp) hwf hlt (fun _ => hsize) h]

/-- What `processAck` relies on, in every map that a sender trace builds. -/
structure SenderValid (rm : RangeManager) : Prop where
  wf : WfEntries rm.ranges.entries
  sent : rm.AllSent
  cursor : rm.CursorValid

theorem senderStep_valid {ev : SenderEvent} (hvalid : rm.SenderValid) (hsized : ev.Sized)
    (h : senderStep rm ev = .ok rm') : rm'.SenderValid := by
  refine ⟨senderStep_wf hvalid.wf hsized h, senderStep_allSent hvalid.wf hvalid.sent hsized h, ?_⟩
  cases ev with
  | ack seg => exact ackStep_cursorValid hvalid.wf hvalid.cursor h
  | sent sd =>
      have hsd : RangeManager.Sized sd := hsized
      have hsent : InsertType.sent ≠ .sojourn := by simp
      have hend := hsd.size
      have hbound := hsd.bound
      obtain ⟨rm₁, ret, hins, rfl⟩ := insertSentRange_cases h
      have hkeys := insertByteRange_keysKept hvalid.wf (by omega) (fun _ => by omega) hsent hins
      have hcursor := insertByteRange_sent_cursor hvalid.wf (by omega) (by omega) hins
      exact hvalid.cursor.mono hkeys hcursor

theorem senderStep_run_valid {firstSeq : ℕ} {evs : List SenderEvent}
    (hsized : ∀ ev ∈ evs, ev.Sized) (hrun : Run.run senderStep (new firstSeq) evs = .ok rm) :
    rm.SenderValid := by
  have hsteps : Run.Steps senderStep (fun _ ev => True ∧ ev.Sized) (new firstSeq) evs :=
    (Run.steps_true _ _).and_forall hsized
  have hnew : (new firstSeq).SenderValid :=
    ⟨wfEntries_nil, fun _ hen => (nomatch hen), fun _ hc => (nomatch hc)⟩
  exact Run.invariant (I := fun rm _ => rm.SenderValid) (d := [])
    (fun _ _ _ _ hinv hok hstep => senderStep_valid hinv hok.2 hstep) hnew hsteps hrun

theorem SenderValid.resume_ne_nil (h : rm.SenderValid) (hne : rm.ranges.entries ≠ []) :
    rm.resume ≠ [] := by
  intro hnil
  unfold resume at hnil
  split at hnil
  · exact hne hnil
  · next c hc =>
    obtain ⟨en, hen, hkey⟩ := h.cursor c hc
    rw [← rm.ranges.below_append_atLeast c, hnil, List.append_nil] at hen
    exact (OrdMap.lt_of_mem_below hen).ne hkey

end Steps

end RangeManager

end AnalyseTCP
