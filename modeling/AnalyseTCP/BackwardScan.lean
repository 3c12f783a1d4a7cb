import AnalyseTCP.SendSafety
import AnalyseTCP.SentTimes

/-!
# The scan for a FIN one byte below an ACK

`processAck` allows for the sequence number that a FIN takes up: when an ACK lies one byte above the
end of the range before the current one, it walks back to a range with a FIN.  The walk ends at a
range whose data was sent as often as its packets, and at nothing else; it does not look for
`begin()`.  A range that was retransmitted does not end it, and neither does the back part of a
split, which starts with no packets.
-/

namespace AnalyseTCP

namespace RangeManager

/-- An ACK one byte above the end of `prev` gets past the ranges before `en`, and is at or below the
start of `en`. -/
structure GapReached (rm : RangeManager) (prev en : Entry) : Prop where
  fits : prev.2.endSeq + 1 < 2 ^ 64
  gap : prev.2.endSeq < en.2.startSeq
  beyond : prev.2.endSeq + 1 < en.2.endSeq
  from_cursor : ∀ first ∈ rm.resume.head?, first.2.startSeq ≤ prev.2.endSeq + 1
  passed : ∀ m ∈ rm.resume, m.1 < en.1 → m.2.endSeq ≤ prev.2.endSeq ∧
    (m.2.endSeq = prev.2.endSeq → m.2.byteCount ≠ 0)

theorem gapReached_iff {rm : RangeManager} {prev en : Entry} :
    rm.GapReached prev en ↔
      prev.2.endSeq + 1 < 2 ^ 64 ∧ prev.2.endSeq < en.2.startSeq ∧
        prev.2.endSeq + 1 < en.2.endSeq ∧
        (∀ first ∈ rm.resume.head?, first.2.startSeq ≤ prev.2.endSeq + 1) ∧
        ∀ m ∈ rm.resume, m.1 < en.1 → m.2.endSeq ≤ prev.2.endSeq ∧
          (m.2.endSeq = prev.2.endSeq → m.2.byteCount ≠ 0) :=
  ⟨fun h => ⟨h.fits, h.gap, h.beyond, h.from_cursor, h.passed⟩,
    fun h => ⟨h.1, h.2.1, h.2.2.1, h.2.2.2.1, h.2.2.2.2⟩⟩

instance (rm : RangeManager) (prev en : Entry) : Decidable (rm.GapReached prev en) :=
  decidable_of_iff' _ gapReached_iff

/-- Below every gap that an ACK can come to there is a range with a FIN, or one that was not sent
again. -/
def GapsAnchored (rm : RangeManager) : Prop :=
  ∀ en ∈ rm.resume, ∀ prev ∈ (rm.ranges.below en.1).getLast?, rm.GapReached prev en →
    ∃ x ∈ rm.ranges.below en.1, EndsScan x.2

instance (rm : RangeManager) : Decidable rm.GapsAnchored :=
  inferInstanceAs (Decidable (∀ en ∈ rm.resume, ∀ prev ∈ (rm.ranges.below en.1).getLast?, _ →
    ∃ x ∈ rm.ranges.below en.1, EndsScan x.2))

section State

variable {rm : RangeManager} {seg : DataSeg} {prev en : Entry}

/-- The ranges before `en` that the loop visits are those from the cursor on. -/
theorem mem_mid_iff {pre mid post : List Entry} (hcut : rm.ranges.entries = pre ++ rm.resume)
    (hresume : rm.resume = mid ++ en :: post) {m : Entry} :
    m ∈ mid ↔ m ∈ rm.resume ∧ m.1 < en.1 := by
  have hcut' : rm.ranges.entries = (pre ++ mid) ++ (en.1, en.2) :: post := by
    rw [hcut, hresume, List.append_assoc]
  constructor
  · intro hm
    refine ⟨?_, OrdMap.lt_of_mem_pre hcut' (List.mem_append_right _ hm)⟩
    rw [hresume]
    exact List.mem_append_left _ hm
  · rintro ⟨hm, hlt⟩
    rw [hresume] at hm
    rcases List.mem_append.mp hm with hm | hm
    · exact hm
    · rcases List.mem_cons.mp hm with rfl | hm
      · exact absurd hlt (lt_irrefl _)
      · exact absurd hlt (OrdMap.lt_of_mem_post hcut' hm).not_gt

/-- What an ACK that starts the scan says about the ranges. -/
theorem gapReached_of_scan {pre mid post : List Entry} (hwf : WfEntries rm.ranges.entries)
    (hcut : rm.ranges.entries = pre ++ rm.resume) (hresume : rm.resume = mid ++ en :: post)
    (hack : seg.ack < 2 ^ 64) (hprev : (rm.ranges.below en.1).getLast? = some prev)
    (hfirst : ∀ first ∈ rm.resume.head?, first.2.startSeq ≤ seg.ack)
    (hmid : ∀ m ∈ mid, m.2.endSeq < seg.ack ∧ ¬AckedExactly seg m.2)
    (hold : seg.ack ≤ en.2.startSeq) (hexact : ¬AckedExactly seg en.2)
    (hone : sub64 seg.ack 1 = prev.2.endSeq) : rm.GapReached prev en := by
  have hmem : en ∈ rm.ranges.entries := by
    rw [hcut, hresume]
    simp
  have hen := hwf en hmem
  have hle := hen.2.le
  -- an ACK of 0 that comes to a range comes to the first of the map
  have hpos : 0 < seg.ack := by
    rcases Nat.eq_zero_or_pos seg.ack with hzero | hpos
    · cases mid with
      | nil =>
          have hstart := hfirst en (by rw [hresume]; rfl)
          have hlt := OrdMap.lt_of_mem_below (List.mem_of_getLast? hprev)
          omega
      | cons m mid =>
          have hlt := (hmid m List.mem_cons_self).1
          omega
    · exact hpos
  have hsub : sub64 seg.ack 1 = seg.ack - 1 := sub64_eq_sub hpos (by omega)
  have hnext : seg.ack = prev.2.endSeq + 1 := by omega
  have hne : seg.ack ≠ en.2.endSeq := fun h => hexact (.inl h)
  refine ⟨by omega, by omega, by omega, fun first h => by rw [← hnext]; exact hfirst first h, ?_⟩
  intro m hm hlt
  obtain ⟨hpast, hnot⟩ := hmid m ((mem_mid_iff hcut hresume).mpr ⟨hm, hlt⟩)
  refine ⟨by omega, fun heq hzero => hnot (.inr ⟨hzero, ?_⟩)⟩
  rw [hone, heq]

theorem processAck_of_gapsAnchored (hvalid : rm.SenderValid) (hne : rm.ranges.entries ≠ [])
    (hgaps : rm.GapsAnchored) (hack : seg.ack < 2 ^ 64) : ∃ out, rm.processAck seg = .ok out := by
  apply processAck_ok hvalid.wf (hvalid.resume_ne_nil hne) fun en hen _ => hvalid.sent en hen
  obtain ⟨pre, hcut, -, -⟩ := rm.resume_cut
  intro first hfirst hle en hfind hold hexact prev hprev hone
  obtain ⟨-, mid, post, hresume, hmid⟩ := List.find?_eq_some_iff_append.mp hfind
  have hmem : en ∈ rm.resume := by
    rw [hresume]
    simp
  apply hgaps en hmem prev hprev
  apply gapReached_of_scan hvalid.wf hcut hresume hack hprev _ _ hold hexact hone
  · intro first' hfirst'
    rw [hfirst] at hfirst'
    rw [← Option.some.inj hfirst']
    exact hle
  · intro m hm
    have hgoes := hmid m hm
    rw [Bool.not_eq_true', decide_eq_false_iff_not] at hgoes
    exact ⟨not_not.mp fun h => hgoes (.inl h), fun h => hgoes (.inr h)⟩

theorem exists_later (l : List Timeval) : ∃ t : Timeval, ∀ u ∈ l, t.before u = false := by
  have hsec : ∃ s : ℤ, ∀ u ∈ l, u.tvSec < s := by
    induction l with
    | nil => exact ⟨0, fun _ h => (nomatch h)⟩
    | cons u l ih =>
        obtain ⟨s, hs⟩ := ih
        refine ⟨max s (u.tvSec + 1), List.forall_mem_cons.mpr ⟨by omega, fun v hv => ?_⟩⟩
        have := hs v hv
        omega
  obtain ⟨s, hs⟩ := hsec
  refine ⟨⟨s, 0⟩, fun u hu => ?_⟩
  have hlt := hs u hu
  unfold Timeval.before
  rw [if_neg hlt.ne']
  exact decide_eq_false hlt.not_gt

/-- An ACK whose scan does not stop walks out of the map. -/
theorem processAck_error {pre mid post : List Entry} (hcut : rm.ranges.entries = pre ++ rm.resume)
    (hresume : rm.resume = mid ++ en :: post)
    (hfirst : ∀ first ∈ rm.resume.head?, first.2.startSeq ≤ seg.ack)
    (hmid : ∀ m ∈ mid, m.2.endSeq < seg.ack ∧ ¬AckedExactly seg m.2 ∧ SentBefore seg m.2)
    (hexact : ¬AckedExactly seg en.2) (hend : ¬en.2.endSeq < seg.ack)
    (hold : seg.ack ≤ en.2.startSeq) (hscan : ¬ScanEnds seg.ack (rm.ranges.below en.1)) :
    rm.processAck seg = .error .outOfRange := by
  have hentries : rm.ranges.entries = pre ++ (mid ++ en :: post) := by rw [hcut, hresume]
  have hbelow : rm.ranges.below en.1 = pre ++ mid := by
    have hcut' : rm.ranges.entries = (pre ++ mid) ++ (en.1, en.2) :: post := by
      rw [hentries, List.append_assoc]
    exact OrdMap.below_of_cut hcut'
  have hcut₁ : ({ rm with ackCount := rm.ackCount + 1 } : RangeManager).ranges.entries =
      pre ++ (mid ++ en :: post) := hentries
  rw [hbelow] at hscan
  have hloop : ackLoop seg rm.resume { rm with ackCount := rm.ackCount + 1 } false =
      .error .outOfRange := by
    rw [hresume]
    exact ackLoop_error hcut₁ hmid hexact hend hold hscan
  unfold processAck
  cases hres : rm.resume with
  | nil => rfl
  | cons d rest =>
      obtain ⟨key, first⟩ := d
      have hle : first.startSeq ≤ seg.ack := hfirst (key, first) (by rw [hres]; rfl)
      rw [hres] at hloop
      dsimp only
      rw [if_neg hle.not_gt]
      exact hloop

/-- A late ACK of the missing byte finds a gap without a range below where the scan stops. -/
theorem processAck_error_of_gap (hvalid : rm.SenderValid) (hmem : en ∈ rm.resume)
    (hprev : (rm.ranges.below en.1).getLast? = some prev) (hgap : rm.GapReached prev en)
    (hends : ∀ x ∈ rm.ranges.below en.1, ¬EndsScan x.2) :
    ∃ seg : DataSeg, seg.ack < 2 ^ 64 ∧ rm.processAck seg = .error .outOfRange := by
  -- an ACK captured after everything else gets past every range before `en`
  obtain ⟨t, ht⟩ :=
    exists_later (rm.ranges.entries.flatMap fun en => en.2.sentTstampPcap.map Prod.fst)
  obtain ⟨pre, hcut, -, -⟩ := rm.resume_cut
  obtain ⟨mid, post, hresume⟩ := List.append_of_mem hmem
  have hbeyond := hgap.beyond
  have hsub : sub64 (prev.2.endSeq + 1) 1 = prev.2.endSeq :=
    sub64_eq_sub (by omega) (by have := hgap.fits; omega)
  have hsent : ∀ m ∈ rm.ranges.entries,
      SentBefore { ack := prev.2.endSeq + 1, tstampPcap := t } m.2 := by
    intro m hm
    obtain ⟨sent, sents, hs⟩ := List.exists_cons_of_ne_nil (hvalid.sent m hm)
    refine ⟨sent, by rw [hs]; rfl, ht sent.1 ?_⟩
    apply List.mem_flatMap.mpr
    exact ⟨m, hm, by rw [hs]; exact List.mem_cons_self⟩
  refine ⟨{ ack := prev.2.endSeq + 1, tstampPcap := t }, hgap.fits, ?_⟩
  apply processAck_error hcut hresume hgap.from_cursor
  · intro m hm
    obtain ⟨hin, hlt⟩ := (mem_mid_iff hcut hresume).mp hm
    obtain ⟨hle, hbytes⟩ := hgap.passed m hin hlt
    refine ⟨Nat.lt_succ_of_le hle, ?_, hsent m (mem_of_mem_resume hin)⟩
    rintro (h | ⟨hzero, h⟩)
    · exact absurd h (Nat.lt_succ_of_le hle).ne'
    · exact hbytes (h.symm.trans hsub) hzero
  · rintro (h | ⟨-, h⟩)
    · exact absurd h hbeyond.ne
    · have heq : prev.2.endSeq = en.2.endSeq := hsub.symm.trans h
      omega
  · exact hbeyond.not_gt
  · exact hgap.gap
  · intro hscan
    obtain ⟨x, hx, hend⟩ := hscan prev hprev hsub
    exact hends x hx hend

end State

/-! ## Every reachable map -/

section Runs

variable {firstSeq : ℕ} {rm : RangeManager} {evs : List SenderEvent}

/-- On every map that a sender trace builds, all ACKs are processed inside the map exactly when
every gap that one can come to has a range below where the scan stops. -/
theorem processAck_stays_inside_iff (hsized : ∀ ev ∈ evs, ev.Sized)
    (hrun : Run.run senderStep (new firstSeq) evs = .ok rm) (hne : rm.ranges.entries ≠ []) :
    (∀ seg : DataSeg, seg.ack < 2 ^ 64 → ∃ out, rm.processAck seg = .ok out) ↔
      rm.GapsAnchored := by
  have hvalid := senderStep_run_valid hsized hrun
  constructor
  · -- a gap without such a range is found out by the ACK of its first byte
    intro hall en hmem prev hprev hgap
    by_contra hnot
    have hends : ∀ x ∈ rm.ranges.below en.1, ¬EndsScan x.2 := fun x hx h => hnot ⟨x, hx, h⟩
    obtain ⟨seg, hack, herror⟩ := processAck_error_of_gap hvalid hmem hprev hgap hends
    obtain ⟨out, hout⟩ := hall seg hack
    rw [herror] at hout
    cases hout
  · intro hgaps seg hack
    exact processAck_of_gapsAnchored hvalid hne hgaps hack

/-- A range at the start of the map that ends the scan anchors every gap. -/
theorem gapsAnchored_of_start (h : ∃ x ∈ rm.ranges.entries, x.1 = 0 ∧ EndsScan x.2) :
    rm.GapsAnchored := by
  obtain ⟨x, hx, hzero, hends⟩ := h
  intro en _ prev hprev _
  have hlt := OrdMap.lt_of_mem_below (List.mem_of_getLast? hprev)
  exact ⟨x, OrdMap.mem_below hx (by omega), hends⟩

end Runs

/-! ## A first packet that is not sent again -/

/-- A range at the start of the map counts as many transmissions of packets as of data. -/
def StartSentOnce (en : Entry) : Prop := en.1 = 0 → en.2.packetSentCount = en.2.dataSentCount

/-- A packet after the first starts above it. -/
def SenderEvent.AboveStart : SenderEvent → Prop
  | .sent sd => 0 < sd.data.seq
  | .ack _ => True

section Start

variable {rm rm' : RangeManager} {seg : DataSeg} {sd : SendData} {firstSeq : ℕ}

theorem StartSentOnce.of_ne {en : Entry} (h : en.1 ≠ 0) : StartSentOnce en := fun h' => absurd h' h

theorem pieceKeeps_startSentOnce (m : OrdMap ℕ ByteRange) (seg : DataSeg) (e : ℕ) :
    PieceKeeps m .sent seg e (fun s => 0 < s) (fun _ en => StartSentOnce en) where
  next _ _ _ _ hlo _ _ := Nat.zero_lt_of_lt hlo
  old _ _ _ h _ := h
  piece l s level next en _ _ hlt hpos hl _ hpiece := by
    have hs : s ≠ 0 := Nat.ne_of_gt hpos
    have he : e ≠ 0 := by omega
    cases hpiece with
    -- only the head of a cut can be at the start
    | cutHead key r _ _ hmem => exact hl (key, r) hmem
    | fresh => exact .of_ne hs
    | whole => exact .of_ne hs
    | front => exact .of_ne hs
    | frontRest => exact .of_ne he
    | span => exact .of_ne hs
    | reuse => exact .of_ne hs
    | back => exact .of_ne hs
    | middle => exact .of_ne hs
    | middleRest => exact .of_ne he
    | beyond => exact .of_ne hs

theorem emptyRange_sentOnce (seg : DataSeg) (rdb : Bool) (q : ℕ) :
    (emptyRange seg rdb q).packetSentCount = (emptyRange seg rdb q).dataSentCount := by
  unfold emptyRange recordSent ByteRange.increaseSent
  cases seg.noFlags with
  | false => rfl
  | true => rfl

/-- Of the later packets without payload only pure ACKs can be registered at the start. -/
theorem emptyKeeps_startSentOnce (rm : RangeManager) (hpos : 0 < seg.seq) :
    EmptyKeeps .sent seg rm StartSentOnce where
  new _ _ := emptyRange_sentOnce seg _ _
  found r _ h hzero := by
    have hflags : seg.noFlags = true := by
      by_contra hflags
      have hseq : rm.emptySeq seg seg.seq = seg.seq := if_neg fun h => hflags h.1
      have hq : rm.emptySeq seg seg.seq = 0 := hzero
      omega
    unfold DataSeg.noFlags at hflags
    simp only [Bool.and_eq_true, Bool.not_eq_true'] at hflags
    obtain ⟨⟨hsyn, hfin⟩, hrst⟩ := hflags
    have hr : r.packetSentCount = r.dataSentCount := h hzero
    show (recordEmpty seg .sent 0 _ r).packetSentCount = (recordEmpty seg .sent 0 _ r).dataSentCount
    unfold recordEmpty
    dsimp only
    rw [hsyn, hfin, hrst]
    show r.packetSentCount + _ = r.dataSentCount + _
    rw [hr]
    rfl

theorem ackKeeps_startSentOnce (l : List Entry) (seg : DataSeg) :
    AckKeeps l seg StartSentOnce where
  exact _ r b h hzero := by
    have hcounts : ∀ f : ByteRange → Counter 8, f = ByteRange.packetSentCount ∨
        f = ByteRange.dataSentCount → f (ackExact seg b r) = f r := by
      rintro f (rfl | rfl)
      · exact ackExact_blind seg r _ b (fun _ _ => rfl) (fun _ _ => rfl) (fun _ => rfl)
          (fun _ => rfl) fun _ _ => rfl
      · exact ackExact_blind seg r _ b (fun _ _ => rfl) (fun _ _ => rfl) (fun _ => rfl)
          (fun _ => rfl) fun _ _ => rfl
    show (ackExact seg b r).packetSentCount = (ackExact seg b r).dataSentCount
    rw [hcounts _ (.inl rfl), hcounts _ (.inr rfl)]
    exact h hzero
  mark _ r h := by
    unfold markAcked
    split
    · exact h
    · exact h
  count _ _ h := h
  part key r _ _ hlo _ h := ⟨h, fun _ => .of_ne (Nat.ne_of_gt (Nat.zero_lt_of_lt hlo))⟩

/-- The first packet makes a range that counts it once. -/
theorem insertSentRange_startSentOnce (hsized : Sized sd) (hrdb : sd.data.isRdb = false)
    (h : (new firstSeq).insertSentRange sd = .ok rm') :
    ∀ en ∈ rm'.ranges.entries, StartSentOnce en := by
  have hempty : EmptyKeeps .sent sd.data (new firstSeq) StartSentOnce :=
    ⟨fun _ _ => emptyRange_sentOnce _ _ _, fun r hr => (nomatch hr)⟩
  have hdata : PieceKeeps (new firstSeq).ranges .sent sd.data sd.data.endSeq (fun _ => True)
      fun next en => next = none ∧ StartSentOnce en := by
    refine ⟨fun _ _ _ _ _ _ _ => trivial, fun _ _ _ h _ => (nomatch h.1), ?_⟩
    intro l s level next en _ _ _ _ hl _ hpiece
    have hnil : l = [] := List.eq_nil_iff_forall_not_mem.mpr fun en hen => (nomatch (hl en hen).1)
    subst hnil
    -- every other piece is made from an entry
    cases hpiece with
    | fresh =>
        refine ⟨rfl, fun _ => ?_⟩
        unfold freshRange
        rw [finSet_blind (f := ByteRange.packetSentCount) _ _ fun _ _ => rfl,
          finSet_blind (f := ByteRange.dataSentCount) _ _ fun _ _ => rfl, hrdb]
        rfl
    | _ => contradiction
  exact (insertSentRange_forall hsized (fun _ => hempty)
    (fun _ => ⟨hdata, trivial, fun _ hen => (nomatch hen)⟩) (fun _ hen => hen.2) wfEntries_nil
    (fun _ hen => (nomatch hen)) h).2

/-- The range that the first packet made. -/
structure StartAnchored (rm : RangeManager) : Prop where
  wf : WfEntries rm.ranges.entries
  start : rm.StartsAtZero
  once : ∀ en ∈ rm.ranges.entries, StartSentOnce en

theorem senderStep_startAnchored {ev : SenderEvent} (hinv : rm.StartAnchored) (hsized : ev.Sized)
    (habove : ev.AboveStart) (h : senderStep rm ev = .ok rm') : rm'.StartAnchored := by
  cases ev with
  | ack seg =>
      obtain ⟨hkeys, hwf, honce⟩ :=
        ackStep_forall (ackKeeps_startSentOnce _ seg) hinv.wf hinv.once h
      refine ⟨hwf, ?_, honce⟩
      obtain ⟨en, hen, hzero⟩ := hinv.start
      obtain ⟨d, hd, hkey⟩ := hkeys en hen
      exact ⟨d, hd, hkey.trans hzero⟩
  | sent sd =>
      have hpos : 0 < sd.data.seq := habove
      obtain ⟨hwf, honce⟩ := insertSentRange_forall hsized
        (fun _ => emptyKeeps_startSentOnce rm hpos)
        (fun _ => ⟨pieceKeeps_startSentOnce rm.ranges sd.data _, hpos, hinv.once⟩)
        (fun _ hen => hen) hinv.wf hinv.once h
      exact ⟨hwf, insertSentRange_startsAtZero hinv.wf hsized hinv.start h, honce⟩

/-- As long as no packet starts where the first one did, no ACK leaves the map. -/
theorem processAck_run_stays_inside {evs : List SenderEvent} (hfirst : sd.data.seq = 0)
    (hrdb : sd.data.isRdb = false) (hsized : Sized sd)
    (hevs : ∀ ev ∈ evs, ev.Sized ∧ ev.AboveStart)
    (hrun : Run.run senderStep (new firstSeq) (.sent sd :: evs) = .ok rm)
    (hack : seg.ack < 2 ^ 64) : ∃ out, rm.processAck seg = .ok out := by
  have hall : ∀ ev ∈ SenderEvent.sent sd :: evs, ev.Sized :=
    List.forall_mem_cons.mpr ⟨hsized, fun ev hev => (hevs ev hev).1⟩
  have hvalid := senderStep_run_valid hall hrun
  obtain ⟨rm₁, hstep, hrest⟩ := Run.exists_of_run_cons hrun
  have hsent : (new firstSeq).insertSentRange sd = .ok rm₁ := hstep
  have hstart : rm₁.StartAnchored :=
    ⟨insertSentRange_wf wfEntries_nil hsized hsent, insertSentRange_first hfirst hsized hsent,
      insertSentRange_startSentOnce hsized hrdb hsent⟩
  have hsteps : Run.Steps senderStep (fun _ ev => True ∧ ev.Sized ∧ ev.AboveStart) rm₁ evs :=
    (Run.steps_true _ _).and_forall hevs
  have hend : rm.StartAnchored :=
    Run.invariant (I := fun rm _ => rm.StartAnchored) (d := [])
      (fun _ _ _ _ hinv hok hstep => senderStep_startAnchored hinv hok.2.1 hok.2.2 hstep) hstart
      hsteps hrest
  obtain ⟨en, hen, hzero⟩ := hend.start
  have hcounts : en.2.packetSentCount = en.2.dataSentCount := hend.once en hen hzero
  have hgaps : rm.GapsAnchored :=
    gapsAnchored_of_start ⟨en, hen, hzero, .inr (congrArg Counter.val hcounts)⟩
  exact processAck_of_gapsAnchored hvalid (List.ne_nil_of_mem hen) hgaps hack

end Start

/-- A SYN and four bytes, and four more behind a gap of one byte. -/
def byteGap : List SenderEvent :=
  [.sent { data := { seq := 0, endSeq := 0, flags := thSyn } },
    .sent { data := { seq := 1, endSeq := 5, payloadSize := 4 } },
    .sent { data := { seq := 6, endSeq := 10, payloadSize := 4 } }]

/-- The same, with the SYN and the first data sent twice. -/
def resentByteGap : List SenderEvent :=
  [.sent { data := { seq := 0, endSeq := 0, flags := thSyn } },
    .sent { data := { seq := 0, endSeq := 0, flags := thSyn, retrans := true } },
    .sent { data := { seq := 1, endSeq := 5, payloadSize := 4 } },
    .sent { data := { seq := 1, endSeq := 5, payloadSize := 4, retrans := true } },
    .sent { data := { seq := 6, endSeq := 10, payloadSize := 4 } }]

theorem processAck_stays_inside_iff_gap :
    ∃ rm, Run.run senderStep (new 0) byteGap = .ok rm ∧
      ((∀ seg : DataSeg, seg.ack < 2 ^ 64 → ∃ out, rm.processAck seg = .ok out) ↔
        rm.GapsAnchored) ∧ rm.GapsAnchored := by
  have hrun : ∃ rm, Run.run senderStep (new 0) byteGap = .ok rm ∧
      decide (rm.ranges.entries ≠ [] ∧ rm.GapsAnchored) = true :=
    Run.exists_of_any_toOption (by decide +kernel)
  obtain ⟨rm, hrm, hok⟩ := hrun
  obtain ⟨hne, hgaps⟩ := of_decide_eq_true hok
  exact ⟨rm, hrm, processAck_stays_inside_iff (by decide) hrm hne, hgaps⟩

/-- After the retransmissions, an ACK of the missing byte walks past the start of the map. -/
theorem processAck_walks_out_of_map :
    ∃ rm, Run.run senderStep (new 0) resentByteGap = .ok rm ∧
      rm.processAck { ack := 6, tstampPcap := ⟨1, 0⟩ } = .error .outOfRange := by
  have hrun : ∃ rm, Run.run senderStep (new 0) resentByteGap = .ok rm ∧
      (match rm.processAck { ack := 6, tstampPcap := ⟨1, 0⟩ } with
        | .error .outOfRange => true
        | _ => false) = true :=
    Run.exists_of_any_toOption (by decide +kernel)
  obtain ⟨rm, hrm, hout⟩ := hrun
  refine ⟨rm, hrm, ?_⟩
  split at hout
  · assumption
  · cases hout

end RangeManager

end AnalyseTCP
