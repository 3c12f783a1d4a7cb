import AnalyseTCP.InsertPieces
import AnalyseTCP.AckTimes
import AnalyseTCP.Disjointness

/-!
# Sender and receiver traces

The program reads the whole sender trace first, sent packets and the ACKs that come back, and then
the receiver trace.  Three rules, one for each kind of packet, say what every entry of the map keeps
when the packet is handled, whatever the shape of the map.
-/

namespace AnalyseTCP

namespace RangeManager

/-! ## Packets without payload -/

/-- The entries after a packet without payload. -/
theorem insertByteRange_empty_mem {rm rm' : RangeManager} {s level : ℕ} {itype : InsertType}
    {seg : DataSeg} {ret : Bool} (h : rm.insertByteRange s s itype seg level = .ok (rm', ret)) :
    rm'.lastSeq = rm.lastSeq ∧ ∀ en ∈ rm'.ranges.entries, en ∈ rm.ranges.entries ∨
      (rm.ranges.find? (rm.emptySeq seg s) = none ∧
        en = (rm.emptySeq seg s, emptyRange seg (thisIsRdbData seg s) (rm.emptySeq seg s))) ∨
      ∃ r, (rm.emptySeq seg s, r) ∈ rm.ranges.entries ∧
        en = (rm.emptySeq seg s, recordEmpty seg itype level (thisIsRdbData seg s) r) := by
  unfold insertByteRange at h
  rw [insertLoop] at h
  unfold insertBody insertEmpty at h
  rw [if_pos rfl] at h
  dsimp only at h
  cases hfind : rm.ranges.find? (rm.emptySeq seg s) with
  | none =>
      rw [hfind, newEmptyRange_eq] at h
      obtain ⟨rfl, -⟩ := Prod.mk.inj (Except.ok.inj h)
      refine ⟨rfl, fun en hen => ?_⟩
      rcases OrdMap.mem_insert hen with rfl | hen
      · exact .inr (.inl ⟨rfl, rfl⟩)
      · exact .inl hen
  | some r =>
      rw [hfind] at h
      obtain ⟨rfl, -⟩ := Prod.mk.inj (Except.ok.inj h)
      refine ⟨rfl, fun en hen => ?_⟩
      rcases OrdMap.mem_modify hen with hen | ⟨r, hr, rfl⟩
      · exact .inl hen
      · exact .inr (.inr ⟨r, hr, rfl⟩)

/-- What a packet without payload must keep. -/
structure EmptyKeeps (itype : InsertType) (seg : DataSeg) (rm : RangeManager)
    (P : Entry → Prop) : Prop where
  new : rm.ranges.find? (rm.emptySeq seg seg.seq) = none → P (rm.emptySeq seg seg.seq,
    emptyRange seg (thisIsRdbData seg seg.seq) (rm.emptySeq seg seg.seq))
  found : ∀ r, (rm.emptySeq seg seg.seq, r) ∈ rm.ranges.entries →
    P (rm.emptySeq seg seg.seq, r) →
    P (rm.emptySeq seg seg.seq, recordEmpty seg itype 0 (thisIsRdbData seg seg.seq) r)

theorem insertByteRange_empty_forall {rm rm' : RangeManager} {itype : InsertType} {seg : DataSeg}
    {ret : Bool} {P : Entry → Prop} (hkeeps : EmptyKeeps itype seg rm P)
    (hwf : WfEntries rm.ranges.entries) (hP : ∀ en ∈ rm.ranges.entries, P en)
    (h : rm.insertByteRange seg.seq seg.seq itype seg 0 = .ok (rm', ret)) :
    WfEntries rm'.ranges.entries ∧ ∀ en ∈ rm'.ranges.entries, P en := by
  obtain ⟨-, hmem⟩ := insertByteRange_empty_mem h
  refine ⟨fun en hen => ?_, fun en hen => ?_⟩
  · rcases hmem en hen with hen | ⟨hnone, rfl⟩ | ⟨r, hr, rfl⟩
    · exact hwf en hen
    · exact ⟨rfl, by simp [ByteRange.wf_iff]⟩
    · have hr' : _ = r.startSeq ∧ r.Wf := hwf _ hr
      simpa [ByteRange.wf_iff] using hr'
  · rcases hmem en hen with hen | ⟨hnone, rfl⟩ | ⟨r, hr, rfl⟩
    · exact hP en hen
    · exact hkeeps.new hnone
    · exact hkeeps.found r hr (hP _ hr)

/-! ## ACKs -/

/-- What an ACK must keep; `l` are the entries before it. -/
structure AckKeeps (l : List Entry) (seg : DataSeg) (P : Entry → Prop) : Prop where
  exact : ∀ key r b, P (key, r) → P (key, ackExact seg b r)
  mark : ∀ key r, P (key, r) → P (key, markAcked seg r)
  count : ∀ key r, P (key, r) → P (key, countAck r)
  part : ∀ key r, key = r.startSeq → r.Wf → r.startSeq < seg.ack → seg.ack < r.endSeq →
    P (key, r) → P (key, ackPart seg (r.head seg.ack)) ∧
      ((∀ o ∈ l, o.1 ≠ seg.ack) → P (seg.ack, r.tail seg.ack))

section Ack

variable {seg : DataSeg} {P : Entry → Prop}

theorem forall_modify {m : OrdMap ℕ ByteRange} {key : ℕ} {f : ByteRange → ByteRange}
    (hf : ∀ r, P (key, r) → P (key, f r)) (hP : ∀ en ∈ m.entries, P en) :
    ∀ en ∈ (m.modify key f).entries, P en := by
  intro en hen
  rcases OrdMap.mem_modify hen with hen | ⟨r, hr, rfl⟩
  · exact hP en hen
  · exact hf r (hP _ hr)

theorem ackLoop_forall {m : OrdMap ℕ ByteRange} (hkeeps : AckKeeps m.entries seg P)
    {rest : List Entry} {rm : RangeManager} {ret : Bool} {out : RangeManager × Bool}
    (hkeys : OrdMap.KeysKept m rm.ranges) (hwf : WfEntries rest) (hrest : ∀ en ∈ rest, P en)
    (hP : ∀ en ∈ rm.ranges.entries, P en) (h : ackLoop seg rest rm ret = .ok out) :
    OrdMap.KeysKept rm.ranges out.1.ranges ∧ ∀ en ∈ out.1.ranges.entries, P en := by
  -- over the ranges ahead; `m` is the map before the loop, whose keys are never removed
  induction rest generalizing rm ret with
  | nil =>
      obtain rfl := Except.ok.inj h
      exact ⟨.refl _, hP⟩
  | cons d rest ih =>
      obtain ⟨key, r⟩ := d
      have ⟨⟨hkey, hr⟩, hwf'⟩ := wfEntries_cons.mp hwf
      have hPr : P (key, r) := hrest _ List.mem_cons_self
      rw [ackLoop] at h
      by_cases hexact : AckedExactly seg r
      · rw [ackBody_exact hexact] at h
        obtain rfl := Except.ok.inj h
        exact ⟨OrdMap.keysKept_modify _ _ _, forall_modify (fun r => hkeeps.exact key r _) hP⟩
      rcases lt_or_split_or_old hr hexact with hend | ⟨hlo, hhi⟩ | ⟨hend, hold⟩
      · rw [ackBody_past hexact hend] at h
        cases hs : r.sentTstampPcap with
        | nil =>
            rw [hs] at h
            cases h
        | cons sent sents =>
            rw [hs] at h
            dsimp only at h
            by_cases hlate : seg.tstampPcap.before sent.1 = true
            · rw [if_pos hlate] at h
              obtain rfl := Except.ok.inj h
              exact ⟨.refl _, hP⟩
            · rw [if_neg hlate] at h
              have hmod := OrdMap.keysKept_modify rm.ranges key (markAcked seg)
              obtain ⟨hkept, hP'⟩ := ih (hkeys.trans hmod) hwf'
                (fun en hen => hrest en (List.mem_cons_of_mem _ hen))
                (forall_modify (fun r => hkeeps.mark key r) hP) h
              exact ⟨hmod.trans hkept, hP'⟩
      · rw [ackBody_split hr hlo hhi] at h
        obtain rfl := Except.ok.inj h
        obtain ⟨hpart, htail⟩ := hkeeps.part key r hkey hr hlo hhi hPr
        refine ⟨keysKept_cut _ _ _ _ _, fun en hen => ?_⟩
        rcases mem_cut hen with hen | rfl | ⟨rfl, hfree⟩
        · exact hP en hen
        · exact hpart
        · -- the tail needs its key free in `m`, and the cut says so for the current map
          exact htail (OrdMap.free_of_kept hkeys hfree)
      · rw [ackBody_old hexact hend hold] at h
        cases hout : rm.ackOld seg key r ret with
        | error e =>
            rw [hout] at h
            cases h
        | ok out' =>
            rw [hout, Run.ok_bind] at h
            obtain rfl := Except.ok.inj h
            rcases ackOld_counts hout with hrm | ⟨okey, hrm⟩
            · rw [hrm]
              exact ⟨.refl _, hP⟩
            · rw [hrm]
              exact ⟨OrdMap.keysKept_modify _ _ _, forall_modify (fun r => hkeeps.count okey r) hP⟩

theorem ackKeeps_wf (l : List Entry) (seg : DataSeg) :
    AckKeeps l seg fun en => en.1 = en.2.startSeq ∧ en.2.Wf where
  exact _ r b h :=
    ⟨h.1.trans (ackExact_startSeq seg r b).symm,
      h.2.congr (ackExact_startSeq seg r b) (ackExact_endSeq seg r b) (ackExact_byteCount seg r b)⟩
  mark _ r h :=
    ⟨h.1.trans (markAcked_startSeq seg r).symm,
      h.2.congr (markAcked_startSeq seg r) (markAcked_endSeq seg r) (markAcked_byteCount seg r)⟩
  count _ _ h := ⟨h.1, h.2.congr rfl rfl rfl⟩
  part _ _ hkey hr hlo hhi _ :=
    ⟨⟨hkey, (hr.head hlo.le hhi.le).congr rfl rfl rfl⟩, fun _ => ⟨rfl, hr.tail hlo.le hhi.le⟩⟩

theorem ackStep_forall {rm rm' : RangeManager} (hkeeps : AckKeeps rm.ranges.entries seg P)
    (hwf : WfEntries rm.ranges.entries) (hP : ∀ en ∈ rm.ranges.entries, P en)
    (h : ackStep rm seg = .ok rm') :
    OrdMap.KeysKept rm.ranges rm'.ranges ∧ WfEntries rm'.ranges.entries ∧
      ∀ en ∈ rm'.ranges.entries, P en := by
  have hwf' : WfEntries rm.resume := fun en hen => hwf en (mem_of_mem_resume hen)
  obtain ⟨ret, hprocess⟩ := exists_of_ackStep h
  rcases processAck_cases hprocess with ⟨first, -, -, hout⟩ | hloop
  · obtain rfl := (Prod.mk.inj hout).1
    exact ⟨.refl _, hwf, hP⟩
  · have hwf₁ : WfEntries
        ({ rm with ackCount := rm.ackCount + 1 } : RangeManager).ranges.entries := hwf
    have hP₁ : ∀ en ∈ ({ rm with ackCount := rm.ackCount + 1 } : RangeManager).ranges.entries,
        P en := hP
    have hkeys : OrdMap.KeysKept rm.ranges
        ({ rm with ackCount := rm.ackCount + 1 } : RangeManager).ranges := .refl _
    obtain ⟨hkept, hP'⟩ :=
      ackLoop_forall hkeeps hkeys hwf' (fun en hen => hP en (mem_of_mem_resume hen)) hP₁ hloop
    exact ⟨hkept, (ackLoop_forall (ackKeeps_wf _ seg) hkeys hwf' hwf' hwf₁ hloop).2, hP'⟩

end Ack

/-! ## Packets -/

section Packets

variable {rm rm' : RangeManager} {sd : SendData} {P : Entry → Prop} {G : ℕ → Prop}
  {Q : Option ℕ → Entry → Prop}

theorem insertSentRange_forall (hsized : Sized sd)
    (hempty : sd.data.payloadSize = 0 → EmptyKeeps .sent sd.data rm P)
    (hdata : sd.data.payloadSize ≠ 0 →
      PieceKeeps rm.ranges .sent sd.data sd.data.endSeq G Q ∧ G sd.data.seq ∧
        ∀ en ∈ rm.ranges.entries, Q (some sd.data.seq) en)
    (hdone : ∀ en, Q none en → P en) (hwf : WfEntries rm.ranges.entries)
    (hP : ∀ en ∈ rm.ranges.entries, P en) (h : rm.insertSentRange sd = .ok rm') :
    WfEntries rm'.ranges.entries ∧ ∀ en ∈ rm'.ranges.entries, P en := by
  have hend := hsized.size
  have hbound := hsized.bound
  obtain ⟨rm₁, ret, hins, rfl⟩ := insertSentRange_cases h
  by_cases hsize : sd.data.payloadSize = 0
  · have hseq : sd.data.endSeq = sd.data.seq := by omega
    rw [hseq] at hins
    have hkept := insertByteRange_empty_forall (hempty hsize) hwf hP hins
    exact hkept
  · have hlt : sd.data.seq < sd.data.endSeq := by omega
    obtain ⟨hkeeps, hG, hQ⟩ := hdata hsize
    obtain ⟨-, hwf', hQ'⟩ :=
      insertLoop_forall (by simp) hkeeps (.refl _) hlt hG (fun _ => by omega) hwf hQ hins
    exact ⟨hwf', fun en hen => hdone en (hQ' en hen)⟩

theorem insertReceivedRange_forall (hle : sd.data.seq ≤ sd.data.endSeq)
    (hempty : sd.data.seq = sd.data.endSeq → EmptyKeeps .recv (receivedSeg sd) rm P)
    (hdata : sd.data.seq < sd.data.endSeq →
      PieceKeeps rm.ranges .recv (receivedSeg sd) sd.data.endSeq G Q ∧ G sd.data.seq ∧
        ∀ en ∈ rm.ranges.entries, Q (some sd.data.seq) en)
    (hdone : ∀ en, Q none en → P en) (hwf : WfEntries rm.ranges.entries)
    (hP : ∀ en ∈ rm.ranges.entries, P en) (h : rm.insertReceivedRange sd = .ok rm') :
    WfEntries rm'.ranges.entries ∧ ∀ en ∈ rm'.ranges.entries, P en := by
  obtain ⟨⟨rm₁, ret⟩, hins, hrm⟩ := Run.exists_of_bind_ok h
  obtain rfl : rm₁ = rm' := Except.ok.inj hrm
  rcases Nat.eq_or_lt_of_le hle with heq | hlt
  · have hins' : rm.insertByteRange (receivedSeg sd).seq (receivedSeg sd).seq .recv
        (receivedSeg sd) 0 = .ok (rm₁, ret) := by
      have hend : (receivedSeg sd).endSeq = (receivedSeg sd).seq := heq.symm
      rw [hend] at hins
      exact hins
    exact insertByteRange_empty_forall (hempty heq) hwf hP hins'
  · obtain ⟨hkeeps, hG, hQ⟩ := hdata hlt
    obtain ⟨-, hwf', hQ'⟩ :=
      insertLoop_forall (by simp) hkeeps (.refl _) hlt hG (fun h => nomatch h) hwf hQ hins
    exact ⟨hwf', fun en hen => hdone en (hQ' en hen)⟩

end Packets

/-! ## The sender trace -/

/-- A packet of the sender trace: sent by the sender, or an ACK that comes back. -/
inductive SenderEvent
  | sent (sd : SendData)
  | ack (seg : DataSeg)

def senderStep (rm : RangeManager) : SenderEvent → Except Abort RangeManager
  | .sent sd => rm.insertSentRange sd
  | .ack seg => ackStep rm seg

/-- Sent packets are as the capture hands them over. -/
def SenderEvent.Sized : SenderEvent → Prop
  | .sent sd => RangeManager.Sized sd
  | .ack _ => True

instance : (ev : SenderEvent) → Decidable ev.Sized
  | .sent sd => inferInstanceAs (Decidable (RangeManager.Sized sd))
  | .ack _ => inferInstanceAs (Decidable True)

/-- Every map that the sender trace builds is well-formed. -/
theorem senderStep_wf {rm rm' : RangeManager} {ev : SenderEvent} (hwf : WfEntries rm.ranges.entries)
    (hsized : ev.Sized) (h : senderStep rm ev = .ok rm') : WfEntries rm'.ranges.entries := by
  cases ev with
  | ack seg =>
      have hkeeps : AckKeeps rm.ranges.entries seg fun _ => True :=
        ⟨fun _ _ _ _ => trivial, fun _ _ _ => trivial, fun _ _ _ => trivial,
          fun _ _ _ _ _ _ _ => ⟨trivial, fun _ => trivial⟩⟩
      exact (ackStep_forall hkeeps hwf (fun _ _ => trivial) h).2.1
  | sent sd =>
      have hempty : EmptyKeeps .sent sd.data rm fun _ => True :=
        ⟨fun _ => trivial, fun _ _ _ => trivial⟩
      exact (insertSentRange_forall hsized (fun _ => hempty)
        (fun _ => ⟨pieceKeeps_true _ _ _ _, trivial, fun _ _ => trivial⟩) (fun _ _ => trivial) hwf
        (fun _ _ => trivial) h).1

theorem senderStep_run_wf {firstSeq : ℕ} {evs : List SenderEvent} {rm : RangeManager}
    (hsized : ∀ ev ∈ evs, ev.Sized) (hrun : Run.run senderStep (new firstSeq) evs = .ok rm) :
    WfEntries rm.ranges.entries := by
  have hsteps : Run.Steps senderStep (fun _ ev => True ∧ ev.Sized) (new firstSeq) evs :=
    (Run.steps_true _ _).and_forall hsized
  have hnew : WfEntries (new firstSeq).ranges.entries := wfEntries_nil
  exact Run.invariant (I := fun rm _ => WfEntries rm.ranges.entries) (d := [])
    (fun _ _ _ _ hinv hok hstep => senderStep_wf hinv hok.2 hstep) hnew hsteps hrun

end RangeManager

end AnalyseTCP
