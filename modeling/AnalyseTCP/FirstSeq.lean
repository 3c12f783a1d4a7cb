import AnalyseTCP.ProcessAck
import AnalyseTCP.InsertLoop

/-!
# The initial sequence number

The ranges are kept in relative sequence numbers, so `firstSeq` should not matter to them.  The one
place where it does is the check for "the ack on the syn-ack" in `insertByteRange`, which compares
the relative end of a received segment with the absolute `firstSeq + 1`.
-/

namespace AnalyseTCP

namespace RangeManager

/-- The same manager for a connection with another initial sequence number. -/
def withFirst (f : ℕ) (rm : RangeManager) : RangeManager := { rm with firstSeq := f }

def Outcome.withFirst (f : ℕ) : Outcome → Outcome
  | .done rm ret => .done (rm.withFirst f) ret
  | .again rm startSeq => .again (rm.withFirst f) startSeq

/-- The results of two computations, up to the initial sequence number. -/
def withFirstFst (f : ℕ) (out : RangeManager × Bool) : RangeManager × Bool :=
  (out.1.withFirst f, out.2)

theorem withFirst_ranges (f : ℕ) (rm : RangeManager) : (rm.withFirst f).ranges = rm.ranges := rfl

theorem withFirst_firstSeq (f : ℕ) (rm : RangeManager) : (rm.withFirst f).firstSeq = f := rfl

theorem withFirst_lastSeq (f : ℕ) (rm : RangeManager) : (rm.withFirst f).lastSeq = rm.lastSeq := rfl

section Insert

variable (f : ℕ) (rm : RangeManager) (startSeq endSeq : ℕ) (itype : InsertType) (seg : DataSeg)
  (level key : ℕ) (br : ByteRange)

theorem emptySeq_withFirst : (rm.withFirst f).emptySeq seg startSeq = rm.emptySeq seg startSeq :=
  rfl

theorem searchWindow_withFirst :
    (rm.withFirst f).searchWindow startSeq endSeq = rm.searchWindow startSeq endSeq := rfl

theorem insertEmpty_withFirst :
    (rm.withFirst f).insertEmpty startSeq itype seg level =
      (rm.insertEmpty startSeq itype seg level).map (Outcome.withFirst f) := by
  unfold insertEmpty
  rw [emptySeq_withFirst, withFirst_ranges]
  dsimp only
  cases rm.ranges.find? (rm.emptySeq seg startSeq) with
  | none =>
      cases newEmptyRange seg (thisIsRdbData seg startSeq) (rm.emptySeq seg startSeq) with
      | error e => rfl
      | ok r => rfl
  | some _ => rfl

theorem insertNew_withFirst :
    (rm.withFirst f).insertNew startSeq endSeq itype seg =
      (rm.insertNew startSeq endSeq itype seg).map (Outcome.withFirst f) := by
  unfold insertNew
  cases itype with
  | sent => cases newDataRange startSeq endSeq seg <;> rfl
  | recv => rfl
  | sojourn => rfl

theorem splitExisting_withFirst :
    (rm.withFirst f).splitExisting startSeq endSeq itype seg level key br =
      (rm.splitExisting startSeq endSeq itype seg level key br).map (Outcome.withFirst f) := by
  unfold splitExisting
  dsimp only
  split_ifs
  · rfl
  · cases br.splitEnd endSeq br.endSeq <;> rfl
  · cases br.splitEnd startSeq br.endSeq <;> rfl
  · cases br.splitEnd startSeq br.endSeq with
    | error e => rfl
    | ok parts =>
        rw [Run.ok_bind, Run.ok_bind]
        cases (finSet seg parts.2).splitEnd endSeq parts.2.endSeq <;> rfl
  · cases br.splitEnd startSeq br.endSeq <;> rfl

theorem sojournInside_withFirst :
    (rm.withFirst f).sojournInside startSeq endSeq seg key br =
      (rm.sojournInside startSeq endSeq seg key br).map (Outcome.withFirst f) := by
  unfold sojournInside
  dsimp only
  split_ifs
  · rfl
  · rfl
  · cases br.addSegmentEnteredKernelTime seg.endSeq seg.tstampPcap <;> rfl
  · cases br.addSegmentEnteredKernelTime endSeq seg.tstampPcap <;> rfl
  · rfl

theorem insertNotFound_withFirst :
    (rm.withFirst f).insertNotFound startSeq endSeq itype seg level =
      (rm.insertNotFound startSeq endSeq itype seg level).map (Outcome.withFirst f) := by
  unfold insertNotFound
  rw [withFirst_lastSeq, searchWindow_withFirst, insertNew_withFirst]
  by_cases hlt : startSeq < rm.lastSeq
  · rw [if_pos hlt, if_pos hlt]
    cases rm.searchWindow startSeq endSeq with
    | nil => rfl
    | cons e es =>
        dsimp only
        cases (e :: es).find? fun e =>
            decide (e.2.startSeq ≤ startSeq) && decide (startSeq < e.2.endSeq) with
        | none => rfl
        | some found =>
            dsimp only
            split_ifs
            · exact sojournInside_withFirst ..
            · exact splitExisting_withFirst ..
  · rw [if_neg hlt, if_neg hlt]

theorem spanRest_withFirst (restSeq : ℕ) :
    (rm.withFirst f).spanRest startSeq endSeq itype level restSeq =
      (rm.spanRest startSeq endSeq itype level restSeq).map (Outcome.withFirst f) := by
  unfold spanRest
  split_ifs <;> rfl

theorem insertOnEmpty_withFirst :
    (rm.withFirst f).insertOnEmpty startSeq endSeq seg br =
      (rm.insertOnEmpty startSeq endSeq seg br).map (Outcome.withFirst f) := by
  unfold insertOnEmpty
  rw [withFirst_ranges]
  dsimp only
  cases rm.ranges.next? startSeq with
  | none => cases reuseEmpty startSeq seg endSeq br <;> rfl
  | some next =>
      dsimp only
      split_ifs
      · cases reuseEmpty startSeq seg (min next.2.startSeq endSeq) br with
        | error e => rfl
        | ok br' =>
            rw [Run.ok_bind, Run.ok_bind]
            split_ifs <;> rfl
      · cases reuseEmpty startSeq seg (br.endSeq + 1) br with
        | error e => rfl
        | ok br' =>
            rw [Run.ok_bind, Run.ok_bind]
            split_ifs <;> rfl

theorem insertSpanning_withFirst :
    (rm.withFirst f).insertSpanning startSeq endSeq itype seg level br =
      (rm.insertSpanning startSeq endSeq itype seg level br).map (Outcome.withFirst f) := by
  unfold insertSpanning
  dsimp only
  -- `firstSeq` is only copied along here; each kind of insertion has its own branches
  cases itype with
  | sent =>
      dsimp only
      split_ifs
      · exact insertOnEmpty_withFirst ..
      · exact spanRest_withFirst f { rm with ranges := _ } ..
  | recv =>
      dsimp only
      split_ifs
      · rfl
      · exact spanRest_withFirst f { rm with ranges := _ } ..
  | sojourn =>
      dsimp only
      rw [withFirst_ranges]
      cases br.addSegmentEnteredKernelTime br.endSeq seg.tstampPcap with
      | error e => rfl
      | ok br' =>
          rw [Run.ok_bind, Run.ok_bind]
          split_ifs
          · rfl
          · exact spanRest_withFirst f { rm with ranges := _ } ..

theorem insertWithin_withFirst :
    (rm.withFirst f).insertWithin startSeq endSeq itype seg level br =
      (rm.insertWithin startSeq endSeq itype seg level br).map (Outcome.withFirst f) := by
  unfold insertWithin
  dsimp only
  by_cases hend : br.endSeq = endSeq
  · cases itype with
    | sojourn => cases br.addSegmentEnteredKernelTime endSeq seg.tstampPcap <;> rfl
    | sent => rw [if_pos hend, if_pos hend]; rfl
    | recv => rw [if_pos hend, if_pos hend]; rfl
  · cases itype with
    | sojourn => cases br.addSegmentEnteredKernelTime endSeq seg.tstampPcap <;> rfl
    | sent =>
        rw [if_neg hend, if_neg hend]
        cases br.splitEnd endSeq br.endSeq <;> rfl
    | recv =>
        rw [if_neg hend, if_neg hend]
        cases br.splitEnd endSeq br.endSeq <;> rfl

/-- The check for "the ack on the syn-ack" gives the same answer for both numbers. -/
def SameCheck : Prop :=
  itype = .recv → br.endSeq ≠ endSeq → (endSeq = add32 f 1 ↔ endSeq = add32 rm.firstSeq 1)

variable {f rm endSeq itype br} in
theorem insertFound_withFirst (hsame : SameCheck f rm endSeq itype br) :
    (rm.withFirst f).insertFound startSeq endSeq itype seg level br =
      (rm.insertFound startSeq endSeq itype seg level br).map (Outcome.withFirst f) := by
  have hcheck : (br.endSeq ≠ endSeq ∧ itype = .recv ∧ endSeq = add32 f 1) ↔
      (br.endSeq ≠ endSeq ∧ itype = .recv ∧ endSeq = add32 rm.firstSeq 1) := by
    constructor
    · rintro ⟨hend, hrecv, heq⟩
      exact ⟨hend, hrecv, (hsame hrecv hend).mp heq⟩
    · rintro ⟨hend, hrecv, heq⟩
      exact ⟨hend, hrecv, (hsame hrecv hend).mpr heq⟩
  unfold insertFound
  rw [withFirst_firstSeq, if_congr hcheck rfl rfl, insertSpanning_withFirst, insertWithin_withFirst]
  split_ifs <;> rfl

variable {f rm endSeq itype startSeq} in
theorem insertBody_withFirst
    (hsame : startSeq ≠ endSeq → ∀ br, rm.ranges.find? startSeq = some br →
      SameCheck f rm endSeq itype br) :
    (rm.withFirst f).insertBody startSeq endSeq itype seg level =
      (rm.insertBody startSeq endSeq itype seg level).map (Outcome.withFirst f) := by
  unfold insertBody
  rw [withFirst_ranges, insertEmpty_withFirst, insertNotFound_withFirst]
  split_ifs with hne
  · rfl
  cases hfind : rm.ranges.find? startSeq with
  | none => rfl
  | some br => exact insertFound_withFirst startSeq seg level (hsame hne br hfind)

variable {rm} in
/-- No pass changes `firstSeq`. -/
theorem insertBody_firstSeq {out : Outcome}
    (h : rm.insertBody startSeq endSeq itype seg level = .ok out) :
    out.withFirst rm.firstSeq = out := by
  have hself : (rm.withFirst rm.firstSeq).insertBody startSeq endSeq itype seg level = _ :=
    insertBody_withFirst seg level fun _ _ _ _ _ => Iff.rfl
  rw [show rm.withFirst rm.firstSeq = rm from rfl, h] at hself
  exact (Except.ok.inj hself).symm

end Insert

/-! ## The loop -/

section Loop

variable {f endSeq : ℕ} {itype : InsertType} {seg : DataSeg}

/-- Two loops run in step as long as `Q` makes the check agree on every pass. -/
theorem insertLoop_withFirst {Q : RangeManager → ℕ → Prop}
    (hsame : ∀ rm s, Q rm s → s ≠ endSeq → ∀ br, rm.ranges.find? s = some br →
      SameCheck f rm endSeq itype br)
    (hagain : ∀ rm s level rm' s', Q rm s →
      rm.insertBody s endSeq itype seg level = .ok (.again rm' s') → Q rm' s')
    (fuel : ℕ) {rm : RangeManager} {s : ℕ} (level : ℕ) (hQ : Q rm s) :
    insertLoop endSeq itype seg fuel (rm.withFirst f) s level =
      (insertLoop endSeq itype seg fuel rm s level).map (withFirstFst f) := by
  -- one pass at a time: `Q` gives the check its answer, and the next pass keeps `Q`
  induction fuel generalizing rm s level with
  | zero => rfl
  | succ fuel ih =>
      rw [insertLoop, insertLoop, insertBody_withFirst seg level (hsame rm s hQ)]
      cases hbody : rm.insertBody s endSeq itype seg level with
      | error e => rfl
      | ok out =>
          cases out with
          | done rm' ret => rfl
          | again rm' s' => exact ih (level + 1) (hagain rm s level rm' s' hQ hbody)

theorem insertByteRange_sent_withFirst (rm : RangeManager) (s level : ℕ) :
    (rm.withFirst f).insertByteRange s endSeq .sent seg level =
      (rm.insertByteRange s endSeq .sent seg level).map (withFirstFst f) := by
  apply insertLoop_withFirst (Q := fun _ _ => True)
  · intro rm s _ _ br _ hrecv
    cases hrecv
  · intros
    trivial
  · trivial

end Loop

theorem insertSentRange_withFirst (f : ℕ) (rm : RangeManager) (sd : SendData) :
    (rm.withFirst f).insertSentRange sd = (rm.insertSentRange sd).map (withFirst f) := by
  have hins' : (rm.withFirst f).insertByteRange sd.data.seq sd.data.endSeq .sent sd.data 0 = _ :=
    insertByteRange_sent_withFirst rm sd.data.seq 0
  cases hins : rm.insertByteRange sd.data.seq sd.data.endSeq .sent sd.data 0 with
  | error e =>
      rw [hins] at hins'
      unfold insertSentRange
      dsimp only
      rw [hins, hins']
      rfl
  | ok out =>
      rw [hins] at hins'
      rw [insertSentRange_of_ok hins, insertSentRange_of_ok hins']
      rfl

theorem insertSentRange_firstSeq {rm rm' : RangeManager} {sd : SendData}
    (h : rm.insertSentRange sd = .ok rm') : rm'.firstSeq = rm.firstSeq := by
  have hself := insertSentRange_withFirst rm.firstSeq rm sd
  rw [show rm.withFirst rm.firstSeq = rm from rfl, h] at hself
  have hrm : rm' = rm'.withFirst rm.firstSeq := Except.ok.inj hself
  rw [hrm, withFirst_firstSeq]

/-! ## Received segments -/

/-- Every range that starts inside the segment ends with it. -/
def EndsTogether (endSeq : ℕ) (rm : RangeManager) (startSeq : ℕ) : Prop :=
  ∀ en ∈ rm.ranges.entries, startSeq ≤ en.1 → en.1 < endSeq → en.2.endSeq = endSeq

instance (endSeq : ℕ) (rm : RangeManager) (startSeq : ℕ) :
    Decidable (EndsTogether endSeq rm startSeq) :=
  inferInstanceAs (Decidable (∀ en ∈ _, _))

/-- A successful cut: where its parts begin and end. -/
theorem splitEnd_ends {r head newBr : ByteRange} {start stop : ℕ}
    (h : r.splitEnd start stop = .ok (head, newBr)) :
    newBr.startSeq = start ∧ newBr.endSeq = stop := by
  obtain ⟨br, hnew, hrest⟩ := Run.exists_of_bind_ok h
  obtain ⟨r', hupd, -⟩ := Run.exists_of_bind_ok hrest
  have hval := Except.ok.inj (h.symm.trans (ByteRange.split_eq hnew hupd))
  have hends : br.startSeq = start ∧ br.endSeq = stop := by
    obtain ⟨br', hupd, hnew⟩ := Run.exists_of_bind_ok hnew
    unfold ByteRange.updateByteCount at hupd
    split_ifs at hupd
    rw [← Except.ok.inj hnew, ← Except.ok.inj hupd]
    exact ⟨rfl, rfl⟩
  exact ⟨(congrArg (fun p : ByteRange × ByteRange => p.2.startSeq) hval).trans hends.1,
    (congrArg (fun p : ByteRange × ByteRange => p.2.endSeq) hval).trans hends.2⟩

/-- The only way on for a received segment is past the end of the range it starts inside. -/
theorem splitExisting_again {rm rm' : RangeManager} {s s' endSeq : ℕ} {seg : DataSeg}
    {level key : ℕ} {cur : ByteRange}
    (h : rm.splitExisting s endSeq .recv seg level key cur = .ok (.again rm' s')) :
    cur.endSeq < endSeq ∧ s' = cur.endSeq ∧ ∃ head newBr,
      rm'.ranges = (rm.ranges.modify key fun _ => head).insert s newBr := by
  unfold splitExisting at h
  dsimp only at h
  split_ifs at h with hboth hstart hend hin
  · obtain ⟨parts, _, h⟩ := Run.exists_of_bind_ok h
    cases h
  · obtain ⟨parts, _, h⟩ := Run.exists_of_bind_ok h
    cases h
  · obtain ⟨parts, _, h⟩ := Run.exists_of_bind_ok h
    obtain ⟨parts', _, h⟩ := Run.exists_of_bind_ok h
    cases h
  · obtain ⟨⟨head, newBr⟩, hsplit, h⟩ := Run.exists_of_bind_ok h
    obtain ⟨hs, he⟩ := splitEnd_ends hsplit
    have hout := Except.ok.inj h
    injection hout with hrm hs'
    rw [recordSplit_endSeq, he] at hs'
    rw [recordSplit_startSeq, hs] at hrm
    exact ⟨by omega, hs'.symm, head, _, by rw [← hrm]⟩

theorem insertNotFound_again {rm rm' : RangeManager} {s s' endSeq : ℕ} {seg : DataSeg} {level : ℕ}
    (h : rm.insertNotFound s endSeq .recv seg level = .ok (.again rm' s')) :
    ∃ key cur head newBr, (key, cur) ∈ rm.ranges.entries ∧ cur.endSeq < endSeq ∧
      s < cur.endSeq ∧ s' = cur.endSeq ∧
      rm'.ranges = (rm.ranges.modify key fun _ => head).insert s newBr := by
  unfold insertNotFound at h
  -- below `lastSeq` the search window may hold a range around `s`; above it nothing calls again
  by_cases hlast : s < rm.lastSeq
  · rw [if_pos hlast] at h
    cases hwin : rm.searchWindow s endSeq with
    | nil =>
        rw [hwin] at h
        cases h
    | cons e es =>
        rw [hwin] at h
        dsimp only at h
        split at h
        · next key cur hfound =>
            have hmem : (key, cur) ∈ rm.searchWindow s endSeq := by
              rw [hwin]
              exact List.mem_of_find?_eq_some hfound
            have hinside := List.find?_some hfound
            rw [Bool.and_eq_true, decide_eq_true_iff, decide_eq_true_iff] at hinside
            rw [if_neg nofun] at h
            obtain ⟨hne, hs', head, newBr, hranges⟩ := splitExisting_again h
            exact ⟨key, cur, head, newBr, mem_entries_of_mem_searchWindow hmem, hne, hinside.2,
              hs', hranges⟩
        · cases h
  · rw [if_neg hlast] at h
    cases h

theorem insertEmpty_done {rm : RangeManager} {s : ℕ} {itype : InsertType} {seg : DataSeg}
    {level : ℕ} {out : Outcome} (h : rm.insertEmpty s itype seg level = .ok out) :
    ∃ rm' ret, out = .done rm' ret := by
  unfold insertEmpty at h
  dsimp only at h
  split at h
  · obtain ⟨r, _, h⟩ := Run.exists_of_bind_ok h
    exact ⟨_, _, (Except.ok.inj h).symm⟩
  · exact ⟨_, _, (Except.ok.inj h).symm⟩

theorem insertFound_done (rm : RangeManager) (s : ℕ) (seg : DataSeg) (level : ℕ) {endSeq : ℕ}
    {br : ByteRange} (hend : br.endSeq = endSeq) :
    ∃ rm', rm.insertFound s endSeq .recv seg level br = .ok (.done rm' true) := by
  unfold insertFound insertWithin
  dsimp only
  rw [if_neg fun h => h.1 hend, if_neg (by omega), if_pos hend]
  exact ⟨_, rfl⟩

/-- What the loop keeps for a received segment that ends where the check looks. -/
def Aligned (endSeq : ℕ) (rm : RangeManager) (s : ℕ) : Prop :=
  s ≤ endSeq ∧ EndsTogether endSeq rm s

instance (endSeq : ℕ) (rm : RangeManager) (s : ℕ) : Decidable (Aligned endSeq rm s) :=
  inferInstanceAs (Decidable (_ ∧ _))

theorem Aligned.again {rm rm' : RangeManager} {s s' endSeq : ℕ} {seg : DataSeg} {level : ℕ}
    (hq : Aligned endSeq rm s)
    (h : rm.insertBody s endSeq .recv seg level = .ok (.again rm' s')) :
    Aligned endSeq rm' s' := by
  obtain ⟨hle, hq⟩ := hq
  unfold insertBody at h
  split_ifs at h with hempty
  · obtain ⟨_, _, hout⟩ := insertEmpty_done h
    cases hout
  split at h
  · -- a call past the end of the range around `s`, which by `hq` ends where the data does
    obtain ⟨key, cur, head, newBr, hmem, hne, hlt, hs', hranges⟩ := insertNotFound_again h
    refine ⟨by omega, ?_⟩
    intro en hen hlo hhi
    rw [hranges] at hen
    rcases OrdMap.mem_insertEntry hen with rfl | hen
    · -- the piece that was just split off starts behind
      exact absurd hlo (by omega)
    obtain ⟨old, hold, rfl⟩ := List.mem_map.mp hen
    by_cases hkey : old.1 = key
    · rw [if_pos hkey] at hlo hhi
      have hcur : cur.endSeq = endSeq := hq _ hmem (by omega) (by omega)
      omega
    · rw [if_neg hkey] at hlo hhi ⊢
      exact hq old hold (by omega) hhi
  · next br hfind =>
      have hend : br.endSeq = endSeq :=
        hq (s, br) (OrdMap.find?_eq_some_iff.mp hfind) le_rfl (by omega)
      obtain ⟨rm₁, hdone⟩ := rm.insertFound_done s seg level hend
      rw [hdone] at h
      cases h

/-- The received segments to which `firstSeq` makes no difference: either both numbers give the
check the same answer, or no range that it could look at ends elsewhere. -/
def IsnBlind (f : ℕ) (rm : RangeManager) (seg : DataSeg) : Prop :=
  (seg.endSeq = add32 f 1 ↔ seg.endSeq = add32 rm.firstSeq 1) ∨ Aligned seg.endSeq rm seg.seq

instance (f : ℕ) (rm : RangeManager) (seg : DataSeg) : Decidable (IsnBlind f rm seg) :=
  inferInstanceAs (Decidable (_ ∨ _))

theorem insertByteRange_recv_withFirst {f : ℕ} {rm : RangeManager} {seg : DataSeg}
    (hblind : IsnBlind f rm seg) :
    (rm.withFirst f).insertByteRange seg.seq seg.endSeq .recv seg 0 =
      (rm.insertByteRange seg.seq seg.endSeq .recv seg 0).map (withFirstFst f) := by
  rcases hblind with hiff | halign
  · apply insertLoop_withFirst
      (Q := fun rm' _ => rm'.firstSeq = rm.firstSeq)
    · intro rm' s hfirst _ br _ _ _
      rw [hfirst]
      exact hiff
    · intro rm₁ s level rm₂ s' hfirst hbody
      have hframe := insertBody_firstSeq s seg.endSeq .recv seg level hbody
      injection hframe with hrm
      rw [← hrm, withFirst_firstSeq, hfirst]
    · rfl
  · apply insertLoop_withFirst (Q := Aligned seg.endSeq)
    · intro rm' s hq hs br hfind _ hne
      have hlt : s < seg.endSeq := lt_of_le_of_ne hq.1 hs
      exact absurd (hq.2 (s, br) (OrdMap.find?_eq_some_iff.mp hfind) le_rfl hlt) hne
    · intro rm₁ s level rm₂ s' hq hbody
      exact hq.again hbody
    · exact halign

theorem insertReceivedRange_withFirst {f : ℕ} {rm : RangeManager} {sd : SendData}
    (hblind : IsnBlind f rm (receivedSeg sd)) :
    (rm.withFirst f).insertReceivedRange sd = (rm.insertReceivedRange sd).map (withFirst f) := by
  unfold insertReceivedRange
  dsimp only
  rw [insertByteRange_recv_withFirst hblind]
  cases rm.insertByteRange (receivedSeg sd).seq (receivedSeg sd).endSeq .recv (receivedSeg sd) 0
    <;> rfl

/-! ## ACKs -/

theorem countOld_withFirst (f : ℕ) (rm : RangeManager) (seg : DataSeg) (tmp : ByteRange)
    (ret : Bool) (scan : FinScan) :
    (rm.withFirst f).countOld seg tmp ret scan = withFirstFst f (rm.countOld seg tmp ret scan) := by
  cases scan with
  | found fkey => rfl
  | stopped prevs =>
      rw [countOld, countOld]
      split_ifs
      · cases oldAckScan seg.ack prevs with
        | none => rfl
        | some okey => cases okey <;> rfl
      · rfl
      · rfl

theorem ackOld_withFirst (f : ℕ) (rm : RangeManager) (seg : DataSeg) (key : ℕ) (tmp : ByteRange)
    (ret : Bool) :
    (rm.withFirst f).ackOld seg key tmp ret =
      (rm.ackOld seg key tmp ret).map (withFirstFst f) := by
  rw [ackOld, ackOld, withFirst_ranges]
  cases (rm.ranges.below key).reverse with
  | nil => rfl
  | cons prev prevs =>
      dsimp only
      cases findFin seg.ack (prev :: prevs) with
      | error e => rfl
      | ok scan =>
          rw [Run.ok_bind, Run.ok_bind, countOld_withFirst]
          rfl

def AckOutcome.withFirst (f : ℕ) : AckOutcome → AckOutcome
  | .done rm ret => .done (rm.withFirst f) ret
  | .next rm ret => .next (rm.withFirst f) ret

theorem ackBody_withFirst (f : ℕ) (rm : RangeManager) (seg : DataSeg) (key : ℕ) (tmp : ByteRange)
    (ret : Bool) :
    (rm.withFirst f).ackBody seg key tmp ret =
      (rm.ackBody seg key tmp ret).map (AckOutcome.withFirst f) := by
  unfold ackBody
  by_cases hexact : seg.ack = tmp.endSeq ∨ (tmp.byteCount = 0 ∧ sub64 seg.ack 1 = tmp.endSeq)
  · rw [if_pos hexact, if_pos hexact]
    rfl
  rw [if_neg hexact, if_neg hexact]
  by_cases hend : tmp.endSeq < seg.ack
  · rw [if_pos hend, if_pos hend]
    cases tmp.sentTstampPcap with
    | nil => rfl
    | cons sent sents =>
        dsimp only
        by_cases hlate : seg.tstampPcap.before sent.1 = true
        · rw [if_pos hlate, if_pos hlate]
          rfl
        · rw [if_neg hlate, if_neg hlate]
          rfl
  rw [if_neg hend, if_neg hend]
  by_cases hin : tmp.startSeq < seg.ack ∧ seg.ack < tmp.endSeq
  · rw [if_pos hin, if_pos hin]
    cases tmp.splitEnd seg.ack tmp.endSeq <;> rfl
  · rw [if_neg hin, if_neg hin, ackOld_withFirst]
    cases rm.ackOld seg key tmp ret <;> rfl

theorem ackLoop_withFirst (f : ℕ) (seg : DataSeg) (rest : List Entry) (rm : RangeManager)
    (ret : Bool) :
    ackLoop seg rest (rm.withFirst f) ret = (ackLoop seg rest rm ret).map (withFirstFst f) := by
  induction rest generalizing rm ret with
  | nil => rfl
  | cons d rest ih =>
      rw [ackLoop, ackLoop, ackBody_withFirst]
      cases rm.ackBody seg d.1 d.2 ret with
      | error e => rfl
      | ok out =>
          cases out with
          | done rm' ret' => rfl
          | next rm' ret' => exact ih rm' ret'

theorem processAck_withFirst (f : ℕ) (rm : RangeManager) (seg : DataSeg) :
    (rm.withFirst f).processAck seg = (rm.processAck seg).map (withFirstFst f) := by
  unfold processAck
  rw [show (rm.withFirst f).resume = rm.resume from rfl]
  cases rm.resume with
  | nil => rfl
  | cons d rest =>
      dsimp only
      split_ifs
      · rfl
      · exact ackLoop_withFirst f seg _ { rm with ackCount := _ } false

/-! ## Runs -/

/-- A call that the analysis of a connection makes on its `RangeManager`. -/
inductive Call
  | sent (sd : SendData)
  | ack (seg : DataSeg)
  | received (sd : SendData)
deriving DecidableEq

def call (rm : RangeManager) : Call → Except Abort RangeManager
  | .sent sd => rm.insertSentRange sd
  | .ack seg => (rm.processAck seg).map Prod.fst
  | .received sd => rm.insertReceivedRange sd

/-- The calls that read the same from either initial sequence number. -/
def CallBlind (f : ℕ) (rm : RangeManager) : Call → Prop
  | .received sd => IsnBlind f rm (receivedSeg sd)
  | _ => True

instance (f : ℕ) (rm : RangeManager) : (c : Call) → Decidable (CallBlind f rm c)
  | .sent _ => .isTrue trivial
  | .ack _ => .isTrue trivial
  | .received sd => inferInstanceAs (Decidable (IsnBlind f rm (receivedSeg sd)))

theorem call_withFirst {f : ℕ} {rm : RangeManager} {c : Call} (hblind : CallBlind f rm c) :
    (rm.withFirst f).call c = (rm.call c).map (withFirst f) := by
  cases c with
  | sent sd => exact insertSentRange_withFirst f rm sd
  | ack seg =>
      show ((rm.withFirst f).processAck seg).map Prod.fst = _
      rw [processAck_withFirst]
      show _ = ((rm.processAck seg).map Prod.fst).map (withFirst f)
      cases rm.processAck seg <;> rfl
  | received sd => exact insertReceivedRange_withFirst hblind

theorem run_call_withFirst {f : ℕ} {rm : RangeManager} {calls : List Call}
    (hblind : Run.Steps call (CallBlind f) rm calls) :
    Run.run call (rm.withFirst f) calls = (Run.run call rm calls).map (withFirst f) := by
  induction calls generalizing rm with
  | nil => rfl
  | cons c calls ih =>
      rw [Run.run, Run.run, call_withFirst hblind.1]
      cases hcall : rm.call c with
      | error e => rfl
      | ok rm' => exact ih (hblind.2 rm' hcall)

/-- Two runs that differ in the initial sequence number end alike, also when they abort, as long as
no received segment ends at either `firstSeq + 1` over ranges that end elsewhere. -/
theorem run_call_isn_independent (f₁ f₂ : ℕ) (calls : List Call)
    (hblind : Run.Steps call (CallBlind f₂) (new f₁) calls) :
    Run.run call (new f₂) calls = (Run.run call (new f₁) calls).map (withFirst f₂) :=
  run_call_withFirst hblind

/-- Ten bytes sent, acknowledged, and received in one segment. -/
def wholeCalls : List Call :=
  [.sent { data := { seq := 0, endSeq := 10, payloadSize := 10 } }, .ack { ack := 10 },
    .received { data := { seq := 0, endSeq := 10, payloadSize := 10, tstampTcp := 1 } }]

/-- The segment ends at `9 + 1`, but so does the range it was sent in. -/
theorem run_call_isn_independent_whole :
    (Run.run call (new 9) wholeCalls).toOption.isSome = true ∧
      Run.run call (new 500) wholeCalls =
        (Run.run call (new 9) wholeCalls).map (withFirst 500) :=
  ⟨by decide, run_call_isn_independent 9 500 wholeCalls (by decide)⟩

/-- Ten bytes sent, received in two segments of five. -/
def halfCalls : List Call :=
  [.sent { data := { seq := 0, endSeq := 10, payloadSize := 10 } },
    .received { data := { seq := 0, endSeq := 5, payloadSize := 5, tstampTcp := 1 } },
    .received { data := { seq := 5, endSeq := 10, payloadSize := 5, tstampTcp := 1 } }]

theorem run_call_aborts_for_isn_four :
    (Run.run call (new 4) halfCalls).toOption.isSome = false ∧
      (Run.run call (new 500) halfCalls).toOption.isSome = true ∧
      ¬Run.run call (new 500) halfCalls =
        (Run.run call (new 4) halfCalls).map (withFirst 500) := by
  have haborts : (Run.run call (new 4) halfCalls).toOption.isSome = false := by decide
  have hreturns : (Run.run call (new 500) halfCalls).toOption.isSome = true := by decide
  refine ⟨haborts, hreturns, fun heq => ?_⟩
  rw [heq] at hreturns
  cases h : Run.run call (new 4) halfCalls with
  | error e =>
      rw [h] at hreturns
      cases hreturns
  | ok rm =>
      rw [h] at haborts
      cases haborts

end RangeManager

end AnalyseTCP
