import AnalyseTCP.InsertLoop
import AnalyseTCP.AckPass
import AnalyseTCP.Lib.Ensures

/-!
# What every range keeps

Most of what is said about single ranges does not depend on where they lie: it holds because no
operation on a range breaks it.  `RangeRule` lists the operations that an insertion uses; what they
keep, every insertion keeps, whatever the map looks like.
-/

namespace AnalyseTCP

namespace RangeManager

/-- What the operations of an insertion keep. -/
structure RangeRule (itype : InsertType) (seg : DataSeg) (P : ByteRange → Prop) : Prop where
  fresh : itype = .sent → ∀ s e, Ensures P (newDataRange s e seg)
  empty : ∀ rdb q, Ensures P (newEmptyRange seg rdb q)
  recordEmpty : ∀ level rdb r, P r → P (recordEmpty seg itype level rdb r)
  recordFound : ∀ level rdb r, P r → P (recordFound seg level rdb itype r)
  recordSplit : ∀ level rdb r, P r → P (recordSplit seg level rdb itype r)
  cut : ∀ r c stop, P r → Ensures (fun parts => P parts.1 ∧ P parts.2) (r.splitEnd c stop)
  finSet : ∀ r, P r → P (finSet seg r)
  finIncrease : ∀ r, P r → P (finIncrease seg r)
  synIncrease : ∀ r, P r → P (synIncrease seg r)
  payloadSet : ∀ r, P r → P (payloadSet r)
  reuse : itype = .sent → ∀ s upTo r, P r → Ensures P (reuseEmpty s seg upTo r)
  kernelTime : itype = .sojourn → ∀ q r, P r →
    Ensures P (r.addSegmentEnteredKernelTime q seg.tstampPcap)

/-- Every range has `P`, and the first sequence number and the number of ACKs are those of `rm₀`. -/
structure Kept (rm₀ : RangeManager) (P : ByteRange → Prop) (rm : RangeManager) : Prop where
  first : rm.firstSeq = rm₀.firstSeq
  acks : rm.ackCount = rm₀.ackCount
  ranges : ∀ en ∈ rm.ranges.entries, P en.2

section Map

variable {rm₀ rm : RangeManager} {P : ByteRange → Prop}

theorem Kept.modify (h : Kept rm₀ P rm) {f : ByteRange → ByteRange} (hf : ∀ r, P r → P (f r))
    (key : ℕ) : Kept rm₀ P { rm with ranges := rm.ranges.modify key f } := by
  refine ⟨h.first, h.acks, fun en hen => ?_⟩
  rcases OrdMap.mem_modify hen with hen | ⟨r, hr, rfl⟩
  · exact h.ranges en hen
  · exact hf r (h.ranges _ hr)

theorem Kept.set (h : Kept rm₀ P rm) {r : ByteRange} (hr : P r) (key : ℕ) :
    Kept rm₀ P { rm with ranges := rm.ranges.modify key fun _ => r } := h.modify (fun _ _ => hr) key

theorem Kept.insert (h : Kept rm₀ P rm) {r : ByteRange} (hr : P r) (key : ℕ) :
    Kept rm₀ P { rm with ranges := rm.ranges.insert key r } := by
  refine ⟨h.first, h.acks, fun en hen => ?_⟩
  rcases OrdMap.mem_insert hen with rfl | hen
  · exact hr
  · exact h.ranges en hen

end Map

section Insert

variable {rm₀ rm : RangeManager} {itype : InsertType} {seg : DataSeg} {P : ByteRange → Prop}
  (startSeq endSeq level : ℕ)

theorem insertEmpty_kept (hrule : RangeRule itype seg P) (h : Kept rm₀ P rm) :
    Ensures (fun out => Kept rm₀ P out.rm) (rm.insertEmpty startSeq itype seg level) := by
  unfold insertEmpty
  dsimp only
  have hcounted : Kept rm₀ P { rm with
      analysedSentPureAckCount :=
        rm.analysedSentPureAckCount + if itype = InsertType.sent then 1 else 0 } :=
    ⟨h.first, h.acks, h.ranges⟩
  split
  · refine (hrule.empty _ _).bind ?_
    intro r hr
    refine .ok ?_
    exact hcounted.insert hr _
  · refine .ok ?_
    exact hcounted.modify (hrule.recordEmpty level _) _

theorem insertNew_kept (hrule : RangeRule itype seg P) (h : Kept rm₀ P rm) :
    Ensures (fun out => Kept rm₀ P out.rm) (rm.insertNew startSeq endSeq itype seg) := by
  unfold insertNew
  split
  · refine (hrule.fresh rfl _ _).bind ?_
    intro r hr
    refine .ok ?_
    exact (h.insert hr _)
  · refine .ok ?_
    exact h

theorem splitExisting_kept (hrule : RangeRule itype seg P) (h : Kept rm₀ P rm) (key : ℕ)
    {cur : ByteRange} (hcur : P cur) :
    Ensures (fun out => Kept rm₀ P out.rm)
      (rm.splitExisting startSeq endSeq itype seg level key cur) := by
  have hrecord := hrule.recordSplit level (thisIsRdbData seg startSeq)
  unfold splitExisting
  dsimp only
  split_ifs
  · exact .error _
  · refine (hrule.cut cur _ _ hcur).bind ?_
    rintro ⟨head, tail⟩ ⟨hhead, htail⟩
    refine .ok ?_
    exact ((h.set (hrecord _ (hrule.finIncrease _ hhead)) _).insert htail _)
  · refine (hrule.cut cur _ _ hcur).bind ?_
    rintro ⟨head, tail⟩ ⟨hhead, htail⟩
    refine .ok ?_
    exact ((h.set hhead _).insert (hrecord _ (hrule.finSet _ htail)) _)
  · refine (hrule.cut cur _ _ hcur).bind ?_
    rintro ⟨head, tail⟩ ⟨hhead, htail⟩
    refine (hrule.cut _ _ _ (hrule.finSet _ htail)).bind ?_
    rintro ⟨mid, last⟩ ⟨hmid, hlast⟩
    refine .ok ?_
    exact (((h.set hhead _).insert hlast _).insert (hrecord _ hmid) _)
  · refine (hrule.cut cur _ _ hcur).bind ?_
    rintro ⟨head, tail⟩ ⟨hhead, htail⟩
    refine .ok ?_
    exact ((h.set hhead _).insert (hrecord _ htail) _)

theorem sojournInside_kept (hrule : RangeRule .sojourn seg P) (h : Kept rm₀ P rm) (key : ℕ)
    {cur : ByteRange} (hcur : P cur) :
    Ensures (fun out => Kept rm₀ P out.rm) (rm.sojournInside startSeq endSeq seg key cur) := by
  unfold sojournInside
  dsimp only
  split_ifs
  · exact .error _
  · exact .error _
  · refine (hrule.kernelTime rfl _ _ hcur).bind ?_
    intro r hr
    refine .ok ?_
    exact h.set hr _
  · refine (hrule.kernelTime rfl _ _ hcur).bind ?_
    intro r hr
    refine .ok ?_
    exact h.set hr _
  · refine .ok ?_
    exact h

theorem insertNotFound_kept (hrule : RangeRule itype seg P) (h : Kept rm₀ P rm) :
    Ensures (fun out => Kept rm₀ P out.rm)
      (rm.insertNotFound startSeq endSeq itype seg level) := by
  have hnew := insertNew_kept startSeq endSeq hrule h
  unfold insertNotFound
  split
  · cases hw : rm.searchWindow startSeq endSeq with
    | nil => exact .error _
    | cons en ens =>
        dsimp only
        rw [← hw]
        split
        · next key cur hfind =>
          have hmem : (key, cur) ∈ rm.ranges.entries :=
            mem_entries_of_mem_searchWindow (List.mem_of_find?_eq_some hfind)
          have hcur := h.ranges _ hmem
          split
          · next hsojourn =>
            subst hsojourn
            exact sojournInside_kept startSeq endSeq hrule h key hcur
          · exact splitExisting_kept startSeq endSeq level hrule h key hcur
        · exact hnew
  · exact hnew

theorem insertOnEmpty_kept (hrule : RangeRule .sent seg P) (h : Kept rm₀ P rm) {br : ByteRange}
    (hbr : P br) :
    Ensures (fun out => Kept rm₀ P out.rm) (rm.insertOnEmpty startSeq endSeq seg br) := by
  unfold insertOnEmpty
  dsimp only
  split
  · refine (hrule.reuse rfl _ _ _ hbr).bind ?_
    intro r hr
    refine .ok ?_
    exact h.set (hrule.payloadSet r hr) _
  · split_ifs
    · refine (hrule.reuse rfl _ _ _ hbr).bind ?_
      intro r hr
      refine .ok ?_
      have hset := h.set (hrule.payloadSet r hr) startSeq
      split_ifs <;> exact hset
    · refine (hrule.reuse rfl _ _ _ hbr).bind ?_
      intro r hr
      refine .ok ?_
      have hset := h.set hr startSeq
      split_ifs <;> exact hset

theorem spanRest_kept (h : Kept rm₀ P rm) (restSeq : ℕ) :
    Ensures (fun out => Kept rm₀ P out.rm)
      (rm.spanRest startSeq endSeq itype level restSeq) := by
  unfold spanRest
  split_ifs
  · exact .error _
  · refine .ok ?_
    exact h

theorem insertSpanning_kept (hrule : RangeRule itype seg P) (h : Kept rm₀ P rm) {br : ByteRange}
    (hbr : P br) :
    Ensures (fun out => Kept rm₀ P out.rm)
      (rm.insertSpanning startSeq endSeq itype seg level br) := by
  have hfound := hrule.recordFound level (thisIsRdbData seg startSeq) br hbr
  have hset := h.set hfound startSeq
  unfold insertSpanning
  dsimp only
  cases itype with
  | sent =>
      dsimp only
      split_ifs
      · exact insertOnEmpty_kept startSeq endSeq hrule h hbr
      · exact spanRest_kept startSeq endSeq level hset _
  | recv =>
      dsimp only
      split_ifs
      · exact .error _
      · exact spanRest_kept startSeq endSeq level hset _
  | sojourn =>
      refine (hrule.kernelTime rfl _ _ hbr).bind ?_
      intro r hr
      split_ifs
      · refine .ok ?_
        exact h.set hr _
      · exact spanRest_kept startSeq endSeq level (h.set hr _) _

theorem insertWithin_kept (hrule : RangeRule itype seg P) (h : Kept rm₀ P rm) {br : ByteRange}
    (hbr : P br) :
    Ensures (fun out => Kept rm₀ P out.rm)
      (rm.insertWithin startSeq endSeq itype seg level br) := by
  have hrecord := hrule.recordFound level (thisIsRdbData seg startSeq)
  unfold insertWithin
  dsimp only
  split
  · refine (hrule.kernelTime rfl _ _ hbr).bind ?_
    intro r hr
    refine .ok ?_
    exact h.set hr _
  · split_ifs
    · refine .ok ?_
      exact h.set (hrule.synIncrease _ (hrecord _ hbr)) _
    · refine .ok ?_
      exact h.set (hrecord _ hbr) _
    · refine (hrule.cut br _ _ hbr).bind ?_
      rintro ⟨head, tail⟩ ⟨hhead, htail⟩
      refine .ok ?_
      exact (h.set (hrecord _ hhead) _).insert htail _

theorem insertBody_kept (hrule : RangeRule itype seg P) (h : Kept rm₀ P rm) :
    Ensures (fun out => Kept rm₀ P out.rm)
      (rm.insertBody startSeq endSeq itype seg level) := by
  unfold insertBody
  split_ifs
  · exact insertEmpty_kept startSeq level hrule h
  · cases hfind : rm.ranges.find? startSeq with
    | none => exact insertNotFound_kept startSeq endSeq level hrule h
    | some br =>
        have hbr := h.ranges _ (OrdMap.find?_eq_some_iff.mp hfind)
        dsimp only
        unfold insertFound
        split_ifs
        · exact .error _
        · exact insertSpanning_kept startSeq endSeq level hrule h hbr
        · exact insertWithin_kept startSeq endSeq level hrule h hbr

theorem insertLoop_kept (hrule : RangeRule itype seg P) (h : Kept rm₀ P rm) (fuel : ℕ) :
    Ensures (fun out => Kept rm₀ P out.1)
      (insertLoop endSeq itype seg fuel rm startSeq level) := by
  induction fuel generalizing rm startSeq level with
  | zero => exact .error _
  | succ fuel ih =>
      have hbody := insertBody_kept startSeq endSeq level hrule h
      rw [insertLoop]
      split
      · exact .error _
      · next hdone => exact .ok (hbody _ hdone)
      · next rm' s' hagain => exact ih s' (level + 1) (hbody _ hagain)

theorem insertByteRange_kept (hrule : RangeRule itype seg P) (h : Kept rm₀ P rm) :
    Ensures (fun out => Kept rm₀ P out.1)
      (rm.insertByteRange startSeq endSeq itype seg level) :=
  insertLoop_kept startSeq endSeq level hrule h _

end Insert

/-! ## Packets -/

section Packets

variable {rm₀ rm : RangeManager} {P : ByteRange → Prop}

theorem insertSentRange_kept {sd : SendData} (hrule : RangeRule .sent sd.data P)
    (h : Kept rm₀ P rm) : Ensures (Kept rm₀ P) (rm.insertSentRange sd) := by
  unfold insertSentRange
  refine (insertByteRange_kept _ _ _ hrule h).bind ?_
  rintro ⟨rm', ret⟩ hkept
  dsimp only
  have hlast : ∀ n, Kept rm₀ P { rm' with lastSeq := n } := fun _ =>
    ⟨hkept.first, hkept.acks, hkept.ranges⟩
  split_ifs
  all_goals refine .ok ?_
  all_goals first | exact hkept | exact hlast _

theorem insertReceivedRange_kept {sd : SendData} (hrule : RangeRule .recv (receivedSeg sd) P)
    (h : Kept rm₀ P rm) : Ensures (Kept rm₀ P) (rm.insertReceivedRange sd) := by
  unfold insertReceivedRange
  refine (insertByteRange_kept _ _ _ hrule h).bind ?_
  rintro ⟨rm', ret⟩ hkept
  exact .ok hkept

end Packets

/-! ## ACKs -/

/-- What the operations of an ACK keep. -/
structure AckRule (seg : DataSeg) (P : ByteRange → Prop) : Prop where
  exact : ∀ b r, P r → P (ackExact seg b r)
  mark : ∀ r, P r → P (markAcked seg r)
  count : ∀ r, P r → P (countAck r)
  part : ∀ r, P r → P (ackPart seg r)
  cut : ∀ r c stop, P r → Ensures (fun parts => P parts.1 ∧ P parts.2) (r.splitEnd c stop)

/-- The manager, however the body of the loop ends. -/
def AckOutcome.rm : AckOutcome → RangeManager
  | .done rm _ => rm
  | .next rm _ => rm

section Ack

variable {rm₀ rm : RangeManager} {seg : DataSeg} {P : ByteRange → Prop}

theorem Kept.resume (h : Kept rm₀ P rm) (k : Option ℕ) :
    Kept rm₀ P { rm with highestAckedByteRangeIt := k } := ⟨h.first, h.acks, h.ranges⟩

theorem ackOld_kept (hrule : AckRule seg P) (h : Kept rm₀ P rm) (key : ℕ) (tmp : ByteRange)
    (ret : Bool) : Ensures (fun out => Kept rm₀ P out.1) (rm.ackOld seg key tmp ret) := by
  intro out hout
  rcases ackOld_counts hout with hrm | ⟨okey, hrm⟩
  · rw [hrm]
    exact h
  · rw [hrm]
    exact h.modify hrule.count okey

theorem ackBody_kept (hrule : AckRule seg P) (h : Kept rm₀ P rm) (key : ℕ) {tmp : ByteRange}
    (htmp : P tmp) (ret : Bool) :
    Ensures (fun out => Kept rm₀ P out.rm) (rm.ackBody seg key tmp ret) := by
  unfold ackBody
  dsimp only
  split_ifs
  · refine .ok ?_
    exact (h.modify (hrule.exact _) key).resume _
  · split
    · exact .error _
    · split_ifs
      · exact .ok h
      · refine .ok ?_
        exact (h.modify hrule.mark key).resume _
  · refine (hrule.cut tmp _ _ htmp).bind ?_
    rintro ⟨head, tail⟩ ⟨hhead, htail⟩
    refine .ok ?_
    exact ((h.set (hrule.part head hhead) key).insert htail _).resume _
  · refine (ackOld_kept hrule h key tmp ret).bind ?_
    rintro ⟨rm', ret'⟩ hkept
    exact .ok hkept

theorem ackLoop_kept (hrule : AckRule seg P) (h : Kept rm₀ P rm) (rest : List Entry)
    (hrest : ∀ en ∈ rest, P en.2) (ret : Bool) :
    Ensures (fun out => Kept rm₀ P out.1) (ackLoop seg rest rm ret) := by
  induction rest generalizing rm ret with
  | nil => exact .ok h
  | cons en rest ih =>
      obtain ⟨key, tmp⟩ := en
      have hbody := ackBody_kept hrule h key (hrest _ List.mem_cons_self) ret
      rw [ackLoop]
      split
      · exact .error _
      · next hdone => exact .ok (hbody _ hdone)
      · next hnext => exact ih (hbody _ hnext) (fun en hen => hrest en (.tail _ hen)) _

/-- An ACK counts itself, and keeps what its operations keep. -/
theorem processAck_kept (hrule : AckRule seg P) (hP : ∀ en ∈ rm.ranges.entries, P en.2) :
    Ensures (Kept { rm with ackCount := rm.ackCount + 1 } P ∘ Prod.fst) (rm.processAck seg) := by
  intro out hout
  have hcounted : Kept { rm with ackCount := rm.ackCount + 1 } P
      { rm with ackCount := rm.ackCount + 1 } := ⟨rfl, rfl, hP⟩
  rcases processAck_cases hout with ⟨first, -, -, rfl⟩ | hloop
  · exact hcounted
  · exact ackLoop_kept hrule hcounted rm.resume (fun en hen => hP en (mem_of_mem_resume hen)) false
      out hloop

end Ack

/-! ## No demand on the ranges -/

theorem rangeRule_true (itype : InsertType) (seg : DataSeg) :
    RangeRule itype seg fun _ => True where
  fresh _ _ _ := .trivial _
  empty _ _ := .trivial _
  recordEmpty _ _ _ _ := trivial
  recordFound _ _ _ _ := trivial
  recordSplit _ _ _ _ := trivial
  cut _ _ _ _ := fun _ _ => ⟨trivial, trivial⟩
  finSet _ _ := trivial
  finIncrease _ _ := trivial
  synIncrease _ _ := trivial
  payloadSet _ _ := trivial
  reuse _ _ _ _ _ := .trivial _
  kernelTime _ _ _ _ := .trivial _

theorem ackRule_true (seg : DataSeg) : AckRule seg fun _ => True where
  exact _ _ _ := trivial
  mark _ _ := trivial
  count _ _ := trivial
  part _ _ := trivial
  cut _ _ _ _ := fun _ _ => ⟨trivial, trivial⟩

section AckCount

variable {rm rm' : RangeManager}

/-- Packets in either direction leave the number of ACKs alone, and `firstSeq`. -/
theorem insertSentRange_frame {sd : SendData} (h : rm.insertSentRange sd = .ok rm') :
    rm'.ackCount = rm.ackCount ∧ rm'.firstSeq = rm.firstSeq := by
  have hkept : Kept rm (fun _ => True) rm := ⟨rfl, rfl, fun _ _ => trivial⟩
  have hframe := insertSentRange_kept (rangeRule_true _ _) hkept rm' h
  exact ⟨hframe.acks, hframe.first⟩

theorem insertReceivedRange_frame {sd : SendData} (h : rm.insertReceivedRange sd = .ok rm') :
    rm'.ackCount = rm.ackCount ∧ rm'.firstSeq = rm.firstSeq := by
  have hkept : Kept rm (fun _ => True) rm := ⟨rfl, rfl, fun _ _ => trivial⟩
  have hframe := insertReceivedRange_kept (rangeRule_true _ _) hkept rm' h
  exact ⟨hframe.acks, hframe.first⟩

theorem processAck_frame {seg : DataSeg} {ret : Bool} (h : rm.processAck seg = .ok (rm', ret)) :
    rm'.ackCount = rm.ackCount + 1 ∧ rm'.firstSeq = rm.firstSeq := by
  have hframe := processAck_kept (ackRule_true seg) (fun _ _ => trivial) _ h
  exact ⟨hframe.acks, hframe.first⟩

end AckCount

end RangeManager

end AnalyseTCP
