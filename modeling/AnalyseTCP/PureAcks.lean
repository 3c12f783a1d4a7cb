import AnalyseTCP.BundleHits

/-!
# Pure ACKs

A sent packet without payload and without SYN, FIN or RST is charged to `acked_sent` of one range,
and `calculateRealLoss` adds these counters up.  No other packet changes them, and the tail of a
split starts at zero, so the increments add up to the number of pure ACKs.  What the program reads
is 8 bits wide: an endpoint that only receives sends all its ACKs with one sequence number, and the
counter of that range wraps at 256.
-/

namespace AnalyseTCP

namespace RangeManager

/-- The packet is a pure ACK. -/
def isPureAck (sd : SendData) : Bool := decide (sd.data.payloadSize = 0) && sd.data.noFlags

/-- The pure ACKs charged to a range, before the wrap of the counter. -/
def pureAcks (r : ByteRange) : ℕ := r.ackedSent.total

/-! ## One packet -/

section Record

variable (itype : InsertType) (seg : DataSeg) (level s e : ℕ) (rdb : Bool) (r : ByteRange)

theorem pureAcks_recordSent {sentT : SentType} (h : sentT ≠ .pureAck) :
    pureAcks (recordSent seg rdb sentT r) = pureAcks r := by
  show r.ackedSent.total + (if sentT = .pureAck then 1 else 0) = r.ackedSent.total
  rw [if_neg h]
  rfl

theorem foundType_ne_pureAck : foundType seg level ≠ .pureAck := by
  unfold foundType
  split_ifs <;> simp

theorem pureAcks_recordFound :
    pureAcks (recordFound seg level rdb .sent r) = pureAcks r := by
  have hblind : pureAcks (recordSentFound seg level rdb r) =
      pureAcks (recordSentCounts seg level rdb r) :=
    recordSentFound_blind seg level rdb r fun _ _ => rfl
  show pureAcks (recordSentFound seg level rdb r) = pureAcks r
  rw [hblind]
  exact pureAcks_recordSent seg rdb r (foundType_ne_pureAck seg level)

theorem pureAcks_recordSplit :
    pureAcks (recordSplit seg level rdb .sent r) = pureAcks r := by
  show pureAcks (recordSent seg rdb (if level = 0 then .rtr else .none) r) = pureAcks r
  apply pureAcks_recordSent
  split_ifs <;> simp

theorem pureAcks_wholeRange : pureAcks (wholeRange .sent seg level s r) = pureAcks r := by
  have hblind : pureAcks (wholeRange .sent seg level s r) =
      pureAcks (recordFound seg level (thisIsRdbData seg s) .sent r) :=
    wholeRange_blind .sent seg level s r fun _ _ => rfl
  rw [hblind]
  exact pureAcks_recordFound seg level _ r

theorem pureAcks_finSet : pureAcks (finSet seg r) = pureAcks r :=
  finSet_blind seg r fun _ _ => rfl

theorem pureAcks_freshRange : pureAcks (freshRange seg s e) = 0 := by
  unfold freshRange
  rw [pureAcks_finSet, pureAcks_recordSent]
  · rfl
  · split_ifs <;> simp

theorem pureAcks_reusedRange (c : ℕ) : pureAcks (reusedRange seg s c r) = pureAcks r :=
  pureAcks_recordSent seg (thisIsRdbData seg s) (r.head c) (by simp)

theorem pureAcks_recordEmpty :
    pureAcks (recordEmpty seg .sent level rdb r) = pureAcks r + seg.noFlags.toNat := by
  unfold recordEmpty DataSeg.noFlags
  dsimp only
  cases seg.syn <;> cases seg.fin <;> cases seg.rst <;>
    simp only [Bool.or_true, Bool.or_false, if_true, Bool.false_eq_true, if_false]
  all_goals rfl

theorem pureAcks_emptyRange (q : ℕ) : pureAcks (emptyRange seg rdb q) = seg.noFlags.toNat := by
  unfold emptyRange
  cases seg.noFlags <;> rfl

end Record

/-! ## Data charges no pure ACK -/

/-- Every piece has the pure ACKs that its key had before the insertion: tails and fresh ranges have
none, and their keys were free. -/
theorem pieceKeeps_pureAcks (m : OrdMap ℕ ByteRange) (seg : DataSeg) (e : ℕ) :
    PieceKeeps m .sent seg e (fun _ => True)
      (fun _ en => pureAcks en.2 = m.valueAt pureAcks en.1) where
  next _ _ _ _ _ _ _ := trivial
  old _ _ _ h _ := h
  piece l s level next en hwf hkeys hlt _ hl _ hpiece := by
    have hfree : ∀ k, (∀ o ∈ l, o.1 ≠ k) → m.valueAt pureAcks k = 0 := by
      intro k hfree
      apply OrdMap.valueAt_of_free
      exact OrdMap.free_of_kept hkeys hfree
    cases hpiece with
    | fresh _ hnew _ =>
        rw [hfree s hnew]
        exact pureAcks_freshRange seg s e
    | whole r hmem _ => exact (pureAcks_wholeRange seg level s r).trans (hl _ hmem)
    | front r hmem _ =>
        exact (pureAcks_recordFound seg level _ (r.head e)).trans (hl _ hmem)
    | frontRest r _ _ hrest =>
        rw [hfree e hrest]
        rfl
    | span r hmem _ _ => exact (pureAcks_recordFound seg level _ r).trans (hl _ hmem)
    | reuse r c hmem => exact (pureAcks_reusedRange seg s r c).trans (hl _ hmem)
    | cutHead key r _ _ hmem => exact hl (key, r) hmem
    | back key r hnew =>
        rw [hfree s hnew, pureAcks_recordSplit, pureAcks_finSet]
        rfl
    | middle key r hnew =>
        rw [hfree s hnew, pureAcks_recordSplit, pureAcks_finSet]
        rfl
    | middleRest key r _ _ _ _ hrest =>
        rw [hfree e hrest]
        rfl
    | beyond key r hnew =>
        rw [hfree s hnew, pureAcks_recordSplit]
        rfl

section Step

variable {rm rm' : RangeManager} {sd : SendData}

theorem insertSentRange_data_pureAcks (hsd : Sized sd) (hdata : sd.data.payloadSize ≠ 0)
    (hwf : WfEntries rm.ranges.entries) (h : rm.insertSentRange sd = .ok rm') :
    OrdMap.KeysKept rm.ranges rm'.ranges ∧ WfEntries rm'.ranges.entries ∧
      ∀ en ∈ rm'.ranges.entries, pureAcks en.2 = rm.ranges.valueAt pureAcks en.1 := by
  have hend := hsd.size
  have hbound := hsd.bound
  obtain ⟨rm₁, ret, hins, rfl⟩ := insertSentRange_cases h
  have hsent : InsertType.sent ≠ .sojourn := by simp
  have hlt : sd.data.seq < sd.data.endSeq := by omega
  have hkept := insertLoop_forall hsent (pieceKeeps_pureAcks rm.ranges sd.data sd.data.endSeq)
    (.refl _) hlt trivial (fun _ => by omega) hwf
    (fun en hen => (OrdMap.valueAt_of_mem pureAcks hen).symm) hins
  exact hkept

/-! ## Every pure ACK is charged once -/

/-- The total of all increments. -/
def sumPureAcks (rm : RangeManager) : ℕ := (rm.ranges.entries.map fun en => pureAcks en.2).sum

theorem EmptyPass.sum_pureAcks {seg : DataSeg} {rdb : Bool} {q : ℕ} {l l' : List Entry}
    (h : EmptyPass seg rdb q l l') :
    (l'.map fun en => pureAcks en.2).sum =
      (l.map fun en => pureAcks en.2).sum + seg.noFlags.toNat := by
  cases h with
  | fresh _ _ =>
      simp only [List.map_append, List.map_cons, List.sum_append, List.sum_cons,
        pureAcks_emptyRange]
      omega
  | found r =>
      simp only [List.map_append, List.map_cons, List.sum_append, List.sum_cons,
        pureAcks_recordEmpty]
      omega

theorem insertSentRange_sumPureAcks (hsd : Sized sd) (hwf : WfEntries rm.ranges.entries)
    (h : rm.insertSentRange sd = .ok rm') :
    WfEntries rm'.ranges.entries ∧
      rm'.sumPureAcks = rm.sumPureAcks + (isPureAck sd).toNat := by
  by_cases hsize : sd.data.payloadSize = 0
  · have hend : sd.data.endSeq = sd.data.seq := by
      have := hsd.size
      omega
    obtain ⟨rm₁, h₁, -, hpass⟩ := insertSentRange_empty rm hend
    obtain rfl := Except.ok.inj (h₁.symm.trans h)
    refine ⟨hpass.wf hwf, ?_⟩
    unfold isPureAck
    rw [decide_eq_true hsize, Bool.true_and]
    exact hpass.sum_pureAcks
  · obtain ⟨hkeys, hwf', hkept⟩ := insertSentRange_data_pureAcks hsd hsize hwf h
    refine ⟨hwf', ?_⟩
    unfold isPureAck
    rw [decide_eq_false hsize, Bool.false_and]
    exact OrdMap.sum_of_keysKept hkeys hkept

/-! ## Where a counter wraps -/

/-- The range that a pure ACK is charged to still has room. -/
def KeepsPureAcks (rm : RangeManager) (sd : SendData) : Prop :=
  isPureAck sd = true → ∀ r ∈ rm.ranges.find? (rm.emptySeq sd.data sd.data.seq),
    r.ackedSent.val ≠ 255

instance (rm : RangeManager) (sd : SendData) : Decidable (KeepsPureAcks rm sd) :=
  inferInstanceAs (Decidable (_ → ∀ r ∈ rm.ranges.find? _, _))

/-- No counter of pure ACKs has wrapped. -/
def PureAcksFit (rm : RangeManager) : Prop :=
  ∀ en ∈ rm.ranges.entries, en.2.ackedSent.Fits

/-- A step wraps no counter exactly when the pure ACK found room. -/
theorem EmptyPass.fits_iff {seg : DataSeg} {rdb : Bool} {q : ℕ} {m m' : OrdMap ℕ ByteRange}
    (h : EmptyPass seg rdb q m.entries m'.entries) :
    (∀ en ∈ m'.entries, en.2.ackedSent.Fits) ↔ (∀ en ∈ m.entries, en.2.ackedSent.Fits) ∧
      (seg.noFlags = true → ∀ r ∈ m.find? q, r.ackedSent.val ≠ 255) := by
  generalize hl : m.entries = l at h
  generalize hl' : m'.entries = l' at h
  cases h with
  | @fresh pre post hpre hpost =>
      have hnone : m.find? q = none := OrdMap.find?_of_gap hl hpre hpost
      have hnew : (emptyRange seg rdb q).ackedSent.Fits := by
        show pureAcks (emptyRange seg rdb q) < 2 ^ 8
        rw [pureAcks_emptyRange]
        cases seg.noFlags <;> decide
      rw [hnone]
      constructor
      · intro hfits
        refine ⟨fun en hen => hfits en ?_, fun _ r hr => (nomatch hr)⟩
        rcases List.mem_append.mp hen with hen | hen
        · exact List.mem_append_left _ hen
        · exact List.mem_append_right _ (List.mem_cons_of_mem _ hen)
      · rintro ⟨hfits, -⟩ en hen
        rcases List.mem_append.mp hen with hen | hen
        · exact hfits en (List.mem_append_left _ hen)
        · rcases List.mem_cons.mp hen with rfl | hen
          · exact hnew
          · exact hfits en (List.mem_append_right _ hen)
  | @found pre post r =>
      have hfound : m.find? q = some r := OrdMap.find?_of_cut hl
      have hcount : (recordEmpty seg .sent 0 rdb r).ackedSent.total =
          r.ackedSent.total + seg.noFlags.toNat := pureAcks_recordEmpty seg 0 rdb r
      -- the counter of this range is the only one that moves
      have hone : (recordEmpty seg .sent 0 rdb r).ackedSent.Fits ↔
          r.ackedSent.Fits ∧ (seg.noFlags = true → r.ackedSent.val ≠ 255) := by
        unfold Counter.Fits Counter.val
        rw [hcount]
        cases seg.noFlags with
        | false => simp
        | true =>
            simp only [Bool.toNat_true, true_implies]
            omega
      rw [hfound]
      simp only [List.mem_append, List.mem_cons, Option.mem_some_iff, forall_eq', or_imp,
        forall_and, forall_eq, hone]
      tauto

theorem insertSentRange_fits_iff (hsd : Sized sd) (hwf : WfEntries rm.ranges.entries)
    (h : rm.insertSentRange sd = .ok rm') :
    rm'.PureAcksFit ↔ rm.PureAcksFit ∧ KeepsPureAcks rm sd := by
  unfold KeepsPureAcks
  by_cases hsize : sd.data.payloadSize = 0
  · have hend : sd.data.endSeq = sd.data.seq := by
      have := hsd.size
      omega
    obtain ⟨rm₁, h₁, -, hpass⟩ := insertSentRange_empty rm hend
    obtain rfl := Except.ok.inj (h₁.symm.trans h)
    unfold isPureAck
    rw [decide_eq_true hsize, Bool.true_and]
    exact hpass.fits_iff
  · -- data moves no counter of pure ACKs: each key keeps its count, and a new one starts at zero
    obtain ⟨hkeys, -, hkept⟩ := insertSentRange_data_pureAcks hsd hsize hwf h
    have hnot : isPureAck sd = false := by
      unfold isPureAck
      rw [decide_eq_false hsize, Bool.false_and]
    rw [hnot]
    constructor
    · intro hfits
      refine ⟨fun en hen => ?_, fun hack => (nomatch hack)⟩
      obtain ⟨⟨key, r'⟩, hd, hkey⟩ := hkeys en hen
      have hsame : pureAcks r' = pureAcks en.2 := by
        rw [hkept _ hd]
        dsimp only at hkey ⊢
        rw [hkey]
        exact OrdMap.valueAt_of_mem pureAcks hen
      have hlt : pureAcks r' < 2 ^ 8 := hfits _ hd
      rw [hsame] at hlt
      exact hlt
    · rintro ⟨hfits, -⟩ en hen
      show pureAcks en.2 < 2 ^ 8
      rw [hkept en hen]
      by_cases hfree : ∀ o ∈ rm.ranges.entries, o.1 ≠ en.1
      · rw [OrdMap.valueAt_of_free pureAcks hfree]
        decide
      · push Not at hfree
        obtain ⟨⟨key, r⟩, ho, rfl⟩ := hfree
        rw [OrdMap.valueAt_of_mem pureAcks ho]
        exact hfits _ ho

end Step

/-! ## Whole runs -/

/-- The counters read add up to all increments exactly when none has wrapped. -/
theorem sum_val_eq_iff (l : List Entry) :
    (l.map fun en => en.2.ackedSent.val).sum = (l.map fun en => pureAcks en.2).sum ↔
      ∀ en ∈ l, en.2.ackedSent.Fits := by
  have hle : ∀ l : List Entry,
      (l.map fun en => en.2.ackedSent.val).sum ≤ (l.map fun en => pureAcks en.2).sum := by
    intro l
    apply List.sum_le_sum
    intro en _
    exact Nat.mod_le _ _
  induction l with
  | nil => simp
  | cons en l ih =>
      have hval : en.2.ackedSent.val ≤ pureAcks en.2 := Nat.mod_le _ _
      have hfits : en.2.ackedSent.Fits ↔ en.2.ackedSent.val = pureAcks en.2 := by
        unfold Counter.Fits Counter.val pureAcks
        constructor
        · exact fun h => Nat.mod_eq_of_lt h
        · intro h
          rw [← h]
          exact Nat.mod_lt _ (by decide)
      have hrest := hle l
      rw [List.forall_mem_cons, hfits, List.map_cons, List.map_cons, List.sum_cons, List.sum_cons]
      constructor
      · intro h
        exact ⟨by omega, ih.mp (by omega)⟩
      · rintro ⟨hen, hl⟩
        have := ih.mpr hl
        omega

theorem foldl_addRange_pureAcks (withRecv : Bool) (l : List Entry) (t : LossTotals) :
    (l.foldl (fun t e => t.addRange withRecv (classifyRange withRecv e.2)) t).analysedPureAcksCount =
      t.analysedPureAcksCount + (l.map fun en => en.2.ackedSent.val).sum := by
  refine foldl_addRange (π := LossTotals.analysedPureAcksCount)
    (g := fun r => r.ackedSent.val) (fun t r => ?_) l t
  have hsame : (classifyRange withRecv r).ackedSent = r.ackedSent :=
    classifyRange_blind withRecv r _ (fun _ _ => rfl) (fun _ _ _ => rfl) (fun _ _ => rfl)
      fun _ _ => rfl
  show t.analysedPureAcksCount + (classifyRange withRecv r).ackedSent.val = _
  rw [hsame]

/-- The run keeps all counters within their range exactly when every pure ACK finds room. -/
theorem run_fits_iff {rm rm' : RangeManager} {sds : List SendData}
    (hsds : ∀ sd ∈ sds, Sized sd) (hwf : WfEntries rm.ranges.entries)
    (hrun : Run.run insertSentRange rm sds = .ok rm') :
    rm'.sumPureAcks = rm.sumPureAcks + sds.countP isPureAck ∧
      (rm'.PureAcksFit ↔ rm.PureAcksFit ∧ Run.Steps insertSentRange KeepsPureAcks rm sds) := by
  induction sds generalizing rm with
  | nil =>
      obtain rfl := Except.ok.inj hrun
      exact ⟨rfl, (and_iff_left trivial).symm⟩
  | cons sd sds ih =>
      obtain ⟨hsd, hsds⟩ := List.forall_mem_cons.mp hsds
      obtain ⟨rm₁, hstep, hrun⟩ := Run.exists_of_run_cons hrun
      obtain ⟨hwf₁, hsum⟩ := insertSentRange_sumPureAcks hsd hwf hstep
      obtain ⟨hsum', hfits⟩ := ih hsds hwf₁ hrun
      have hsteps : Run.Steps insertSentRange KeepsPureAcks rm (sd :: sds) ↔
          KeepsPureAcks rm sd ∧ Run.Steps insertSentRange KeepsPureAcks rm₁ sds := by
        refine and_congr_right fun _ => ⟨fun h => h rm₁ hstep, fun h rm₂ hstep₂ => ?_⟩
        obtain rfl := Except.ok.inj (hstep.symm.trans hstep₂)
        exact h
      constructor
      · rw [hsum', hsum, List.countP_cons]
        cases isPureAck sd
        · simp
        · simp
          omega
      · rw [hfits, insertSentRange_fits_iff hsd hwf hstep, hsteps, and_assoc]

/-- After a run, the analysis reports the number of pure ACKs that were sent exactly when none of
them was charged to a range that already had 255. -/
theorem calculateRealLoss_run_pureAcks_iff {firstSeq : ℕ} {sds : List SendData}
    {rm : RangeManager} (withRecv : Bool) (hsds : ∀ sd ∈ sds, Sized sd)
    (hrun : Run.run insertSentRange (new firstSeq) sds = .ok rm) :
    (calculateRealLoss withRecv rm.ranges.entries).analysedPureAcksCount =
        sds.countP isPureAck ↔
      Run.Steps insertSentRange KeepsPureAcks (new firstSeq) sds := by
  have hwf : WfEntries (new firstSeq).ranges.entries := fun en hen => (nomatch hen)
  obtain ⟨hsum, hfits⟩ := run_fits_iff hsds hwf hrun
  have hstart : (new firstSeq).PureAcksFit := fun en hen => (nomatch hen)
  have htotal : (calculateRealLoss withRecv rm.ranges.entries).analysedPureAcksCount =
      0 + (rm.ranges.entries.map fun en => en.2.ackedSent.val).sum :=
    foldl_addRange_pureAcks withRecv rm.ranges.entries {}
  have hzero : (new firstSeq).sumPureAcks = 0 := rfl
  rw [hzero, Nat.zero_add] at hsum
  rw [htotal, Nat.zero_add, ← hsum]
  show List.sum _ = List.sum _ ↔ _
  rw [sum_val_eq_iff]
  exact hfits.trans (and_iff_right hstart)

/-- Ten bytes and three ACKs behind them. -/
def ackedTrace : List SendData :=
  [{ data := { seq := 0, endSeq := 10, payloadSize := 10 } }, { data := { seq := 10, endSeq := 10 } },
    { data := { seq := 10, endSeq := 10 } }, { data := { seq := 11, endSeq := 11 } }]

theorem calculateRealLoss_run_pureAcks_iff_three :
    ∃ rm, Run.run insertSentRange (new 0) ackedTrace = .ok rm ∧
      (calculateRealLoss false rm.ranges.entries).analysedPureAcksCount = 3 := by
  obtain ⟨rm, hrun, -⟩ := Run.exists_of_any_toOption
    (x := Run.run insertSentRange (new 0) ackedTrace) (p := fun _ => true) (by decide)
  refine ⟨rm, hrun, ?_⟩
  have hiff := calculateRealLoss_run_pureAcks_iff false (by decide) hrun
  exact hiff.mpr (by decide)

/-- What an endpoint that only receives sends: ACKs, all with the same sequence number. -/
def receiverAcks : List SendData := List.replicate 256 { data := { seq := 1, endSeq := 1 } }

theorem calculateRealLoss_loses_pureAcks :
    (Run.run insertSentRange (new 0) receiverAcks).toOption.map
        (fun rm => (calculateRealLoss false rm.ranges.entries).analysedPureAcksCount) = some 0 ∧
      ¬∀ rm, Run.run insertSentRange (new 0) receiverAcks = .ok rm →
        (calculateRealLoss false rm.ranges.entries).analysedPureAcksCount =
          receiverAcks.countP isPureAck := by
  have hval : (Run.run insertSentRange (new 0) receiverAcks).toOption.map
      (fun rm => (calculateRealLoss false rm.ranges.entries).analysedPureAcksCount) = some 0 := by
    decide +kernel
  refine ⟨hval, fun h => ?_⟩
  cases hrun : Run.run insertSentRange (new 0) receiverAcks with
  | error e =>
      rw [hrun] at hval
      cases hval
  | ok rm =>
      rw [hrun] at hval
      have hzero : (calculateRealLoss false rm.ranges.entries).analysedPureAcksCount = 0 :=
        Option.some.inj hval
      rw [h rm hrun] at hzero
      exact absurd hzero (by decide +kernel)

end RangeManager

end AnalyseTCP
