import AnalyseTCP.DataCharges
import AnalyseTCP.PureAcks

/-!
# Counting SYN, FIN and RST

Every branch of `insertByteRange` has its own rule for the flags.  A packet without payload is
counted by an else-if chain.  Data never counts an RST, and a SYN only where it ends with a range;
a FIN is counted at level 0, wherever a range is split and wherever a new one is made, but not where
a range without bytes takes over the data or where the data reaches past the range it starts inside.
So data with a FIN is counted once, not at all or twice, as its first and its last pass decide.
-/

namespace AnalyseTCP

namespace RangeManager

/-! ## What a range counts -/

/-- The SYN, FIN and RST packets of a range, before the counters wrap. -/
def flagTotals (r : ByteRange) : ℕ × ℕ × ℕ := (r.syn.total, r.fin.total, r.rst.total)

/-- The flags of a segment, as counts. -/
def carried (seg : DataSeg) : ℕ × ℕ × ℕ := (seg.syn.toNat, seg.fin.toNat, seg.rst.toNat)

section Record

variable (seg : DataSeg) (level s e c : ℕ) (rdb : Bool) (r : ByteRange)

theorem flagTotals_head : flagTotals (r.head c) = flagTotals r := rfl

theorem flagTotals_tail : flagTotals (r.tail c) = 0 := rfl

theorem flagTotals_recordSplit :
    flagTotals (recordSplit seg level rdb .sent r) = flagTotals r := rfl

theorem flagTotals_reusedRange : flagTotals (reusedRange seg s c r) = flagTotals r := rfl

/-- `fin` is set, not increased, but only on ranges that are new. -/
theorem flagTotals_finSet (h : flagTotals r = 0) :
    flagTotals (finSet seg r) = (0, seg.fin.toNat, 0) := by
  unfold finSet
  cases seg.fin with
  | false => exact h
  | true =>
      obtain ⟨hsyn, hrest⟩ := Prod.mk.inj h
      obtain ⟨-, hrst⟩ := Prod.mk.inj hrest
      show (r.syn.total, 1, r.rst.total) = (0, 1, 0)
      rw [hsyn, hrst]

theorem flagTotals_freshRange : flagTotals (freshRange seg s e) = (0, seg.fin.toNat, 0) := by
  unfold freshRange
  apply flagTotals_finSet
  rfl

theorem flagTotals_finIncrease :
    flagTotals (finIncrease seg r) = flagTotals r + (0, seg.fin.toNat, 0) := by
  unfold finIncrease
  cases seg.fin <;> rfl

theorem flagTotals_recordFound :
    flagTotals (recordFound seg level rdb .sent r) =
      flagTotals r + (0, if level = 0 then seg.fin.toNat else 0, 0) := by
  show flagTotals (if level = 0 then finIncrease seg r else r) = _
  split_ifs
  · exact flagTotals_finIncrease seg r
  · rfl

theorem flagTotals_synIncrease :
    flagTotals (synIncrease seg r) = flagTotals r + (seg.syn.toNat, 0, 0) := by
  unfold synIncrease
  cases seg.syn <;> rfl

theorem flagTotals_wholeRange :
    flagTotals (wholeRange .sent seg level s r) =
      flagTotals r + (seg.syn.toNat, if level = 0 then seg.fin.toNat else 0, 0) := by
  show flagTotals (synIncrease seg (recordFound seg level (thisIsRdbData seg s) .sent r)) = _
  rw [flagTotals_synIncrease, flagTotals_recordFound, add_assoc]
  simp

/-- On a new range the first flag of SYN, FIN and RST counts. -/
theorem flagTotals_emptyRange (q : ℕ) :
    flagTotals (emptyRange seg rdb q) = carried seg ↔
      ¬(seg.syn && seg.fin || seg.syn && seg.rst || seg.fin && seg.rst) = true := by
  show (((if seg.syn then 1 else 0 : Counter 8).total,
    (if !seg.syn && seg.fin then 1 else 0 : Counter 8).total,
    (if !seg.syn && !seg.fin && seg.rst then 1 else 0 : Counter 8).total) : ℕ × ℕ × ℕ) = _ ↔ _
  unfold carried
  cases seg.syn <;> cases seg.fin <;> cases seg.rst <;> decide

/-- On an existing range an RST counts only without SYN and FIN. -/
theorem flagTotals_recordEmpty :
    flagTotals (recordEmpty seg .sent level rdb r) = flagTotals r + carried seg ↔
      ¬((seg.syn || seg.fin) && seg.rst) = true := by
  have hrecord : flagTotals (recordEmpty seg .sent level rdb r) = flagTotals r +
      (seg.syn.toNat, seg.fin.toNat, if seg.syn || seg.fin then 0 else seg.rst.toNat) := by
    unfold recordEmpty
    dsimp only
    cases seg.syn <;> cases seg.fin <;> cases seg.rst <;> rfl
  rw [hrecord, add_right_inj]
  unfold carried
  cases seg.syn <;> cases seg.fin <;> cases seg.rst <;> decide

end Record

/-! ## Data -/

/-- What data counts where. -/
def flagCharges (seg : DataSeg) : Charges (ℕ × ℕ × ℕ) where
  found := (0, seg.fin.toNat, 0)
  whole := (seg.syn.toNat, 0, 0)
  reuse := 0
  fresh := (0, seg.fin.toNat, 0)
  split := (0, seg.fin.toNat, 0)
  beyond := 0

theorem chargedBy_flags (seg : DataSeg) : ChargedBy seg flagTotals (flagCharges seg) where
  head r c := flagTotals_head c r
  tail r c := flagTotals_tail c r
  found level rdb r := by
    rw [flagTotals_recordFound]
    cases level <;> rfl
  whole level s r := by
    rw [flagTotals_wholeRange]
    cases level <;> simp [flagCharges]
  reuse s c r := flagTotals_reusedRange seg s c r
  fresh s e := flagTotals_freshRange seg s e
  split rdb r h := by
    rw [flagTotals_recordSplit, flagTotals_finSet seg r h]
    rfl
  beyond rdb r h := by
    rw [flagTotals_recordSplit]
    exact h

/-- The first and the last pass decide what data counts. -/
theorem dataCharge_flags (seg : DataSeg) {lastSeq s e : ℕ} {l : List Entry} (hwf : WfEntries l)
    (hsorted : l.Pairwise fun a b => a.1 < b.1) (hsep : Separated l) (hlt : s < e) :
    dataCharge (flagCharges seg) lastSeq e l s = startCharge (flagCharges seg) 0 l s +
      lastCharge (flagCharges seg) e (finalRange lastSeq e l s) := by
  unfold finalRange
  cases haround : aroundRange lastSeq l s with
  | none =>
      rw [dataCharge_of_clear _ haround hlt]
      show _ + (_ • (0 : ℕ × ℕ × ℕ) + _) = _
      rw [nsmul_zero, zero_add]
  | some r =>
      obtain ⟨key, hmem, hkey, hlo⟩ := exists_of_aroundRange haround
      have hfree := ne_of_around hwf hsorted hsep hmem hkey hlo
      rw [dataCharge_of_around _ haround,
        startCharge_of_empty _ 0 fun en hen hkey => absurd hkey (hfree en hen), zero_add]
      dsimp only
      split_ifs
      · show 0 + (_ • (0 : ℕ × ℕ × ℕ) + _) = _
        rw [nsmul_zero, zero_add, zero_add]
      · rfl

/-! ## Data without flags -/

/-- Without SYN and FIN, the pieces count what their keys counted before. -/
theorem pieceKeeps_flags (m : OrdMap ℕ ByteRange) {seg : DataSeg} (e : ℕ) (hsyn : seg.syn = false)
    (hfin : seg.fin = false) (f : ℕ × ℕ × ℕ →+ ℕ) :
    PieceKeeps m .sent seg e (fun _ => True)
      (fun _ en => f (flagTotals en.2) = m.valueAt (fun r => f (flagTotals r)) en.1) where
  next _ _ _ _ _ _ _ := trivial
  old _ _ _ h _ := h
  piece l s level next en hwf hkeys hlt _ hl _ hpiece := by
    -- a key that no range has now had none at the start, and counted nothing
    have hfree : ∀ k, (∀ o ∈ l, o.1 ≠ k) → m.valueAt (fun r => f (flagTotals r)) k = 0 := by
      intro k hfree
      apply OrdMap.valueAt_of_free
      exact OrdMap.free_of_kept hkeys hfree
    have hset : ∀ r, flagTotals r = 0 → flagTotals (finSet seg r) = 0 := by
      intro r hr
      rw [flagTotals_finSet seg r hr, hfin]
      rfl
    have hfound : ∀ rdb r, flagTotals (recordFound seg level rdb .sent r) = flagTotals r := by
      intro rdb r
      rw [flagTotals_recordFound, hfin]
      simp
    have hwhole : ∀ r, flagTotals (wholeRange .sent seg level s r) = flagTotals r := by
      intro r
      rw [flagTotals_wholeRange, hfin, hsyn]
      simp
    cases hpiece with
    | fresh _ hnew _ =>
        rw [hfree s hnew]
        dsimp only
        rw [flagTotals_freshRange, hfin]
        exact map_zero f
    | whole r hmem _ =>
        dsimp only
        rw [hwhole]
        exact hl _ hmem
    | front r hmem _ =>
        dsimp only
        rw [hfound, flagTotals_head]
        exact hl _ hmem
    | frontRest r _ _ hrest =>
        rw [hfree e hrest]
        exact map_zero f
    | span r hmem _ _ =>
        dsimp only
        rw [hfound]
        exact hl _ hmem
    | reuse r c hmem =>
        dsimp only
        rw [flagTotals_reusedRange]
        exact hl _ hmem
    | cutHead key r _ _ hmem => exact hl (key, r) hmem
    | back key r hnew =>
        rw [hfree s hnew]
        dsimp only
        rw [flagTotals_recordSplit, hset _ (flagTotals_tail s r)]
        exact map_zero f
    | middle key r hnew =>
        have hzero : flagTotals ((r.tail s).head e) = 0 := rfl
        rw [hfree s hnew]
        dsimp only
        rw [flagTotals_recordSplit, hset _ hzero]
        exact map_zero f
    | middleRest key r _ _ _ _ hrest =>
        rw [hfree e hrest]
        exact map_zero f
    | beyond key r hnew =>
        rw [hfree s hnew]
        dsimp only
        rw [flagTotals_recordSplit, flagTotals_tail]
        exact map_zero f

/-- Two sums agree if their components do. -/
theorem flagSum_eq_of_components {l l' : List Entry}
    (h : ∀ f : ℕ × ℕ × ℕ →+ ℕ, (l'.map fun en => f (flagTotals en.2)).sum =
      (l.map fun en => f (flagTotals en.2)).sum) : chargeSum flagTotals l' = chargeSum flagTotals l := by
  have hcomp : ∀ f : ℕ × ℕ × ℕ →+ ℕ, f (chargeSum flagTotals l') = f (chargeSum flagTotals l) := by
    intro f
    have hsum : ∀ l : List Entry,
        f (chargeSum flagTotals l) = (l.map fun en => f (flagTotals en.2)).sum := by
      intro l
      unfold chargeSum
      rw [map_list_sum, List.map_map]
      rfl
    rw [hsum, hsum]
    exact h f
  apply Prod.ext
  · exact hcomp (AddMonoidHom.fst ℕ (ℕ × ℕ))
  · apply Prod.ext
    · exact hcomp ((AddMonoidHom.fst ℕ ℕ).comp (AddMonoidHom.snd ℕ (ℕ × ℕ)))
    · exact hcomp ((AddMonoidHom.snd ℕ ℕ).comp (AddMonoidHom.snd ℕ (ℕ × ℕ)))

section Step

variable {rm rm' : RangeManager} {sd : SendData}

theorem insertSentRange_plain_flags (hsd : Sized sd) (hdata : sd.data.payloadSize ≠ 0)
    (hsyn : sd.data.syn = false) (hfin : sd.data.fin = false) (hwf : WfEntries rm.ranges.entries)
    (h : rm.insertSentRange sd = .ok rm') :
    chargeSum flagTotals rm'.ranges.entries = chargeSum flagTotals rm.ranges.entries := by
  have hend := hsd.size
  have hbound := hsd.bound
  obtain ⟨rm₁, ret, hins, rfl⟩ := insertSentRange_cases h
  have hsent : InsertType.sent ≠ .sojourn := by simp
  have hlt : sd.data.seq < sd.data.endSeq := by omega
  apply flagSum_eq_of_components
  intro f
  obtain ⟨hkeys, -, hkept⟩ := insertLoop_forall hsent
    (pieceKeeps_flags rm.ranges sd.data.endSeq hsyn hfin f) (.refl _) hlt trivial
    (fun _ => by omega) hwf
    (fun en hen => (OrdMap.valueAt_of_mem (fun r => f (flagTotals r)) hen).symm) hins
  have hsum := OrdMap.sum_of_keysKept (f := fun r => f (flagTotals r)) hkeys hkept
  exact hsum

/-! ## One packet -/

/-- The FIN of data is counted once: either the data starts on a range with bytes and makes no new
one, or it makes one and does not start so. -/
def FinOnce (rm : RangeManager) (seg : DataSeg) : Prop :=
  finalRange rm.lastSeq seg.endSeq rm.ranges.entries seg.seq = none ↔
    ∀ en ∈ rm.ranges.entries, en.1 = seg.seq → en.2.endSeq = seg.seq

/-- The SYN of data is counted: the data ends with a range. -/
def SynAtEnd (rm : RangeManager) (seg : DataSeg) : Prop :=
  ∃ r ∈ finalRange rm.lastSeq seg.endSeq rm.ranges.entries seg.seq, r.endSeq = seg.endSeq

instance (rm : RangeManager) (seg : DataSeg) : Decidable (FinOnce rm seg) := by
  unfold FinOnce
  infer_instance

instance (rm : RangeManager) (seg : DataSeg) : Decidable (SynAtEnd rm seg) := by
  unfold SynAtEnd
  infer_instance

/-- The flags of a packet without payload are counted once, on the range that `emptySeq` finds. -/
def EmptyOnce (seg : DataSeg) : Option ByteRange → Prop
  | none => ¬(seg.syn && seg.fin || seg.syn && seg.rst || seg.fin && seg.rst) = true
  | some _ => ¬((seg.syn || seg.fin) && seg.rst) = true

instance (seg : DataSeg) : (o : Option ByteRange) → Decidable (EmptyOnce seg o)
  | none => inferInstanceAs (Decidable (¬_ = true))
  | some _ => inferInstanceAs (Decidable (¬_ = true))

/-- Every flag of the packet is counted once. -/
def KeepsFlags (rm : RangeManager) (sd : SendData) : Prop :=
  if sd.data.payloadSize = 0 then
    EmptyOnce sd.data (rm.ranges.find? (rm.emptySeq sd.data sd.data.seq))
  else
    sd.data.rst = false ∧ ((sd.data.syn || sd.data.fin) = true → rm.Disjoint ∧
      (sd.data.fin = true → FinOnce rm sd.data) ∧ (sd.data.syn = true → SynAtEnd rm sd.data))

instance (rm : RangeManager) (sd : SendData) : Decidable (KeepsFlags rm sd) := by
  unfold KeepsFlags
  infer_instance

theorem EmptyPass.flags {seg : DataSeg} {rdb : Bool} {q : ℕ} {m m' : OrdMap ℕ ByteRange}
    (hok : EmptyOnce seg (m.find? q)) (h : EmptyPass seg rdb q m.entries m'.entries) :
    chargeSum flagTotals m'.entries = chargeSum flagTotals m.entries + carried seg := by
  generalize hl : m.entries = l at h
  generalize hl' : m'.entries = l' at h
  cases h with
  | @fresh pre post hpre hpost =>
      have hnone : m.find? q = none := OrdMap.find?_of_gap hl hpre hpost
      rw [hnone] at hok
      have hnew := (flagTotals_emptyRange seg rdb q).mpr hok
      simp only [chargeSum_append, chargeSum_cons, hnew]
      abel
  | @found pre post r =>
      rw [OrdMap.find?_of_cut hl] at hok
      have hold := (flagTotals_recordEmpty seg 0 rdb r).mpr hok
      simp only [chargeSum_append, chargeSum_cons, hold]
      abel

theorem insertSentRange_flags (hsd : Sized sd) (hwf : WfEntries rm.ranges.entries)
    (hok : KeepsFlags rm sd) (h : rm.insertSentRange sd = .ok rm') :
    chargeSum flagTotals rm'.ranges.entries = chargeSum flagTotals rm.ranges.entries + carried sd.data := by
  have hend := hsd.size
  have hbound := hsd.bound
  by_cases hsize : sd.data.payloadSize = 0
  · rw [KeepsFlags, if_pos hsize] at hok
    have hempty : sd.data.endSeq = sd.data.seq := by omega
    obtain ⟨rm₁, h₁, -, hpass⟩ := insertSentRange_empty rm hempty
    obtain rfl := Except.ok.inj (h₁.symm.trans h)
    exact hpass.flags hok
  · rw [KeepsFlags, if_neg hsize] at hok
    obtain ⟨hrst, hflags⟩ := hok
    cases hany : sd.data.syn || sd.data.fin with
    | false =>
        obtain ⟨hsyn, hfin⟩ := Bool.or_eq_false_iff.mp hany
        have hnone : carried sd.data = 0 := by
          unfold carried
          rw [hsyn, hfin, hrst]
          rfl
        rw [hnone, add_zero]
        exact insertSentRange_plain_flags hsd hsize hsyn hfin hwf h
    | true =>
        obtain ⟨hdisjoint, hfinOnce, hsynEnd⟩ := hflags hany
        have hapart : rm.Apart := ⟨hwf, separated_of_isChain hwf hdisjoint⟩
        obtain ⟨rm₁, ret, hins, rfl⟩ := insertSentRange_cases h
        have hlt : sd.data.seq < sd.data.endSeq := by omega
        have hsum := insertLoop_dataCharge (chargedBy_flags sd.data) hapart hlt (by omega) hins
        refine hsum.trans ?_
        rw [add_right_inj, dataCharge_flags _ hwf rm.ranges.sorted hapart.2 hlt]
        -- the first and the last pass count what the segment carries
        cases hfinal : finalRange rm.lastSeq sd.data.endSeq rm.ranges.entries sd.data.seq with
        | none =>
            have hsyn : sd.data.syn = false := by
              by_contra hne
              obtain ⟨r, hr, -⟩ := hsynEnd (Bool.of_not_eq_false hne)
              rw [hfinal] at hr
              cases hr
            have hfin : sd.data.fin = true := by
              rw [hsyn, Bool.false_or] at hany
              exact hany
            rw [startCharge_of_empty _ 0 ((hfinOnce hfin).mp hfinal), zero_add]
            unfold carried
            rw [hsyn, hrst]
            rfl
        | some r =>
            have hrest : lastCharge (flagCharges sd.data) sd.data.endSeq (some r) =
                (sd.data.syn.toNat, 0, 0) := by
              show (if r.endSeq = sd.data.endSeq then (sd.data.syn.toNat, 0, 0) else 0) = _
              cases hsyn : sd.data.syn with
              | false => exact ite_self _
              | true =>
                  obtain ⟨o, ho, hoe⟩ := hsynEnd hsyn
                  rw [hfinal] at ho
                  obtain rfl := Option.some.inj ho
                  exact if_pos hoe
            have hstart : startCharge (flagCharges sd.data) 0 rm.ranges.entries sd.data.seq =
                (0, sd.data.fin.toNat, 0) := by
              show (if _ then (0, sd.data.fin.toNat, 0) else 0) = _
              cases hfin : sd.data.fin with
              | false => exact ite_self _
              | true =>
                  have hnot : ¬∀ en ∈ rm.ranges.entries, en.1 = sd.data.seq →
                      en.2.endSeq = sd.data.seq := by
                    intro hall
                    have hnone := (hfinOnce hfin).mpr hall
                    rw [hfinal] at hnone
                    cases hnone
                  push Not at hnot
                  exact if_pos ⟨rfl, hnot⟩
            rw [hrest, hstart]
            unfold carried
            rw [hrst]
            simp

end Step

/-! ## Whole runs -/

/-- The flags of all packets. -/
def carriedSum (sds : List SendData) : ℕ × ℕ × ℕ := (sds.map fun sd => carried sd.data).sum

theorem carriedSum_eq (sds : List SendData) :
    carriedSum sds = (sds.countP fun sd => sd.data.syn, sds.countP fun sd => sd.data.fin,
      sds.countP fun sd => sd.data.rst) := by
  induction sds with
  | nil => rfl
  | cons sd sds ih =>
      have hcons : carriedSum (sd :: sds) = carried sd.data + carriedSum sds := List.sum_cons
      rw [hcons, ih]
      unfold carried
      simp only [List.countP_cons, Prod.mk_add_mk]
      cases sd.data.syn <;> cases sd.data.fin <;> cases sd.data.rst <;> simp [Nat.add_comm]

theorem insertSentRange_run_flagSum {firstSeq : ℕ} {sds : List SendData} {rm : RangeManager}
    (hsds : ∀ sd ∈ sds, Sized sd)
    (hsteps : Run.Steps insertSentRange KeepsFlags (new firstSeq) sds)
    (hrun : Run.run insertSentRange (new firstSeq) sds = .ok rm) :
    chargeSum flagTotals rm.ranges.entries = carriedSum sds := by
  have hstart : WfEntries (new firstSeq).ranges.entries ∧
      chargeSum flagTotals (new firstSeq).ranges.entries = carriedSum [] := ⟨wfEntries_nil, rfl⟩
  have hend : WfEntries rm.ranges.entries ∧ chargeSum flagTotals rm.ranges.entries = carriedSum sds := by
    apply Run.invariant (I := fun rm done => WfEntries rm.ranges.entries ∧
      chargeSum flagTotals rm.ranges.entries = carriedSum done) (d := []) _ hstart (hsteps.and_forall hsds) hrun
    rintro rm sd rm' done ⟨hwf, hsum⟩ ⟨hok, hsd⟩ hstep
    refine ⟨(insertSentRange_sumPureAcks hsd hwf hstep).1, ?_⟩
    rw [insertSentRange_flags hsd hwf hok hstep, hsum]
    unfold carriedSum
    rw [List.map_append, List.sum_append, List.map_singleton, List.sum_singleton]
  exact hend.2

/-- What the program reads of a counter adds up to all increments if none has wrapped. -/
theorem sum_val_of_fits {l : List Entry} {f : ByteRange → Counter 8}
    (h : ∀ en ∈ l, (f en.2).Fits) :
    (l.map fun en => (f en.2).val).sum = (l.map fun en => (f en.2).total).sum := by
  congr 1
  apply List.map_congr_left
  intro en hen
  exact Counter.val_of_fits (h en hen)

theorem flagSum_eq (l : List Entry) :
    chargeSum flagTotals l = ((l.map fun en => en.2.syn.total).sum, (l.map fun en => en.2.fin.total).sum,
      (l.map fun en => en.2.rst.total).sum) := by
  induction l with
  | nil => rfl
  | cons en l ih =>
      rw [chargeSum_cons, ih]
      rfl

/-- No counter of flags has wrapped. -/
def FlagsFit (rm : RangeManager) : Prop :=
  ∀ en ∈ rm.ranges.entries, en.2.syn.Fits ∧ en.2.fin.Fits ∧ en.2.rst.Fits

instance (rm : RangeManager) : Decidable rm.FlagsFit :=
  inferInstanceAs (Decidable (∀ en ∈ rm.ranges.entries, _))

/-- The flags that the ranges count are the flags of the packets. -/
def FlagsExact (rm : RangeManager) (sds : List SendData) : Prop :=
  (rm.ranges.entries.map fun en => en.2.syn.val).sum = sds.countP (fun sd => sd.data.syn) ∧
    (rm.ranges.entries.map fun en => en.2.fin.val).sum = sds.countP (fun sd => sd.data.fin) ∧
    (rm.ranges.entries.map fun en => en.2.rst.val).sum = sds.countP (fun sd => sd.data.rst)

instance (rm : RangeManager) (sds : List SendData) : Decidable (FlagsExact rm sds) :=
  inferInstanceAs (Decidable (_ = _ ∧ _ = _ ∧ _ = _))

/-- In every run whose packets meet the map so that each flag is counted once, the ranges count the
SYN, FIN and RST packets that were sent. -/
theorem insertSentRange_run_flags {firstSeq : ℕ} {sds : List SendData} {rm : RangeManager}
    (hsds : ∀ sd ∈ sds, Sized sd)
    (hsteps : Run.Steps insertSentRange KeepsFlags (new firstSeq) sds)
    (hrun : Run.run insertSentRange (new firstSeq) sds = .ok rm) (hfits : rm.FlagsFit) :
    FlagsExact rm sds := by
  have hsum := insertSentRange_run_flagSum hsds hsteps hrun
  rw [flagSum_eq, carriedSum_eq] at hsum
  obtain ⟨hsyn, hrest⟩ := Prod.mk.inj hsum
  obtain ⟨hfin, hrst⟩ := Prod.mk.inj hrest
  refine ⟨?_, ?_, ?_⟩
  · rw [← hsyn]
    exact sum_val_of_fits fun en hen => (hfits en hen).1
  · rw [← hfin]
    exact sum_val_of_fits fun en hen => (hfits en hen).2.1
  · rw [← hrst]
    exact sum_val_of_fits fun en hen => (hfits en hen).2.2

/-- A SYN, data, data with a FIN behind it, the same data again, a FIN alone and an RST. -/
def closingTrace : List SendData :=
  [{ data := { seq := 0, endSeq := 0, flags := thSyn } },
    { data := { seq := 1, endSeq := 6, payloadSize := 5 } },
    { data := { seq := 6, endSeq := 9, payloadSize := 3, flags := thFin } },
    { data := { seq := 6, endSeq := 9, payloadSize := 3, flags := thFin, retrans := true } },
    { data := { seq := 9, endSeq := 9, flags := thFin } },
    { data := { seq := 10, endSeq := 10, flags := thRst } }]

theorem insertSentRange_run_flags_closing :
    ∃ rm, Run.run insertSentRange (new 0) closingTrace = .ok rm ∧ FlagsExact rm closingTrace := by
  obtain ⟨rm, hrun, hfits⟩ := Run.exists_of_any_toOption
    (x := Run.run insertSentRange (new 0) closingTrace) (p := fun rm => decide rm.FlagsFit)
    (by decide)
  exact ⟨rm, hrun, insertSentRange_run_flags (by decide) (by decide) hrun (of_decide_eq_true hfits)⟩

/-- Five bytes, and a bundle that repeats them with three more and a FIN. -/
def finBundleTrace : List SendData :=
  [{ data := { seq := 0, endSeq := 5, payloadSize := 5 } },
    { data :=
        { seq := 0, endSeq := 8, payloadSize := 8, flags := thFin, isRdb := true, rdbEndSeq := 5 } }]

theorem insertSentRange_counts_fin_twice :
    (Run.run insertSentRange (new 0) finBundleTrace).toOption.map
        (fun rm => (rm.ranges.entries.map fun en => en.2.fin.val).sum) = some 2 ∧
      ¬∀ rm, Run.run insertSentRange (new 0) finBundleTrace = .ok rm → rm.FlagsFit →
        FlagsExact rm finBundleTrace := by
  refine ⟨by decide, fun h => ?_⟩
  obtain ⟨rm, hrun, hfits⟩ := Run.exists_of_any_toOption
    (x := Run.run insertSentRange (new 0) finBundleTrace)
    (p := fun rm => decide (rm.FlagsFit ∧ ¬FlagsExact rm finBundleTrace)) (by decide)
  obtain ⟨hfit, hnot⟩ := of_decide_eq_true hfits
  exact hnot (h rm hrun hfit)

end RangeManager

end AnalyseTCP
