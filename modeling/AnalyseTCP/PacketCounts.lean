import AnalyseTCP.DataCharges
import AnalyseTCP.PureAcks

/-!
# Counting packets and retransmissions

`calculateRealLoss` adds up `packet_sent_count`, `packet_retrans_count` and `acked_sent` as the
number of packets in the dump, and `packet_retrans_count` as the number of retransmissions.  Only
the first pass over a packet is meant to charge it.  A range without bytes is an exception: the pass
that takes it over charges the packet at any level, as a pass does that makes a new range.
-/

namespace AnalyseTCP

namespace RangeManager

/-! ## What a range counts -/

/-- The packets charged to a range and those of them charged as retransmissions, before the
counters wrap. -/
def packetTotals (r : ByteRange) : ℕ × ℕ :=
  (r.packetSentCount.total + r.packetRetransCount.total + r.ackedSent.total,
    r.packetRetransCount.total)

/-- What one call of `increase_sent` counts. -/
def sentCharge : SentType → ℕ × ℕ
  | .none => 0
  | .rtr => (1, 1)
  | .pkt | .pureAck | .rst => (1, 0)

section Record

variable (seg : DataSeg) (level s e c : ℕ) (rdb : Bool) (r : ByteRange)

theorem packetTotals_recordSent (sentT : SentType) :
    packetTotals (recordSent seg rdb sentT r) = packetTotals r + sentCharge sentT := by
  have hsum : ∀ p q a x y z : ℕ,
      (((p + x) + (q + y) + (a + z), q + y) : ℕ × ℕ) = (p + q + a, q) + (x + y + z, y) := by
    intro p q a x y z
    apply Prod.ext
    · show (p + x) + (q + y) + (a + z) = (p + q + a) + (x + y + z)
      omega
    · rfl
  have hcharge : ((((if sentT = .pkt ∨ sentT = .rst then 1 else 0) +
        (if sentT = .rtr then 1 else 0) + (if sentT = .pureAck then 1 else 0),
        if sentT = .rtr then 1 else 0) : ℕ × ℕ)) = sentCharge sentT := by
    cases sentT <;> rfl
  rw [← hcharge]
  exact hsum _ _ _ _ _ _

theorem packetTotals_head : packetTotals (r.head c) = packetTotals r := rfl

theorem packetTotals_tail : packetTotals (r.tail c) = 0 := rfl

theorem packetTotals_finSet : packetTotals (finSet seg r) = packetTotals r :=
  finSet_blind seg r fun _ _ => rfl

theorem packetTotals_recordFound :
    packetTotals (recordFound seg level rdb .sent r) =
      packetTotals r + sentCharge (foundType seg level) := by
  have hblind : packetTotals (recordSentFound seg level rdb r) =
      packetTotals (recordSentCounts seg level rdb r) :=
    recordSentFound_blind seg level rdb r fun _ _ => rfl
  show packetTotals (recordSentFound seg level rdb r) = _
  rw [hblind]
  exact packetTotals_recordSent seg rdb r (foundType seg level)

theorem packetTotals_wholeRange :
    packetTotals (wholeRange .sent seg level s r) =
      packetTotals r + sentCharge (foundType seg level) := by
  have hblind : packetTotals (wholeRange .sent seg level s r) =
      packetTotals (recordFound seg level (thisIsRdbData seg s) .sent r) :=
    wholeRange_blind .sent seg level s r fun _ _ => rfl
  rw [hblind]
  exact packetTotals_recordFound seg level _ r

theorem packetTotals_recordSplit :
    packetTotals (recordSplit seg 0 rdb .sent r) = packetTotals r + (1, 1) :=
  packetTotals_recordSent seg rdb r .rtr

theorem packetTotals_freshRange :
    packetTotals (freshRange seg s e) = (if seg.isRdb then 0 else 1, 0) := by
  unfold freshRange
  rw [packetTotals_finSet, packetTotals_recordSent]
  cases seg.isRdb <;> rfl

theorem packetTotals_reusedRange :
    packetTotals (reusedRange seg s c r) = packetTotals r + (1, 0) :=
  packetTotals_recordSent seg (thisIsRdbData seg s) (r.head c) .pkt

/-- A SYN or FIN on an existing range is charged as a retransmission. -/
theorem packetTotals_recordEmpty :
    packetTotals (recordEmpty seg .sent level rdb r) =
      packetTotals r + (1, (seg.syn || seg.fin).toNat) := by
  unfold recordEmpty
  dsimp only
  cases seg.syn || seg.fin with
  | true =>
      rw [if_pos rfl]
      exact packetTotals_recordSent seg rdb _ .rtr
  | false =>
      rw [if_neg Bool.false_ne_true]
      cases seg.rst with
      | true =>
          rw [if_pos rfl]
          exact packetTotals_recordSent seg rdb _ .rst
      | false =>
          rw [if_neg Bool.false_ne_true]
          exact packetTotals_recordSent seg rdb _ .pureAck

theorem packetTotals_emptyRange (q : ℕ) :
    packetTotals (emptyRange seg rdb q) = (seg.retrans.toNat + 1, seg.retrans.toNat) := by
  unfold emptyRange
  rw [packetTotals_recordSent]
  cases seg.retrans <;> cases seg.noFlags <;> rfl

end Record

/-! ## Data -/

/-- What data is charged where. -/
def packetCharges (seg : DataSeg) : Charges (ℕ × ℕ) where
  found := (1, seg.retrans.toNat)
  whole := 0
  reuse := (1, 0)
  fresh := (if seg.isRdb then 0 else 1, 0)
  split := (1, 1)
  beyond := (1, 1)

theorem sentCharge_foundType (seg : DataSeg) (level : ℕ) :
    sentCharge (foundType seg level) = if level = 0 then (packetCharges seg).found else 0 := by
  unfold foundType packetCharges
  cases level with
  | zero => cases seg.retrans <;> rfl
  | succ level => rfl

theorem chargedBy_packets (seg : DataSeg) : ChargedBy seg packetTotals (packetCharges seg) where
  head r c := packetTotals_head c r
  tail r c := packetTotals_tail c r
  found level rdb r := by
    rw [packetTotals_recordFound, sentCharge_foundType]
  whole level s r := by
    rw [packetTotals_wholeRange, sentCharge_foundType]
    rfl
  reuse s c r := packetTotals_reusedRange seg s c r
  fresh s e := packetTotals_freshRange seg s e
  split rdb r h := by
    rw [packetTotals_recordSplit, packetTotals_finSet, h, zero_add]
    rfl
  beyond rdb r h := by
    rw [packetTotals_recordSplit, h, zero_add]
    rfl

/-- The packets that the rest of the data is charged as, from `s` on. -/
def restPackets (seg : DataSeg) (l : List Entry) (s : ℕ) : ℕ :=
  reusedCount seg.endSeq l s +
    if lastRange seg.endSeq l s = none ∧ seg.isRdb = false then 1 else 0

theorem restCharge_packets (seg : DataSeg) (l : List Entry) {s : ℕ} (hlt : s < seg.endSeq) :
    restCharge (packetCharges seg) seg.endSeq l s = (restPackets seg l s, 0) := by
  have hlast : lastCharge (packetCharges seg) seg.endSeq (lastRange seg.endSeq l s) =
      (if lastRange seg.endSeq l s = none ∧ seg.isRdb = false then 1 else 0, 0) := by
    cases lastRange seg.endSeq l s with
    | none =>
        show (if seg.isRdb then 0 else 1, 0) = _
        cases seg.isRdb <;> rfl
    | some r =>
        show (if r.endSeq = seg.endSeq then 0 else 0) = _
        rw [ite_self, if_neg fun h => nomatch h.1]
        rfl
  rw [restCharge_eq _ hlt, hlast]
  show _ • ((1, 0) : ℕ × ℕ) + _ = _
  unfold restPackets
  simp

/-- Data is charged once. -/
def DataOnce (rm : RangeManager) (seg : DataSeg) : Prop :=
  match aroundRange rm.lastSeq rm.ranges.entries seg.seq with
  | some r => r.endSeq < seg.endSeq → restPackets seg rm.ranges.entries r.endSeq = 0
  | none => restPackets seg rm.ranges.entries seg.seq =
      if StartsRange rm.ranges.entries seg.seq then 0 else 1

instance (rm : RangeManager) (seg : DataSeg) : Decidable (DataOnce rm seg) :=
  match h : aroundRange rm.lastSeq rm.ranges.entries seg.seq with
  | some r =>
      decidable_of_iff (r.endSeq < seg.endSeq → restPackets seg rm.ranges.entries r.endSeq = 0)
        (by unfold DataOnce; rw [h])
  | none =>
      decidable_of_iff (restPackets seg rm.ranges.entries seg.seq =
        if StartsRange rm.ranges.entries seg.seq then 0 else 1) (by unfold DataOnce; rw [h])

/-- The charges of data: one packet exactly under `DataOnce`, and one retransmission where it
starts inside a range or, with the mark, at a range with bytes. -/
theorem dataCharge_packets (rm : RangeManager) (seg : DataSeg) (hlt : seg.seq < seg.endSeq) :
    ((dataCharge (packetCharges seg) rm.lastSeq seg.endSeq rm.ranges.entries seg.seq).1 = 1 ↔
      DataOnce rm seg) ∧
    (dataCharge (packetCharges seg) rm.lastSeq seg.endSeq rm.ranges.entries seg.seq).2 =
      if (aroundRange rm.lastSeq rm.ranges.entries seg.seq).isSome then 1
      else if StartsRange rm.ranges.entries seg.seq then seg.retrans.toNat else 0 := by
  unfold DataOnce dataCharge
  -- data that starts inside a range charges its cut piece; else the range that it starts at, if any
  cases haround : aroundRange rm.lastSeq rm.ranges.entries seg.seq with
  | some r =>
      dsimp only
      by_cases hgo : r.endSeq < seg.endSeq
      · rw [if_pos hgo, restCharge_packets seg _ hgo]
        constructor
        · show 1 + restPackets seg rm.ranges.entries r.endSeq = 1 ↔ _
          rw [Nat.add_eq_left]
          exact ⟨fun h _ => h, fun h => h hgo⟩
        · rfl
      · rw [if_neg hgo]
        exact ⟨iff_of_true rfl fun h => absurd h hgo, rfl⟩
  | none =>
      dsimp only
      rw [restCharge_packets seg _ hlt]
      unfold startCharge
      by_cases hstart : StartsRange rm.ranges.entries seg.seq
      · rw [if_pos ⟨rfl, hstart⟩, if_pos hstart, if_pos hstart]
        constructor
        · show 1 + restPackets seg rm.ranges.entries seg.seq = 1 ↔ _
          rw [Nat.add_eq_left]
        · rfl
      · rw [if_neg fun h => hstart h.2, if_neg hstart, if_neg hstart, zero_add]
        exact ⟨Iff.rfl, rfl⟩

/-! ## One packet -/

/-- What a packet without payload is charged, on a new range or on the one that `emptySeq` finds. -/
def emptyCharge (seg : DataSeg) : Option ByteRange → ℕ × ℕ
  | none => (seg.retrans.toNat + 1, seg.retrans.toNat)
  | some _ => (1, (seg.syn || seg.fin).toNat)

theorem EmptyPass.packets {seg : DataSeg} {rdb : Bool} {q : ℕ} {m m' : OrdMap ℕ ByteRange}
    (h : EmptyPass seg rdb q m.entries m'.entries) :
    chargeSum packetTotals m'.entries =
      chargeSum packetTotals m.entries + emptyCharge seg (m.find? q) := by
  generalize hl : m.entries = l at h
  generalize hl' : m'.entries = l' at h
  cases h with
  | @fresh pre post hpre hpost =>
      have hnone : m.find? q = none := OrdMap.find?_of_gap hl hpre hpost
      rw [hnone]
      simp only [chargeSum_append, chargeSum_cons, packetTotals_emptyRange, emptyCharge]
      abel
  | @found pre post r =>
      rw [OrdMap.find?_of_cut hl]
      simp only [chargeSum_append, chargeSum_cons, packetTotals_recordEmpty, emptyCharge]
      abel

section Step

variable {rm rm' : RangeManager} {sd : SendData}

theorem insertSentRange_packets_empty (hsd : Sized sd) (hsize : sd.data.payloadSize = 0)
    (h : rm.insertSentRange sd = .ok rm') :
    chargeSum packetTotals rm'.ranges.entries = chargeSum packetTotals rm.ranges.entries +
      emptyCharge sd.data (rm.ranges.find? (rm.emptySeq sd.data sd.data.seq)) := by
  have hend := hsd.size
  have hempty : sd.data.endSeq = sd.data.seq := by omega
  obtain ⟨rm₁, h₁, -, hpass⟩ := insertSentRange_empty rm hempty
  obtain rfl := Except.ok.inj (h₁.symm.trans h)
  exact hpass.packets

theorem insertSentRange_packets_data (hsd : Sized sd) (hsize : sd.data.payloadSize ≠ 0)
    (hwf : WfEntries rm.ranges.entries) (hdisjoint : rm.Disjoint)
    (h : rm.insertSentRange sd = .ok rm') :
    chargeSum packetTotals rm'.ranges.entries = chargeSum packetTotals rm.ranges.entries +
      dataCharge (packetCharges sd.data) rm.lastSeq sd.data.endSeq rm.ranges.entries
        sd.data.seq := by
  have hend := hsd.size
  have hbound := hsd.bound
  have hlt : sd.data.seq < sd.data.endSeq := by omega
  have hapart : rm.Apart := ⟨hwf, separated_of_isChain hwf hdisjoint⟩
  obtain ⟨rm₁, ret, hins, rfl⟩ := insertSentRange_cases h
  have hsum := insertLoop_dataCharge (chargedBy_packets sd.data) hapart hlt (by omega) hins
  exact hsum

/-- The packet is charged once. -/
def KeepsPackets (rm : RangeManager) (sd : SendData) : Prop :=
  if sd.data.payloadSize = 0 then sd.data.retrans = false
  else rm.Disjoint ∧ DataOnce rm sd.data

instance (rm : RangeManager) (sd : SendData) : Decidable (KeepsPackets rm sd) := by
  unfold KeepsPackets
  infer_instance

theorem insertSentRange_packets (hsd : Sized sd) (hwf : WfEntries rm.ranges.entries)
    (hok : KeepsPackets rm sd) (h : rm.insertSentRange sd = .ok rm') :
    (chargeSum packetTotals rm'.ranges.entries).1 =
      (chargeSum packetTotals rm.ranges.entries).1 + 1 := by
  by_cases hsize : sd.data.payloadSize = 0
  · rw [KeepsPackets, if_pos hsize] at hok
    rw [insertSentRange_packets_empty hsd hsize h, Prod.fst_add]
    cases rm.ranges.find? (rm.emptySeq sd.data sd.data.seq) with
    | none =>
        show _ + (sd.data.retrans.toNat + 1) = _
        rw [hok]
        rfl
    | some r => rfl
  · rw [KeepsPackets, if_neg hsize] at hok
    obtain ⟨hdisjoint, honce⟩ := hok
    have hend := hsd.size
    have hlt : sd.data.seq < sd.data.endSeq := by omega
    have hcharge := (dataCharge_packets rm sd.data hlt).1.mpr honce
    rw [insertSentRange_packets_data hsd hsize hwf hdisjoint h, Prod.fst_add, hcharge]

/-! ## Packets that resend something -/

/-- The packet resends what the packets before it sent: data with the mark of `registerSent`, a SYN
or a FIN without payload after one with the same sequence number. -/
def resends (done : List SendData) (sd : SendData) : Bool :=
  if sd.data.payloadSize = 0 then
    sd.data.syn && done.any (fun o => o.data.syn && o.data.seq == sd.data.seq) ||
      sd.data.fin && done.any (fun o => o.data.fin && o.data.seq == sd.data.seq)
  else
    sd.data.retrans ||
      sd.data.syn && done.any (fun o => o.data.syn && o.data.seq == sd.data.seq)

/-- Without payload: a SYN or FIN finds a range at its number exactly when it resends one. -/
def EmptyResends (done : List SendData) (sd : SendData) : Option ByteRange → Prop
  | none => resends done sd = sd.data.retrans
  | some _ => resends done sd = (sd.data.syn || sd.data.fin)

instance (done : List SendData) (sd : SendData) :
    (o : Option ByteRange) → Decidable (EmptyResends done sd o)
  | none => inferInstanceAs (Decidable (_ = _))
  | some _ => inferInstanceAs (Decidable (_ = _))

/-- Data: what starts inside a range resends something, and of the rest what has the mark and
starts at a range with bytes. -/
def DataResends (done : List SendData) (l : List Entry) (sd : SendData) : Option ByteRange → Prop
  | none => resends done sd = (sd.data.retrans && decide (StartsRange l sd.data.seq))
  | some _ => resends done sd = true

instance (done : List SendData) (l : List Entry) (sd : SendData) :
    (o : Option ByteRange) → Decidable (DataResends done l sd o)
  | none => inferInstanceAs (Decidable (_ = _))
  | some _ => inferInstanceAs (Decidable (_ = _))

/-- The packet is charged as a retransmission exactly when it resends something. -/
def KeepsRetrans (done : List SendData) (rm : RangeManager) (sd : SendData) : Prop :=
  if sd.data.payloadSize = 0 then
    EmptyResends done sd (rm.ranges.find? (rm.emptySeq sd.data sd.data.seq))
  else
    rm.Disjoint ∧ DataResends done rm.ranges.entries sd
      (aroundRange rm.lastSeq rm.ranges.entries sd.data.seq)

instance (done : List SendData) (rm : RangeManager) (sd : SendData) :
    Decidable (KeepsRetrans done rm sd) := by
  unfold KeepsRetrans
  infer_instance

theorem insertSentRange_retrans {done : List SendData} (hsd : Sized sd)
    (hwf : WfEntries rm.ranges.entries) (hok : KeepsRetrans done rm sd)
    (h : rm.insertSentRange sd = .ok rm') :
    (chargeSum packetTotals rm'.ranges.entries).2 =
      (chargeSum packetTotals rm.ranges.entries).2 + (resends done sd).toNat := by
  -- without payload the flags decide, on a new range or on the one found
  by_cases hsize : sd.data.payloadSize = 0
  · rw [KeepsRetrans, if_pos hsize] at hok
    rw [insertSentRange_packets_empty hsd hsize h, Prod.snd_add]
    cases hfind : rm.ranges.find? (rm.emptySeq sd.data sd.data.seq) with
    | none =>
        rw [hfind] at hok
        rw [show resends done sd = sd.data.retrans from hok]
        rfl
    | some r =>
        rw [hfind] at hok
        rw [show resends done sd = (sd.data.syn || sd.data.fin) from hok]
        rfl
  · rw [KeepsRetrans, if_neg hsize] at hok
    obtain ⟨hdisjoint, hmark⟩ := hok
    have hend := hsd.size
    have hlt : sd.data.seq < sd.data.endSeq := by omega
    have hcharge := (dataCharge_packets rm sd.data hlt).2
    rw [insertSentRange_packets_data hsd hsize hwf hdisjoint h, Prod.snd_add, hcharge]
    cases haround : aroundRange rm.lastSeq rm.ranges.entries sd.data.seq with
    | some r =>
        rw [haround] at hmark
        rw [show resends done sd = true from hmark]
        rfl
    | none =>
        rw [haround] at hmark
        have hresends : resends done sd = (sd.data.retrans &&
          decide (StartsRange rm.ranges.entries sd.data.seq)) := hmark
        rw [hresends, Option.isSome_none, if_neg Bool.false_ne_true]
        by_cases hstart : StartsRange rm.ranges.entries sd.data.seq
        · rw [if_pos hstart, decide_eq_true hstart, Bool.and_true]
        · rw [if_neg hstart, decide_eq_false hstart, Bool.and_false]
          rfl

end Step

/-! ## Whole runs -/

/-- The packets that resend something, after those of `done`. -/
def resentFrom (done : List SendData) : List SendData → ℕ
  | [] => 0
  | sd :: sds => (resends done sd).toNat + resentFrom (done ++ [sd]) sds

def resentCount (sds : List SendData) : ℕ := resentFrom [] sds

theorem resentFrom_append (done sds : List SendData) (sd : SendData) :
    resentFrom done (sds ++ [sd]) = resentFrom done sds + (resends (done ++ sds) sd).toNat := by
  induction sds generalizing done with
  | nil =>
      show (resends done sd).toNat + 0 = 0 + (resends (done ++ []) sd).toNat
      rw [List.append_nil, add_zero, zero_add]
  | cons o sds ih =>
      rw [List.cons_append, resentFrom, ih, resentFrom, List.append_assoc, List.singleton_append,
        add_assoc]

/-- None of the counters of sent packets has wrapped. -/
def PacketsFit (rm : RangeManager) : Prop :=
  ∀ en ∈ rm.ranges.entries,
    en.2.packetSentCount.Fits ∧ en.2.packetRetransCount.Fits ∧ en.2.ackedSent.Fits

instance (rm : RangeManager) : Decidable rm.PacketsFit :=
  inferInstanceAs (Decidable (∀ en ∈ rm.ranges.entries, _))

theorem chargeSum_packets (l : List Entry) :
    chargeSum packetTotals l = ((l.map fun en => (packetTotals en.2).1).sum,
      (l.map fun en => (packetTotals en.2).2).sum) := by
  induction l with
  | nil => rfl
  | cons en l ih =>
      rw [chargeSum_cons, ih]
      rfl

/-- What the program reads of the counters, if none has wrapped. -/
theorem PacketsFit.sums {rm : RangeManager} (h : rm.PacketsFit) :
    (rm.ranges.entries.map fun en => chargedPackets en.2).sum =
        (chargeSum packetTotals rm.ranges.entries).1 ∧
      (rm.ranges.entries.map fun en => en.2.packetRetransCount.val).sum =
        (chargeSum packetTotals rm.ranges.entries).2 := by
  rw [chargeSum_packets]
  constructor
  · show _ = List.sum _
    congr 1
    apply List.map_congr_left
    intro en hen
    obtain ⟨hsent, hretrans, hacked⟩ := h en hen
    unfold chargedPackets packetTotals
    rw [Counter.val_of_fits hsent, Counter.val_of_fits hretrans, Counter.val_of_fits hacked]
  · show _ = List.sum _
    congr 1
    apply List.map_congr_left
    intro en hen
    exact Counter.val_of_fits (h en hen).2.1

/-- The analysis reports what the ranges count. -/
theorem calculateRealLoss_packets (withRecv : Bool) (l : List Entry) :
    (calculateRealLoss withRecv l).analysedPacketSentCountInDump =
        (l.map fun en => chargedPackets en.2).sum ∧
      (calculateRealLoss withRecv l).analysedRetrPacketCount =
        (l.map fun en => en.2.packetRetransCount.val).sum := by
  -- classification writes none of the counters that are summed
  have hsame : ∀ r, (classifyRange withRecv r).packetSentCount = r.packetSentCount ∧
      (classifyRange withRecv r).packetRetransCount = r.packetRetransCount ∧
      (classifyRange withRecv r).ackedSent = r.ackedSent := by
    intro r
    refine ⟨?_, ?_, ?_⟩
    all_goals
      exact classifyRange_blind withRecv r _ (fun _ _ => rfl) (fun _ _ _ => rfl) (fun _ _ => rfl)
        fun _ _ => rfl
  constructor
  · have hdump := foldl_addRange (w := withRecv)
      (π := LossTotals.analysedPacketSentCountInDump) (g := chargedPackets) (fun t r => ?_)
      l {}
    · exact hdump.trans (Nat.zero_add _)
    · obtain ⟨hsent, hretrans, hacked⟩ := hsame r
      show t.analysedPacketSentCountInDump + ((classifyRange withRecv r).packetSentCount.val +
        (classifyRange withRecv r).packetRetransCount.val +
        (classifyRange withRecv r).ackedSent.val) = _
      rw [hsent, hretrans, hacked]
      rfl
  · have hretr := foldl_addRange (w := withRecv) (π := LossTotals.analysedRetrPacketCount)
      (g := fun r => r.packetRetransCount.val) (fun t r => ?_) l {}
    · exact hretr.trans (Nat.zero_add _)
    · show t.analysedRetrPacketCount + (classifyRange withRecv r).packetRetransCount.val = _
      rw [(hsame r).2.1]

section Run

variable {firstSeq : ℕ} {sds : List SendData} {rm : RangeManager}

/-- In every run whose packets are charged as retransmissions exactly when they resend something,
the reported number of retransmissions is the number of such packets. -/
theorem insertSentRange_run_retrans (withRecv : Bool) (hsds : ∀ sd ∈ sds, Sized sd)
    (hsteps : Run.StepsAfter insertSentRange KeepsRetrans [] (new firstSeq) sds)
    (hrun : Run.run insertSentRange (new firstSeq) sds = .ok rm) (hfits : rm.PacketsFit) :
    (rm.ranges.entries.map fun en => en.2.packetRetransCount.val).sum = resentCount sds ∧
      (calculateRealLoss withRecv rm.ranges.entries).analysedRetrPacketCount =
        resentCount sds := by
  have hstart : WfEntries (new firstSeq).ranges.entries ∧
      (chargeSum packetTotals (new firstSeq).ranges.entries).2 = resentFrom [] [] :=
    ⟨wfEntries_nil, rfl⟩
  have hinv : WfEntries rm.ranges.entries ∧
      (chargeSum packetTotals rm.ranges.entries).2 = resentFrom [] sds := by
    apply Run.invariant_after (I := fun rm done => WfEntries rm.ranges.entries ∧
      (chargeSum packetTotals rm.ranges.entries).2 = resentFrom [] done) _ hstart hsteps hsds hrun
    rintro rm sd rm' done ⟨hwf, hsum⟩ hok hsd hstep
    refine ⟨(insertSentRange_sumPureAcks hsd hwf hstep).1, ?_⟩
    rw [insertSentRange_retrans hsd hwf hok hstep, hsum, resentFrom_append]
    rfl
  have hsum : (rm.ranges.entries.map fun en => en.2.packetRetransCount.val).sum =
      resentCount sds := hfits.sums.2.trans hinv.2
  exact ⟨hsum, (calculateRealLoss_packets withRecv rm.ranges.entries).2.trans hsum⟩

end Run

/-- A SYN and its copy, data, a bundle, a retransmission, a pure ACK inside, and two FINs. -/
def countedTrace : List SendData :=
  [{ data := { seq := 0, endSeq := 0, flags := thSyn } },
    { data := { seq := 0, endSeq := 0, flags := thSyn } },
    { data := { seq := 1, endSeq := 6, payloadSize := 5 } },
    { data := { seq := 1, endSeq := 9, payloadSize := 8, isRdb := true, rdbEndSeq := 6 } },
    { data := { seq := 6, endSeq := 9, payloadSize := 3, retrans := true } },
    { data := { seq := 9, endSeq := 9, flags := thFin } },
    { data := { seq := 9, endSeq := 9, flags := thFin } },
    { data := { seq := 10, endSeq := 10 } }]

theorem insertSentRange_run_retrans_counted :
    ∃ rm, Run.run insertSentRange (new 0) countedTrace = .ok rm ∧
      (calculateRealLoss false rm.ranges.entries).analysedRetrPacketCount = 3 := by
  obtain ⟨rm, hrun, hfits⟩ := Run.exists_of_any_toOption
    (x := Run.run insertSentRange (new 0) countedTrace) (p := fun rm => decide rm.PacketsFit)
    (by decide)
  have hcount := insertSentRange_run_retrans false (by decide) (by decide) hrun
    (of_decide_eq_true hfits)
  exact ⟨rm, hrun, hcount.2⟩

/-- Five bytes, a pure ACK behind them, and a bundle of them with three new ones. -/
def ackedBundleTrace : List SendData :=
  [{ data := { seq := 0, endSeq := 5, payloadSize := 5 } },
    { data := { seq := 5, endSeq := 5 } },
    { data := { seq := 0, endSeq := 8, payloadSize := 8, isRdb := true, rdbEndSeq := 5 } }]

/-- Five bytes, a pure ACK behind them, and the first FIN. -/
def ackedFinTrace : List SendData :=
  [{ data := { seq := 0, endSeq := 5, payloadSize := 5 } },
    { data := { seq := 5, endSeq := 5 } },
    { data := { seq := 5, endSeq := 5, flags := thFin } }]

theorem insertSentRange_counts_first_fin :
    (Run.run insertSentRange (new 0) ackedFinTrace).toOption.map
        (fun rm => (rm.ranges.entries.map fun en => en.2.packetRetransCount.val).sum) = some 1 ∧
      ¬∀ rm, Run.run insertSentRange (new 0) ackedFinTrace = .ok rm → rm.PacketsFit →
        (rm.ranges.entries.map fun en => en.2.packetRetransCount.val).sum =
          resentCount ackedFinTrace := by
  refine ⟨by decide, fun h => ?_⟩
  obtain ⟨rm, hrun, hfits⟩ := Run.exists_of_any_toOption
    (x := Run.run insertSentRange (new 0) ackedFinTrace)
    (p := fun rm => decide (rm.PacketsFit ∧
      (rm.ranges.entries.map fun en => en.2.packetRetransCount.val).sum = 1)) (by decide)
  obtain ⟨hfit, hone⟩ := of_decide_eq_true hfits
  have hnone := h rm hrun hfit
  rw [hone] at hnone
  exact absurd hnone (by decide)

end RangeManager

end AnalyseTCP
