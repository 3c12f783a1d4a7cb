import AnalyseTCP.Traces
import AnalyseTCP.RecvCounts
import AnalyseTCP.RealLoss
import Mathlib.Algebra.BigOperators.Ring.Finset
import Mathlib.Algebra.Order.BigOperators.Group.List

/-!
# Loss totals

`calculateRealLoss` adds `data_sent_count - data_received_count` of every range to unsigned totals.
The difference is negative for a range that was received more often than it was sent, which a packet
duplicated by the network does; then the totals wrap around.  As long as no received packet
touches such a range, the totals are the exact sums and stay within the sent totals.
-/

namespace AnalyseTCP

namespace RangeManager

/-! ## Which range a piece comes from -/

section Origin

variable {l : List Entry} {itype : InsertType} {seg : DataSeg} {level s e : ℕ} {next : Option ℕ}
  {en : Entry}

/-- The piece is part of `o` and was not charged with the packet. -/
structure KeptOf (itype : InsertType) (seg : DataSeg) (o r : ByteRange) : Prop where
  start_le : o.startSeq ≤ r.startSeq
  le_end : r.endSeq ≤ o.endSeq
  count : ∀ cnt k, CountsBytes cnt itype seg k → cnt r = cnt o

/-- The piece is made of `o`, where the segment starts, and was charged with the packet. -/
structure ChargedOf (itype : InsertType) (seg : DataSeg) (s : ℕ) (next : Option ℕ)
    (o r : ByteRange) : Prop where
  holds : o.startSeq ≤ s ∧ (itype = .recv → s < o.endSeq)
  next_eq : ∀ s', next = some s' → r.endSeq = s'
  count : ∀ cnt k, CountsBytes cnt itype seg k → cnt r = cnt o + k

theorem Piece.origin (h : Piece l itype seg level s e next en) (hwf : WfEntries l) (hlt : s < e) :
    (itype = .sent ∧ en.2 = freshRange seg s e) ∨
      ∃ o ∈ l, KeptOf itype seg o.2 en.2 ∨ ChargedOf itype seg s next o.2 en.2 := by
  -- a piece is the data itself, keeps the counts of a range, or counts the segment once more
  cases h with
  | fresh hitype hsize => exact .inl ⟨hitype, rfl⟩
  | whole r hmem hend =>
      have hr : s = r.startSeq := (hwf _ hmem).1
      refine .inr ⟨_, hmem, .inr ⟨⟨hr.ge, fun _ => ?_⟩, fun s' hs => (nomatch hs), ?_⟩⟩
      · show s < r.endSeq
        omega
      · exact fun cnt k hcnt => hcnt.wholeRange level s r
  | front r hmem hend =>
      have hr : s = r.startSeq := (hwf _ hmem).1
      refine .inr ⟨_, hmem, .inr ⟨⟨hr.ge, fun _ => hlt.trans hend⟩, fun s' hs => (nomatch hs), ?_⟩⟩
      intro cnt k hcnt
      rw [hcnt.recordFound, hcnt.head]
  | frontRest r hmem hend =>
      have hr : s = r.startSeq := (hwf _ hmem).1
      refine .inr ⟨_, hmem, .inl ⟨?_, le_rfl, fun cnt k hcnt => hcnt.tail r e⟩⟩
      show r.startSeq ≤ e
      omega
  | span r hmem hbytes hend =>
      have hr : s = r.startSeq := (hwf _ hmem).1
      refine .inr ⟨_, hmem, .inr ⟨⟨hr.ge, fun _ => hbytes⟩, fun s' hs => ?_, ?_⟩⟩
      · rw [recordFound_endSeq]
        exact Option.some.inj hs
      · exact fun cnt k hcnt => hcnt.recordFound level _ r
  | reuse r c hmem hitype hempty hlo hhi hsize hafter =>
      have hr : s = r.startSeq := (hwf _ hmem).1
      refine .inr ⟨_, hmem, .inr ⟨⟨hr.ge, fun h => (nomatch hitype ▸ h)⟩, fun s' hs => ?_, ?_⟩⟩
      · split at hs
        · exact Option.some.inj hs
        · cases hs
      · exact fun cnt k hcnt => hcnt.reusedRange hitype s c r
  | cutHead key r next hfree hmem hkey hlo =>
      exact .inr ⟨_, hmem, .inl ⟨le_rfl, hlo.le, fun cnt k hcnt => hcnt.head r s⟩⟩
  | back key r hfree hmem hkey hlo hend =>
      have hr : key = r.startSeq := (hwf _ hmem).1
      refine .inr ⟨_, hmem, .inr ⟨⟨?_, fun _ => hlo⟩, fun s' hs => (nomatch hs), ?_⟩⟩
      · show r.startSeq ≤ s
        omega
      · intro cnt k hcnt
        rw [hcnt.recordSplit, hcnt.finSet, hcnt.tail]
  | middle key r hfree hmem hkey hend =>
      have hr : key = r.startSeq := (hwf _ hmem).1
      refine .inr ⟨_, hmem, .inr ⟨⟨?_, fun _ => hlt.trans hend⟩, fun s' hs => (nomatch hs), ?_⟩⟩
      · show r.startSeq ≤ s
        omega
      · intro cnt k hcnt
        rw [hcnt.recordSplit, hcnt.finSet, hcnt.head, hcnt.tail]
  | middleRest key r hfree hmem hkey hend =>
      have hr : key = r.startSeq := (hwf _ hmem).1
      refine .inr ⟨_, hmem, .inl ⟨?_, le_rfl, fun cnt k hcnt => ?_⟩⟩
      · show r.startSeq ≤ e
        omega
      · rw [hcnt.tail, hcnt.tail]
  | beyond key r hfree hmem hkey hlo hend =>
      have hr : key = r.startSeq := (hwf _ hmem).1
      refine .inr ⟨_, hmem, .inr ⟨⟨?_, fun _ => hlo⟩, fun s' hs => ?_, ?_⟩⟩
      · show r.startSeq ≤ s
        omega
      · rw [recordSplit_endSeq]
        exact Option.some.inj hs
      · intro cnt k hcnt
        rw [hcnt.recordSplit, hcnt.tail]

/-- A piece starts inside the segment or where an old range does. -/
theorem Piece.key_le (h : Piece l itype seg level s e next en) (hlt : s < e) {K : ℕ} (he : e ≤ K)
    (hl : ∀ o ∈ l, o.1 ≤ K) : en.1 ≤ K := by
  cases h with
  | cutHead key r next hfree hmem => exact hl (key, r) hmem
  | fresh | whole | front | span | reuse | back | middle | beyond => exact hlt.le.trans he
  | frontRest | middleRest => exact he

end Origin

/-! ## The sender trace receives nothing -/

theorem recvCount_recordSent (seg : DataSeg) (rdb : Bool) (sentT : SentType) (r : ByteRange) :
    recvCount (recordSent seg rdb sentT r) = recvCount r := rfl

theorem countsBytes_recv_of_sent (seg : DataSeg) : CountsBytes recvCount .sent seg 0 where
  head _ _ := rfl
  tail _ _ := rfl
  finSet r := finSet_blind seg r fun _ _ => rfl
  recordSplit _ _ _ := rfl
  recordFound level rdb r := recordSentFound_blind seg level rdb r fun _ _ => rfl
  wholeRange level s r :=
    (wholeRange_blind .sent seg level s r fun _ _ => rfl).trans
      (recordSentFound_blind seg level _ r fun _ _ => rfl)
  freshRange _ _ _ := finSet_blind seg _ fun _ _ => rfl
  reusedRange _ _ _ _ := rfl

theorem recvCount_recordEmpty_sent (seg : DataSeg) (rdb : Bool) (r : ByteRange) :
    recvCount (recordEmpty seg .sent 0 rdb r) = recvCount r := by
  unfold recordEmpty
  dsimp only
  split_ifs <;> rfl

theorem recvCount_emptyRange (seg : DataSeg) (rdb : Bool) (q : ℕ) :
    recvCount (emptyRange seg rdb q) = 0 := rfl

/-- A range of the sender trace: nothing was received on it, and it starts at or below `K`. -/
def OnlySent (K : ℕ) (en : Entry) : Prop := en.1 ≤ K ∧ recvCount en.2 = 0

theorem pieceKeeps_onlySent {m : OrdMap ℕ ByteRange} {seg : DataSeg} {e K : ℕ} (he : e ≤ K) :
    PieceKeeps m .sent seg e (fun _ => True) fun _ => OnlySent K where
  next _ _ _ _ _ _ _ := trivial
  old _ _ _ h _ := h
  piece l s level next en hwf _ hlt _ hl hnext hpiece := by
    refine ⟨hpiece.key_le hlt he fun o ho => (hl o ho).1, ?_⟩
    have hcnt := countsBytes_recv_of_sent seg
    rcases hpiece.origin hwf hlt with ⟨-, hfresh⟩ | ⟨o, ho, hkept | hcharged⟩
    · rw [hfresh]
      exact hcnt.freshRange rfl s e
    · rw [hkept.count _ _ hcnt]
      exact (hl o ho).2
    · rw [hcharged.count _ _ hcnt]
      exact (hl o ho).2

/-- The registration of a packet without payload never leaves the keys. -/
theorem emptySeq_le {rm : RangeManager} {seg : DataSeg} {s K : ℕ} (hs : s ≤ K)
    (hkeys : ∀ en ∈ rm.ranges.entries, en.1 ≤ K) : rm.emptySeq seg s ≤ K := by
  unfold emptySeq
  split
  · next h =>
      obtain ⟨r, hr⟩ := Option.isSome_iff_exists.mp h.2
      exact hkeys (sub64 s 1, r) (OrdMap.find?_eq_some_iff.mp hr)
  · exact hs

theorem emptyKeeps_onlySent {rm : RangeManager} {seg : DataSeg} {K : ℕ} (hs : seg.seq ≤ K)
    (hkeys : ∀ en ∈ rm.ranges.entries, en.1 ≤ K) : EmptyKeeps .sent seg rm (OnlySent K) := by
  have hq : rm.emptySeq seg seg.seq ≤ K := emptySeq_le hs hkeys
  constructor
  · exact fun _ => ⟨hq, recvCount_emptyRange seg _ _⟩
  · exact fun r _ h => ⟨h.1, (recvCount_recordEmpty_sent seg _ r).trans h.2⟩

theorem recvCount_ackExact (seg : DataSeg) (b : Bool) (r : ByteRange) :
    recvCount (ackExact seg b r) = recvCount r :=
  ackExact_blind seg r _ b (fun _ _ => rfl) (fun _ _ => rfl) (fun _ => rfl) (fun _ => rfl)
    fun _ _ => rfl

theorem recvCount_markAcked (seg : DataSeg) (r : ByteRange) :
    recvCount (markAcked seg r) = recvCount r := by
  unfold markAcked
  split <;> rfl

theorem ackKeeps_onlySent (l : List Entry) {seg : DataSeg} {K : ℕ} (hack : seg.ack ≤ K) :
    AckKeeps l seg (OnlySent K) where
  exact _ r b h := ⟨h.1, (recvCount_ackExact seg b r).trans h.2⟩
  mark _ r h := ⟨h.1, (recvCount_markAcked seg r).trans h.2⟩
  count _ _ h := h
  part _ _ _ _ _ _ h := ⟨h, fun _ => ⟨hack, h.2⟩⟩

/-- No number of the packet is above `K`. -/
def SenderEvent.Below (K : ℕ) : SenderEvent → Prop
  | .sent sd => sd.data.endSeq ≤ K
  | .ack seg => seg.ack ≤ K

instance (K : ℕ) : (ev : SenderEvent) → Decidable (ev.Below K)
  | .sent sd => inferInstanceAs (Decidable (sd.data.endSeq ≤ K))
  | .ack seg => inferInstanceAs (Decidable (seg.ack ≤ K))

theorem senderStep_onlySent {rm rm' : RangeManager} {ev : SenderEvent} {K : ℕ}
    (hwf : WfEntries rm.ranges.entries) (hinv : ∀ en ∈ rm.ranges.entries, OnlySent K en)
    (hsized : ev.Sized) (hbelow : ev.Below K) (h : senderStep rm ev = .ok rm') :
    WfEntries rm'.ranges.entries ∧ ∀ en ∈ rm'.ranges.entries, OnlySent K en := by
  cases ev with
  | sent sd =>
      have hsd : Sized sd := hsized
      have hend : sd.data.endSeq ≤ K := hbelow
      have hseq : sd.data.seq ≤ K := by
        have := hsd.size
        omega
      exact insertSentRange_forall hsd
        (fun _ => emptyKeeps_onlySent hseq fun en hen => (hinv en hen).1)
        (fun _ => ⟨pieceKeeps_onlySent hend, trivial, hinv⟩) (fun _ h => h) hwf hinv h
  | ack seg => exact (ackStep_forall (ackKeeps_onlySent _ hbelow) hwf hinv h).2

/-! ## The receiver trace -/

/-- Every range that the packet touches was sent more often than received. -/
def NotDuplicated (rm : RangeManager) (sd : SendData) : Prop :=
  if sd.data.seq = sd.data.endSeq then
    sd.data.syn = true ∨ sd.data.fin = true →
      ∀ en ∈ rm.ranges.entries, en.1 = sd.data.seq → recvCount en.2 < sentCount en.2
  else
    ∀ en ∈ rm.ranges.entries, en.2.startSeq < sd.data.endSeq → sd.data.seq < en.2.endSeq →
      recvCount en.2 < sentCount en.2

instance (rm : RangeManager) (sd : SendData) : Decidable (NotDuplicated rm sd) := by
  unfold NotDuplicated
  infer_instance

/-- A range received at most as often as it was sent. -/
def ReceivedLe (K : ℕ) (en : Entry) : Prop := en.1 ≤ K ∧ recvCount en.2 ≤ sentCount en.2

/-- While data up to `e` is inserted, the ranges ahead can still take one more copy. -/
def CanReceive (K e : ℕ) (pos : Option ℕ) (en : Entry) : Prop :=
  ReceivedLe K en ∧ ∀ s, pos = some s → en.2.startSeq < e → s < en.2.endSeq →
    recvCount en.2 < sentCount en.2

theorem pieceKeeps_canReceive {m : OrdMap ℕ ByteRange} {seg : DataSeg} {e K : ℕ} (he : e ≤ K) :
    PieceKeeps m .recv seg e (fun _ => True) (CanReceive K e) where
  next _ _ _ _ _ _ _ := trivial
  old s next en h hnext := by
    refine ⟨h.1, fun s' hs' hlo hhi => h.2 s rfl hlo ?_⟩
    have := hnext s' hs'
    omega
  piece l s level next en hwf _ hlt _ hl hnext hpiece := by
    have hrecv := countsBytes_recv seg
    have hsent := countsBytes_sent_of_recv seg
    have hkey := hpiece.key_le hlt he fun o ho => (hl o ho).1.1
    rcases hpiece.origin hwf hlt with ⟨hsent, -⟩ | ⟨o, ho, hkept | hcharged⟩
    · cases hsent
    · have ⟨hle, hahead⟩ := hl o ho
      have hstart := hkept.start_le
      have hend := hkept.le_end
      refine ⟨⟨hkey, ?_⟩, fun s' hs' hlo hhi => ?_⟩
      · rw [hkept.count _ _ hrecv, hkept.count _ _ hsent]
        exact hle.2
      · have hbounds := hnext s' hs'
        rw [hkept.count _ _ hrecv, hkept.count _ _ hsent]
        exact hahead s rfl (by omega) (by omega)
    · -- the range under the packet was ahead of it, and lies behind the next pass
      have hlt' := (hl o ho).2 s rfl (lt_of_le_of_lt hcharged.holds.1 hlt) (hcharged.holds.2 rfl)
      refine ⟨⟨hkey, ?_⟩, fun s' hs' hlo hhi => ?_⟩
      · rw [hcharged.count _ _ hrecv, hcharged.count _ _ hsent]
        exact hlt'
      · have := hcharged.next_eq s' hs'
        omega

theorem recordEmpty_recv_counts (seg : DataSeg) (rdb : Bool) (r : ByteRange) :
    sentCount (recordEmpty seg .recv 0 rdb r) = sentCount r ∧
      recvCount (recordEmpty seg .recv 0 rdb r) =
        recvCount r + (seg.syn || seg.fin).toNat := by
  unfold recordEmpty ByteRange.increaseReceived
  dsimp only
  cases seg.syn || seg.fin
  · exact ⟨rfl, rfl⟩
  · simp only [if_true]
    split_ifs <;> exact ⟨rfl, rfl⟩

/-- Only a pure ACK is registered elsewhere than it says. -/
theorem emptySeq_of_noFlags {rm : RangeManager} {seg : DataSeg} (s : ℕ)
    (h : seg.noFlags = false) : rm.emptySeq seg s = s := by
  unfold emptySeq
  rw [h, if_neg (fun h => Bool.false_ne_true h.1)]

theorem noFlags_of_flags {seg : DataSeg} (h : seg.syn = true ∨ seg.fin = true) :
    seg.noFlags = false := by
  unfold DataSeg.noFlags
  rcases h with h | h <;> simp [h]

theorem emptyKeeps_receivedLe {rm : RangeManager} {seg : DataSeg} {K : ℕ} (hs : seg.seq ≤ K)
    (hkeys : ∀ en ∈ rm.ranges.entries, en.1 ≤ K)
    (hdup : seg.syn = true ∨ seg.fin = true →
      ∀ en ∈ rm.ranges.entries, en.1 = seg.seq → recvCount en.2 < sentCount en.2) :
    EmptyKeeps .recv seg rm (ReceivedLe K) := by
  have hq : rm.emptySeq seg seg.seq ≤ K := emptySeq_le hs hkeys
  constructor
  · exact fun _ => ⟨hq, Nat.zero_le _⟩
  · intro r hr h
    obtain ⟨hsent, hrecv⟩ := recordEmpty_recv_counts seg (thisIsRdbData seg seg.seq) r
    refine ⟨hq, ?_⟩
    rw [hsent, hrecv]
    by_cases hflags : seg.syn = true ∨ seg.fin = true
    · rw [emptySeq_of_noFlags seg.seq (noFlags_of_flags hflags)] at hr
      have hlt : recvCount r < sentCount r := hdup hflags _ hr rfl
      have := Bool.toNat_le (seg.syn || seg.fin)
      omega
    · have hnone : (seg.syn || seg.fin) = false := by
        rw [Bool.eq_false_iff, ne_eq, Bool.or_eq_true]
        exact hflags
      rw [hnone]
      exact h.2

theorem insertReceivedRange_receivedLe {rm rm' : RangeManager} {sd : SendData} {K : ℕ}
    (hwf : WfEntries rm.ranges.entries) (hinv : ∀ en ∈ rm.ranges.entries, ReceivedLe K en)
    (hle : sd.data.seq ≤ sd.data.endSeq) (hend : sd.data.endSeq ≤ K)
    (hdup : NotDuplicated rm sd) (h : rm.insertReceivedRange sd = .ok rm') :
    WfEntries rm'.ranges.entries ∧ ∀ en ∈ rm'.ranges.entries, ReceivedLe K en := by
  unfold NotDuplicated at hdup
  refine insertReceivedRange_forall (G := fun _ => True) (Q := CanReceive K sd.data.endSeq) hle
    ?_ ?_ ?_ hwf hinv h
  · intro heq
    rw [if_pos heq] at hdup
    have hseq : (receivedSeg sd).seq ≤ K := hle.trans hend
    exact emptyKeeps_receivedLe hseq (fun en hen => (hinv en hen).1) hdup
  · intro hlt
    rw [if_neg hlt.ne] at hdup
    refine ⟨pieceKeeps_canReceive hend, trivial, fun en hen => ⟨hinv en hen, fun s hs hlo hhi => ?_⟩⟩
    obtain rfl := Option.some.inj hs
    exact hdup en hen hlo hhi
  · exact fun en h => h.1

/-! ## The totals -/

section Totals

variable (withRecv : Bool) (r : ByteRange)

/-- The classification of a range sets marks that the counters do not depend on. -/
theorem classifyRange_blind {α : Type} (f : ByteRange → α)
    (hdata : ∀ r i, f { r with sendTcpStampRecvIndex := i, recvType := .data } = f r)
    (hretr : ∀ r i n,
      f { r with sendTcpStampRecvIndex := i, recvType := .retr, recvTypeNum := n } = f r)
    (hrdb : ∀ r n, f { r with recvType := .rdb, recvTypeNum := n } = f r)
    (hhit : ∀ r c, f { r with rdbHitCount := c } = f r) :
    f (classifyRange withRecv r) = f r := by
  have hmatch : f r.matchReceivedType.1 = f r := by
    unfold ByteRange.matchReceivedType
    split
    · exact hdata r _
    · exact hretr r _ _
    · split
      · exact hrdb r _
      · rfl
  have htype : f (if withRecv then r.matchReceivedType.1 else r) = f r := by
    split
    · exact hmatch
    · rfl
  have hmark : ∀ r : ByteRange,
      f (if r.rdbCount.val ≠ 0 ∧ r.recvType = .rdb then { r with rdbHitCount := 1 } else r) = f r := by
    intro r
    split
    · exact hhit r 1
    · rfl
  exact (hmark _).trans htype

theorem classifyRange_dataSentCount :
    (classifyRange withRecv r).dataSentCount = r.dataSentCount :=
  classifyRange_blind withRecv r _ (fun _ _ => rfl) (fun _ _ _ => rfl) (fun _ _ => rfl)
    fun _ _ => rfl

theorem classifyRange_dataReceivedCount :
    (classifyRange withRecv r).dataReceivedCount = r.dataReceivedCount :=
  classifyRange_blind withRecv r _ (fun _ _ => rfl) (fun _ _ _ => rfl) (fun _ _ => rfl)
    fun _ _ => rfl

theorem classifyRange_byteCount : (classifyRange withRecv r).byteCount = r.byteCount :=
  classifyRange_blind withRecv r _ (fun _ _ => rfl) (fun _ _ _ => rfl) (fun _ _ => rfl)
    fun _ _ => rfl

theorem addRange_analysedSentRangesCount (t : LossTotals) (r : ByteRange) :
    (t.addRange withRecv (classifyRange withRecv r)).analysedSentRangesCount =
      t.analysedSentRangesCount + r.dataSentCount.val := by
  show _ + (classifyRange withRecv r).dataSentCount.val = _
  rw [classifyRange_dataSentCount]

theorem addRange_analysedBytesSent (t : LossTotals) (r : ByteRange) :
    (t.addRange withRecv (classifyRange withRecv r)).analysedBytesSent =
      t.analysedBytesSent + r.dataSentCount.val * r.byteCount := by
  show _ + (classifyRange withRecv r).dataSentCount.val * (classifyRange withRecv r).byteCount = _
  rw [classifyRange_dataSentCount, classifyRange_byteCount]

end Totals

/-- One total of the analysis, range by range. -/
theorem foldl_addRange {w : Bool} {π : LossTotals → ℕ} {g : ByteRange → ℕ}
    (hadd : ∀ t r, π (t.addRange w (classifyRange w r)) = π t + g r) (l : List Entry)
    (t : LossTotals) :
    π (l.foldl (fun t e => t.addRange w (classifyRange w e.2)) t) =
      π t + (l.map fun en => g en.2).sum := by
  induction l generalizing t with
  | nil => rfl
  | cons en l ih =>
      rw [List.foldl_cons, ih, hadd, List.map_cons, List.sum_cons, Nat.add_assoc]

/-- How many of the sent copies of a range were lost. -/
def lostCopies (r : ByteRange) : ℕ := r.dataSentCount.val - r.dataReceivedCount.val

theorem addSigned_eq {a d : ℕ} (h : a + d < 2 ^ 64) : LossTotals.addSigned a (d : ℤ) = a + d := by
  unfold LossTotals.addSigned
  omega

/-- The loss fields after the pass, when no range was received more often than sent. -/
theorem foldl_addRange_lost {l : List Entry} {t : LossTotals}
    (hle : ∀ en ∈ l, en.2.dataReceivedCount.val ≤ en.2.dataSentCount.val)
    (hcount : t.analysedLostRangesCount + (l.map fun en => lostCopies en.2).sum < 2 ^ 64)
    (hbytes : t.analysedLostBytes +
      (l.map fun en => lostCopies en.2 * en.2.byteCount).sum < 2 ^ 64) :
    let t' := l.foldl (fun t e => t.addRange true (classifyRange true e.2)) t
    t'.analysedLostRangesCount =
        t.analysedLostRangesCount + (l.map fun en => lostCopies en.2).sum ∧
      t'.analysedLostBytes =
        t.analysedLostBytes + (l.map fun en => lostCopies en.2 * en.2.byteCount).sum := by
  induction l generalizing t with
  | nil => exact ⟨rfl, rfl⟩
  | cons en l ih =>
      simp only [List.map_cons, List.sum_cons] at hcount hbytes ⊢
      have hen := hle en List.mem_cons_self
      -- the `int` difference is not negative, so adding it to the `uint64_t` does not wrap
      have hlost : ((en.2.dataSentCount.val : ℤ) - en.2.dataReceivedCount.val) =
          (lostCopies en.2 : ℕ) := by
        unfold lostCopies
        omega
      have hc : (t.addRange true (classifyRange true en.2)).analysedLostRangesCount =
          t.analysedLostRangesCount + lostCopies en.2 := by
        show LossTotals.addSigned _ _ = _
        rw [classifyRange_dataSentCount, classifyRange_dataReceivedCount, if_pos rfl, hlost,
          addSigned_eq (by omega)]
      have hb : (t.addRange true (classifyRange true en.2)).analysedLostBytes =
          t.analysedLostBytes + lostCopies en.2 * en.2.byteCount := by
        show LossTotals.addSigned _ _ = _
        rw [classifyRange_dataSentCount, classifyRange_dataReceivedCount, classifyRange_byteCount,
          if_pos rfl, hlost, ← Nat.cast_mul, addSigned_eq (by omega)]
      obtain ⟨h₁, h₂⟩ := ih (t := t.addRange true (classifyRange true en.2))
        (fun en hen => hle en (List.mem_cons_of_mem _ hen)) (by omega) (by omega)
      rw [List.foldl_cons]
      refine ⟨?_, ?_⟩
      · rw [h₁, hc, add_assoc]
      · rw [h₂, hb, add_assoc]

/-- The largest sequence number that reaches the ranges: `getRelativeSequenceNumber` stops the
program above 9999999999, and a packet has less than 65535 bytes. -/
def maxSeq : ℕ := 9999999999 + 2 ^ 16

/-- So many ranges cannot lose enough to fill 64 bits. -/
theorem sum_lost_lt {rm : RangeManager} (hwf : WfEntries rm.ranges.entries)
    (hkeys : ∀ en ∈ rm.ranges.entries, en.1 ≤ maxSeq) {f : Entry → ℕ}
    (hf : ∀ en ∈ rm.ranges.entries, f en ≤ 2 ^ 8 * en.2.byteCount + 2 ^ 8) :
    (rm.ranges.entries.map f).sum < 2 ^ 64 := by
  -- no more ranges than sequence numbers, as each starts at its own
  have hlen : rm.ranges.entries.length ≤ maxSeq + 1 :=
    OrdMap.length_le fun en hen => Nat.lt_succ_of_le (hkeys en hen)
  have hterm : ∀ x ∈ rm.ranges.entries.map f, x ≤ 2 ^ 25 := by
    intro x hx
    obtain ⟨en, hen, rfl⟩ := List.mem_map.mp hx
    have hbytes := (hwf en hen).2.bound
    have hle := hf en hen
    omega
  have hsum := List.sum_le_card_nsmul _ _ hterm
  rw [List.length_map, nsmul_eq_mul, Nat.cast_id] at hsum
  unfold maxSeq at hlen
  omega

/-- The loss and sent totals of a map in which no range was received more often than sent. -/
theorem calculateRealLoss_lost {rm : RangeManager} (hwf : WfEntries rm.ranges.entries)
    (hkeys : ∀ en ∈ rm.ranges.entries, en.1 ≤ maxSeq)
    (hle : ∀ en ∈ rm.ranges.entries, en.2.dataReceivedCount.val ≤ en.2.dataSentCount.val) :
    let t := calculateRealLoss true rm.ranges.entries
    t.analysedLostRangesCount = (rm.ranges.entries.map fun en => lostCopies en.2).sum ∧
      t.analysedLostBytes =
        (rm.ranges.entries.map fun en => lostCopies en.2 * en.2.byteCount).sum ∧
      t.analysedSentRangesCount =
        (rm.ranges.entries.map fun en => en.2.dataSentCount.val).sum ∧
      t.analysedBytesSent =
        (rm.ranges.entries.map fun en => en.2.dataSentCount.val * en.2.byteCount).sum := by
  have hcopies : ∀ r : ByteRange, lostCopies r ≤ 2 ^ 8 := by
    intro r
    have := Nat.mod_lt r.dataSentCount.total (show 0 < 2 ^ 8 by decide)
    unfold lostCopies Counter.val
    omega
  have hcount := sum_lost_lt hwf hkeys (f := fun en => lostCopies en.2)
    fun en _ => (hcopies en.2).trans (Nat.le_add_left _ _)
  have hbytes := sum_lost_lt hwf hkeys (f := fun en => lostCopies en.2 * en.2.byteCount)
    fun en _ => (Nat.mul_le_mul_right _ (hcopies en.2)).trans (Nat.le_add_right _ _)
  obtain ⟨hlost, hlostBytes⟩ := foldl_addRange_lost (t := {}) hle
    ((Nat.zero_add _).trans_lt hcount) ((Nat.zero_add _).trans_lt hbytes)
  have hranges := foldl_addRange (π := LossTotals.analysedSentRangesCount)
    (addRange_analysedSentRangesCount true) rm.ranges.entries {}
  have hsentBytes := foldl_addRange (π := LossTotals.analysedBytesSent)
    (addRange_analysedBytesSent true) rm.ranges.entries {}
  exact ⟨hlost.trans (Nat.zero_add _), hlostBytes.trans (Nat.zero_add _),
    hranges.trans (Nat.zero_add _), hsentBytes.trans (Nat.zero_add _)⟩

/-- In every run whose received packets touch no range that was already received as often as it was
sent, the loss totals are the exact sums of the differences and stay within the sent totals. -/
theorem calculateRealLoss_within {firstSeq : ℕ} {evs : List SenderEvent} {rcvd : List SendData}
    {rm rm' : RangeManager} (hsized : ∀ ev ∈ evs, ev.Sized) (hbelow : ∀ ev ∈ evs, ev.Below maxSeq)
    (hrun : Run.run senderStep (new firstSeq) evs = .ok rm)
    (hrcvd : ∀ sd ∈ rcvd, sd.data.seq ≤ sd.data.endSeq ∧ sd.data.endSeq ≤ maxSeq)
    (hsteps : Run.Steps insertReceivedRange NotDuplicated rm rcvd)
    (hrun' : Run.run insertReceivedRange rm rcvd = .ok rm')
    (hfits : ∀ en ∈ rm'.ranges.entries,
      en.2.dataSentCount.Fits ∧ en.2.dataReceivedCount.Fits) :
    let t := calculateRealLoss true rm'.ranges.entries
    (t.analysedLostBytes : ℤ) = (rm'.ranges.entries.map fun en =>
        ((en.2.dataSentCount.val : ℤ) - en.2.dataReceivedCount.val) * en.2.byteCount).sum ∧
      (t.analysedLostRangesCount : ℤ) = (rm'.ranges.entries.map fun en =>
        (en.2.dataSentCount.val : ℤ) - en.2.dataReceivedCount.val).sum ∧
      t.analysedLostBytes ≤ t.analysedBytesSent ∧
      t.analysedLostRangesCount ≤ t.analysedSentRangesCount := by
  have hsent : WfEntries rm.ranges.entries ∧ ∀ en ∈ rm.ranges.entries, OnlySent maxSeq en := by
    have hevs : Run.Steps senderStep (fun _ ev => True ∧ ev.Sized ∧ ev.Below maxSeq)
        (new firstSeq) evs :=
      (Run.steps_true _ evs).and_forall fun ev hev => ⟨hsized ev hev, hbelow ev hev⟩
    exact Run.invariant (d := [])
      (I := fun rm _ => WfEntries (RangeManager.ranges rm).entries ∧
        ∀ en ∈ (RangeManager.ranges rm).entries, OnlySent maxSeq en)
      (fun rm ev rm' _ hinv hev hstep =>
        senderStep_onlySent hinv.1 hinv.2 hev.2.1 hev.2.2 hstep)
      ⟨wfEntries_nil, fun en hen => absurd hen List.not_mem_nil⟩ hevs hrun
  have hrecv : WfEntries rm'.ranges.entries ∧ ∀ en ∈ rm'.ranges.entries, ReceivedLe maxSeq en := by
    refine Run.invariant (d := [])
      (I := fun rm _ => WfEntries (RangeManager.ranges rm).entries ∧
        ∀ en ∈ (RangeManager.ranges rm).entries, ReceivedLe maxSeq en)
      (fun rm sd rm' _ hinv hsd hstep =>
        insertReceivedRange_receivedLe hinv.1 hinv.2 hsd.2.1 hsd.2.2 hsd.1 hstep)
      ⟨hsent.1, fun en hen => ⟨(hsent.2 en hen).1, ?_⟩⟩ (hsteps.and_forall hrcvd) hrun'
    rw [(hsent.2 en hen).2]
    exact Nat.zero_le _
  -- the counters fit, so what the wrapped counters say is what was counted
  obtain ⟨hwf, hinv⟩ := hrecv
  have hle : ∀ en ∈ rm'.ranges.entries, en.2.dataReceivedCount.val ≤ en.2.dataSentCount.val := by
    intro en hen
    rw [Counter.val_of_fits (hfits en hen).1, Counter.val_of_fits (hfits en hen).2]
    exact (hinv en hen).2
  have hsub : ∀ en ∈ rm'.ranges.entries,
      (lostCopies en.2 : ℤ) = (en.2.dataSentCount.val : ℤ) - en.2.dataReceivedCount.val := by
    intro en hen
    exact Nat.cast_sub (hle en hen)
  obtain ⟨hlost, hlostBytes, hranges, hsentBytes⟩ :=
    calculateRealLoss_lost hwf (fun en hen => (hinv en hen).1) hle
  refine ⟨?_, ?_, ?_, ?_⟩
  · rw [hlostBytes, Nat.cast_list_sum, List.map_map]
    congr 1
    apply List.map_congr_left
    intro en hen
    show ((lostCopies en.2 * en.2.byteCount : ℕ) : ℤ) = _
    rw [Nat.cast_mul, hsub en hen]
  · rw [hlost, Nat.cast_list_sum, List.map_map]
    congr 1
    exact List.map_congr_left hsub
  · rw [hlostBytes, hsentBytes]
    apply List.sum_le_sum
    exact fun en _ => Nat.mul_le_mul_right _ (Nat.sub_le _ _)
  · rw [hlost, hranges]
    apply List.sum_le_sum
    exact fun en _ => Nat.sub_le _ _

/-- One segment of four bytes. -/
def fourBytes : SendData := { data := { endSeq := 4, payloadSize := 4, tstampTcp := 7 } }

/-- The two halves of the segment. -/
def twoHalves : List SendData :=
  [{ data := { endSeq := 2, payloadSize := 2, tstampTcp := 7 } },
    { data := { seq := 2, endSeq := 4, payloadSize := 2, tstampTcp := 7 } }]

/-- The segment is sent twice and acknowledged, and one copy arrives in two halves. -/
theorem calculateRealLoss_within_halves :
    ∃ rm rm',
      Run.run senderStep (new 0) [.sent fourBytes, .sent fourBytes, .ack { ack := 4 }] = .ok rm ∧
      Run.run insertReceivedRange rm twoHalves = .ok rm' ∧
      (calculateRealLoss true rm'.ranges.entries).analysedLostBytes ≤
        (calculateRealLoss true rm'.ranges.entries).analysedBytesSent := by
  have hall : ((Run.run senderStep (new 0)
      [.sent fourBytes, .sent fourBytes, .ack { ack := 4 }]).toOption.any fun rm =>
      decide (Run.Steps insertReceivedRange NotDuplicated rm twoHalves) &&
      (Run.run insertReceivedRange rm twoHalves).toOption.any fun rm' =>
        decide (∀ en ∈ rm'.ranges.entries,
          en.2.dataSentCount.Fits ∧ en.2.dataReceivedCount.Fits)) = true := by decide
  obtain ⟨rm, hrun, hall⟩ := Run.exists_of_any_toOption hall
  rw [Bool.and_eq_true, decide_eq_true_eq] at hall
  obtain ⟨rm', hrun', hfits⟩ := Run.exists_of_any_toOption hall.2
  exact ⟨rm, rm', hrun, hrun', (calculateRealLoss_within (by decide) (by decide) hrun (by decide)
    hall.1 hrun' (of_decide_eq_true hfits)).2.2.1⟩

/-- A segment that the network delivers twice. -/
theorem calculateRealLoss_wraps_of_duplicate :
    ¬∀ firstSeq evs rcvd rm rm', (∀ ev ∈ evs, SenderEvent.Sized ev) →
      (∀ ev ∈ evs, SenderEvent.Below maxSeq ev) →
      (∀ sd ∈ rcvd, sd.data.seq ≤ sd.data.endSeq ∧ sd.data.endSeq ≤ maxSeq) →
      Run.run senderStep (new firstSeq) evs = .ok rm →
      Run.run insertReceivedRange rm rcvd = .ok rm' →
      (∀ en ∈ rm'.ranges.entries, en.2.dataSentCount.Fits ∧ en.2.dataReceivedCount.Fits) →
      (calculateRealLoss true rm'.ranges.entries).analysedLostBytes ≤
        (calculateRealLoss true rm'.ranges.entries).analysedBytesSent := by
  intro h
  have hrun : ((Run.run senderStep (new 0) [.sent fourBytes]).toOption.any fun rm =>
      (Run.run insertReceivedRange rm [fourBytes, fourBytes]).toOption.any fun rm' =>
        decide (∀ en ∈ rm'.ranges.entries,
          en.2.dataSentCount.Fits ∧ en.2.dataReceivedCount.Fits) &&
        !decide ((calculateRealLoss true rm'.ranges.entries).analysedLostBytes ≤
          (calculateRealLoss true rm'.ranges.entries).analysedBytesSent)) = true := by decide
  obtain ⟨rm, hs, hrun⟩ := Run.exists_of_any_toOption hrun
  obtain ⟨rm', hr, hrun⟩ := Run.exists_of_any_toOption hrun
  rw [Bool.and_eq_true, decide_eq_true_eq, Bool.not_eq_true', decide_eq_false_iff_not] at hrun
  exact hrun.2 (h 0 _ _ rm rm' (by decide) (by decide) (by decide) hs hr hrun.1)

end RangeManager

end AnalyseTCP
