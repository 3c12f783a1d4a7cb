import AnalyseTCP.ByteCdf
import AnalyseTCP.GenStats
import AnalyseTCP.PacketCounts
import AnalyseTCP.SendAckTimes

/-!
# Payload samples

`genStats` adds one sample to `packet_length` for each range with payload, and one for each of its
retransmissions.  These are the data packets of a trace as long as a range is what one packet has
sent.  An ACK that reaches into a range divides it in two, and `split` gives the new part a payload
size of its own: the part is counted like a packet that was never sent.
-/

namespace AnalyseTCP

namespace BaseStats

variable {s : BaseStats}

/-- Adding one value `n` times. -/
theorem adds_eq (val n : ℕ) (hcum : s.cum < 2 ^ 64) :
    ((List.range n).foldl (fun s _ => s.add val) s).values.length = s.values.length + n ∧
      ((List.range n).foldl (fun s _ => s.add val) s).cum = (s.cum + n * val) % 2 ^ 64 := by
  induction n with
  | zero =>
    rw [List.range_zero, List.foldl_nil, zero_mul]
    exact ⟨rfl, (Nat.mod_eq_of_lt hcum).symm⟩
  | succ n ih =>
    obtain ⟨hlen, hsum⟩ := ih
    rw [List.range_succ, List.foldl_append, List.foldl_cons, List.foldl_nil]
    constructor
    · show (_ ++ [_]).length = _
      rw [List.length_append, hlen, List.length_singleton, add_assoc]
    · show add64 _ val = _
      rw [hsum, add64, Nat.mod_add_mod, add_mul, one_mul, add_assoc]

/-- `makeStats` sorts the values. -/
theorem makeStats_keeps {number : String → ℚ} {t : BaseStats} (h : s.makeStats number = .ok t) :
    t.values.length = s.values.length ∧ t.cum = s.cum := by
  unfold makeStats at h
  by_cases hnil : s.values = []
  · rw [if_pos hnil] at h
    obtain rfl := Except.ok.inj h
    exact ⟨rfl, rfl⟩
  · rw [if_neg hnil] at h
    obtain ⟨ps, -, h⟩ := Run.exists_of_bind_ok h
    obtain rfl := Except.ok.inj h
    exact ⟨List.length_mergeSort _, rfl⟩

end BaseStats

namespace ByteRange

variable {r : ByteRange}

/-- The samples of a range, while its counter fits. -/
def samples (r : ByteRange) : ℕ := if r.hasPayload then r.packetRetransCount.total + 1 else 0

/-- The number of samples and their sum. -/
def sampleTotals (r : ByteRange) : ℕ × ℕ := (r.samples, r.samples * r.originalPayloadSize)

theorem sampleTotals_congr {r' : ByteRange} (hsize : r'.originalPayloadSize = r.originalPayloadSize)
    (hcount : r'.packetRetransCount.total = r.packetRetransCount.total) :
    r'.sampleTotals = r.sampleTotals := by
  unfold sampleTotals samples hasPayload
  rw [hsize, hcount]

theorem sampleTotals_of_empty (h : r.originalPayloadSize = 0) : r.sampleTotals = 0 := by
  have hnone : r.samples = 0 := by
    unfold samples hasPayload
    rw [h]
    rfl
  unfold sampleTotals
  rw [hnone, zero_mul]
  rfl

theorem sampleTotals_of_payload (h : r.originalPayloadSize ≠ 0) :
    r.sampleTotals = (r.packetRetransCount.total + 1,
      (r.packetRetransCount.total + 1) * r.originalPayloadSize) := by
  have hsome : r.samples = r.packetRetransCount.total + 1 := by
    unfold samples hasPayload
    rw [decide_eq_true h]
    rfl
  unfold sampleTotals
  rw [hsome]

/-- The range is what one packet has sent, and its times and counters do not fail. -/
structure Unsplit (r : ByteRange) : Prop where
  whole : r.originalPayloadSize = r.byteCount
  fits : r.byteCount ≠ 0 → r.packetRetransCount.Fits
  sent : r.sentTstampPcap ≠ []
  timely : r.ackTime = Timeval.zero ∨ r.firstSend.getUsecs ≤ r.ackTime.getUsecs

/-- A transmission behind the others changes no first send time. -/
theorem Unsplit.sentAgain {r r' : ByteRange} {p : Timeval × SentType} (h : r.Unsplit)
    (hsent : r'.sentTstampPcap = r.sentTstampPcap ++ [p]) (hack : r'.ackTime = r.ackTime)
    (hwhole : r'.originalPayloadSize = r'.byteCount)
    (hfits : r'.byteCount ≠ 0 → r'.packetRetransCount.Fits) : r'.Unsplit := by
  refine ⟨hwhole, hfits, by rw [hsent]; simp, ?_⟩
  -- the range was sent before, so `p` is not the first transmission
  have hfirst : r'.firstSend = r.firstSend := by
    obtain ⟨q, qs, hq⟩ := List.exists_cons_of_ne_nil h.sent
    unfold firstSend
    rw [hsent, hq]
    rfl
  rw [hack, hfirst]
  exact h.timely

/-- What the samples and the latency are made of, besides the ACK time. -/
def sentView (r : ByteRange) : (ℕ × ℕ × Counter 8) × List (Timeval × SentType) :=
  ((r.originalPayloadSize, r.byteCount, r.packetRetransCount), r.sentTstampPcap)

theorem Unsplit.ofView {r r' : ByteRange} (h : r.Unsplit) (hview : sentView r' = sentView r)
    {tv : Timeval} (htime : r'.ackTime = r.ackTime ∨ r'.ackTime = tv)
    (hle : r.firstSend.getUsecs ≤ tv.getUsecs) : r'.Unsplit := by
  obtain ⟨hcounts, hsent⟩ := Prod.mk.inj hview
  obtain ⟨hsize, hcounts⟩ := Prod.mk.inj hcounts
  obtain ⟨hbytes, hretrans⟩ := Prod.mk.inj hcounts
  have hfirst : r'.firstSend = r.firstSend := by
    unfold firstSend
    rw [hsent]
  refine ⟨by rw [hsize, hbytes, h.whole], ?_, by rw [hsent]; exact h.sent, ?_⟩
  · rw [hbytes, hretrans]
    exact h.fits
  · rw [hfirst]
    rcases htime with htime | htime
    · rw [htime]
      exact h.timely
    · rw [htime]
      exact .inr hle

theorem addPayloads_eq {s : BaseStats} (h : r.Unsplit) (hcum : s.cum < 2 ^ 64) :
    (r.addPayloads s).values.length = s.values.length + r.sampleTotals.1 ∧
      (r.addPayloads s).cum = (s.cum + r.sampleTotals.2) % 2 ^ 64 := by
  unfold addPayloads
  by_cases hsize : r.originalPayloadSize = 0
  · rw [if_neg (by simpa [hasPayload] using hsize), sampleTotals_of_empty hsize]
    exact ⟨rfl, (Nat.mod_eq_of_lt hcum).symm⟩
  · -- the loop runs to the counter of eight bits, which has the total while it fits
    have hbytes : r.byteCount ≠ 0 := h.whole ▸ hsize
    rw [if_pos (by simpa [hasPayload] using hsize), sampleTotals_of_payload hsize,
      Counter.val_of_fits (h.fits hbytes)]
    have hcum' : (s.add r.originalPayloadSize).cum < 2 ^ 64 := Nat.mod_lt _ (by decide)
    obtain ⟨hlen, hsum⟩ :=
      BaseStats.adds_eq r.originalPayloadSize r.packetRetransCount.total hcum'
    constructor
    · rw [hlen]
      show (s.values ++ [_]).length + _ = _
      rw [List.length_append, List.length_singleton]
      omega
    · rw [hsum]
      show (add64 s.cum _ + _) % 2 ^ 64 = _
      rw [add64, Nat.mod_add_mod]
      congr 1
      ring

end ByteRange

namespace RangeManager

open ByteRange

/-- The samples of all ranges. -/
theorem foldl_addPayloads {l : List Entry} {s : BaseStats} (hl : ∀ en ∈ l, en.2.Unsplit)
    (hcum : s.cum < 2 ^ 64) :
    (l.foldl (fun s e => e.2.addPayloads s) s).values.length =
        s.values.length + (chargeSum sampleTotals l).1 ∧
      (l.foldl (fun s e => e.2.addPayloads s) s).cum =
        (s.cum + (chargeSum sampleTotals l).2) % 2 ^ 64 := by
  induction l generalizing s with
  | nil => exact ⟨rfl, (Nat.mod_eq_of_lt hcum).symm⟩
  | cons en l ih =>
    obtain ⟨hen, hl'⟩ := List.forall_mem_cons.mp hl
    obtain ⟨hlen, hsum⟩ := addPayloads_eq hen hcum
    have hcum' : (en.2.addPayloads s).cum < 2 ^ 64 := by
      rw [hsum]
      exact Nat.mod_lt _ (by decide)
    obtain ⟨hlen', hsum'⟩ := ih hl' hcum'
    rw [List.foldl_cons, hlen', hsum', hlen, hsum, chargeSum_cons, Nat.mod_add_mod, Prod.fst_add,
      Prod.snd_add, add_assoc, add_assoc]
    exact ⟨rfl, rfl⟩

/-! ## What a packet makes of a range -/

section Record

variable {seg : DataSeg} {r r' : ByteRange}

theorem freshRange_unsplit {s e : ℕ} (hsize : seg.payloadSize = e - s) :
    (freshRange seg s e).Unsplit := by
  have hview : ∀ {α : Type} (f : ByteRange → α), (∀ r c, f { r with fin := c } = f r) →
      f (freshRange seg s e) = f (recordSent seg (thisIsRdbData seg s)
        (if seg.isRdb then .none else .pkt)
        { ByteRange.blank s e with
          byteCount := e - s
          originalPayloadSize := seg.payloadSize
          originalPacketIsRdb := seg.isRdb }) :=
    fun f hf => finSet_blind seg _ hf
  constructor
  · rw [hview originalPayloadSize fun _ _ => rfl, hview byteCount fun _ _ => rfl]
    exact hsize
  · intro _
    have htotals := congrArg Prod.snd (packetTotals_freshRange seg s e)
    have hzero : (freshRange seg s e).packetRetransCount.total = 0 := htotals
    unfold Counter.Fits
    rw [hzero]
    decide
  · rw [hview sentTstampPcap fun _ _ => rfl]
    show [] ++ [_] ≠ []
    simp
  · left
    rw [hview ackTime fun _ _ => rfl]
    rfl

theorem sampleTotals_freshRange {s e : ℕ} (hsize : seg.payloadSize ≠ 0) :
    (freshRange seg s e).sampleTotals = (1, seg.payloadSize) := by
  have horig : (freshRange seg s e).originalPayloadSize = seg.payloadSize :=
    finSet_blind seg _ fun _ _ => rfl
  have hzero : (freshRange seg s e).packetRetransCount.total = 0 :=
    congrArg Prod.snd (packetTotals_freshRange seg s e)
  rw [sampleTotals_of_payload (horig ▸ hsize), horig, hzero, zero_add, one_mul]

theorem wholeRange_view {α : Type} (level s : ℕ) (r : ByteRange) (f : ByteRange → α)
    (hsyn : ∀ r c, f { r with syn := c } = f r) (hfin : ∀ r c, f { r with fin := c } = f r) :
    f (wholeRange .sent seg level s r) =
      f (recordSentCounts seg level (thisIsRdbData seg s) r) :=
  (wholeRange_blind .sent seg level s r hsyn).trans
    (recordSentFound_blind seg level (thisIsRdbData seg s) r hfin)

/-- A segment that is sent again. -/
theorem wholeRange_unsplit {s : ℕ} (h : r.Unsplit) (hretrans : seg.retrans = true)
    (hfits : r.packetRetransCount.total < 255) : (wholeRange .sent seg 0 s r).Unsplit := by
  apply Unsplit.sentAgain (p := (seg.tstampPcap, foundType seg 0)) h
  · exact wholeRange_view 0 s r sentTstampPcap (fun _ _ => rfl) fun _ _ => rfl
  · exact wholeRange_view 0 s r ackTime (fun _ _ => rfl) fun _ _ => rfl
  · rw [wholeRange_view 0 s r originalPayloadSize (fun _ _ => rfl) fun _ _ => rfl,
      wholeRange_byteCount]
    exact h.whole
  · intro _
    have htotals := congrArg Prod.snd (packetTotals_wholeRange seg 0 s r)
    unfold foundType at htotals
    rw [if_pos rfl, hretrans] at htotals
    have hcount : (wholeRange .sent seg 0 s r).packetRetransCount.total =
        r.packetRetransCount.total + 1 := htotals
    unfold Counter.Fits
    omega

theorem sampleTotals_wholeRange {s : ℕ} (hretrans : seg.retrans = true)
    (hsize : r.originalPayloadSize ≠ 0) :
    (wholeRange .sent seg 0 s r).sampleTotals = r.sampleTotals + (1, r.originalPayloadSize) := by
  have horig : (wholeRange .sent seg 0 s r).originalPayloadSize = r.originalPayloadSize :=
    wholeRange_view 0 s r originalPayloadSize (fun _ _ => rfl) fun _ _ => rfl
  have htotals := congrArg Prod.snd (packetTotals_wholeRange seg 0 s r)
  unfold foundType at htotals
  rw [if_pos rfl, hretrans] at htotals
  have hcount : (wholeRange .sent seg 0 s r).packetRetransCount.total =
      r.packetRetransCount.total + 1 := htotals
  rw [sampleTotals_of_payload (horig ▸ hsize), sampleTotals_of_payload hsize, horig, hcount]
  apply Prod.ext
  · rfl
  · show (r.packetRetransCount.total + 1 + 1) * r.originalPayloadSize =
      (r.packetRetransCount.total + 1) * r.originalPayloadSize + r.originalPayloadSize
    ring

/-- Data takes over a range without bytes. -/
theorem reusedRange_unsplit {s c : ℕ} (h : r.Unsplit) (hcount : r.packetRetransCount.total = 0) :
    (reusedRange seg s c r).Unsplit := by
  have hsent : (reusedRange seg s c r).sentTstampPcap =
      r.sentTstampPcap ++ [(seg.tstampPcap, .pkt)] := rfl
  apply Unsplit.sentAgain h hsent rfl rfl
  intro _
  have htotals : (reusedRange seg s c r).packetRetransCount.total =
      r.packetRetransCount.total + 0 :=
    congrArg Prod.snd (packetTotals_reusedRange seg s c r)
  unfold Counter.Fits
  omega

theorem sampleTotals_reusedRange {s c : ℕ} (hstart : r.startSeq = s) (hlt : s < c)
    (hcount : r.packetRetransCount.total = 0) :
    (reusedRange seg s c r).sampleTotals = (1, c - s) := by
  have horig : (reusedRange seg s c r).originalPayloadSize = c - s := by
    show c - r.startSeq = c - s
    rw [hstart]
  have htotals : (reusedRange seg s c r).packetRetransCount.total =
      r.packetRetransCount.total + 0 :=
    congrArg Prod.snd (packetTotals_reusedRange seg s c r)
  rw [sampleTotals_of_payload (by omega), horig, htotals, hcount]
  simp only [zero_add, one_mul]

theorem emptyRange_unsplit {rdb : Bool} {q : ℕ} : (emptyRange seg rdb q).Unsplit where
  whole := rfl
  fits h := absurd rfl h
  sent := by
    show [] ++ [_] ≠ []
    simp
  timely := .inl rfl

theorem recordEmpty_originalPayloadSize {rdb : Bool} :
    (recordEmpty seg .sent 0 rdb r).originalPayloadSize = r.originalPayloadSize :=
  recordEmpty_blind .sent seg 0 rdb r (fun _ _ _ => rfl) (fun _ _ => rfl) (fun _ _ => rfl)
    (fun r => increaseReceived_blind r fun _ _ _ _ => rfl) fun _ _ => rfl

theorem recordEmpty_unsplit {rdb : Bool} (h : r.Unsplit)
    (hflags : (seg.syn || seg.fin) = true → r.byteCount = 0) :
    (recordEmpty seg .sent 0 rdb r).Unsplit := by
  have hsent : ∃ p, (recordEmpty seg .sent 0 rdb r).sentTstampPcap = r.sentTstampPcap ++ [p] := by
    unfold recordEmpty
    dsimp only
    split
    · exact ⟨_, rfl⟩
    · split
      · exact ⟨_, rfl⟩
      · exact ⟨_, rfl⟩
  obtain ⟨p, hsent⟩ := hsent
  apply Unsplit.sentAgain h hsent
  · exact recordEmpty_blind .sent seg 0 rdb r (fun _ _ _ => rfl) (fun _ _ => rfl) (fun _ _ => rfl)
      (fun r => increaseReceived_blind r fun _ _ _ _ => rfl) fun _ _ => rfl
  · rw [recordEmpty_byteCount]
    exact recordEmpty_originalPayloadSize.trans h.whole
  · rw [recordEmpty_byteCount]
    intro hbytes
    have htotals := congrArg Prod.snd (packetTotals_recordEmpty seg 0 rdb r)
    have hnone : (seg.syn || seg.fin) = false := by
      rw [← Bool.not_eq_true]
      exact fun hset => hbytes (hflags hset)
    rw [hnone] at htotals
    have hcount : (recordEmpty seg .sent 0 rdb r).packetRetransCount.total =
        r.packetRetransCount.total + 0 := htotals
    have hfits := h.fits hbytes
    unfold Counter.Fits at hfits ⊢
    omega

theorem sampleTotals_recordEmpty {rdb : Bool} (h : r.Unsplit)
    (hflags : (seg.syn || seg.fin) = true → r.byteCount = 0) :
    (recordEmpty seg .sent 0 rdb r).sampleTotals = r.sampleTotals := by
  have horig : (recordEmpty seg .sent 0 rdb r).originalPayloadSize = r.originalPayloadSize :=
    recordEmpty_originalPayloadSize
  by_cases hbytes : r.byteCount = 0
  · rw [sampleTotals_of_empty (horig.trans (h.whole.trans hbytes)),
      sampleTotals_of_empty (h.whole.trans hbytes)]
  · have hnone : (seg.syn || seg.fin) = false := by
      rw [← Bool.not_eq_true]
      exact fun hset => hbytes (hflags hset)
    have htotals := congrArg Prod.snd (packetTotals_recordEmpty seg 0 rdb r)
    rw [hnone] at htotals
    exact sampleTotals_congr horig htotals

end Record

/-! ## ACKs that divide no range -/

section Ack

variable {seg : DataSeg} {rm rm' : RangeManager}

/-- The ACK reaches into the range, and `processAck` splits it. -/
def Cuts (seg : DataSeg) (r : ByteRange) : Prop := r.startSeq < seg.ack ∧ seg.ack < r.endSeq

instance (seg : DataSeg) (r : ByteRange) : Decidable (Cuts seg r) :=
  inferInstanceAs (Decidable (_ ∧ _))

/-- Without a cut, an ACK changes only the marks on the ranges. -/
theorem AckPass.map_eq {α : Type} {f : Entry → α} {c c' : Option ℕ} {rest rest' : List Entry}
    (hpass : AckPass seg c rest c' rest')
    (hexact : ∀ key r b, f (key, ackExact seg b r) = f (key, r))
    (hmark : ∀ key r, f (key, markAcked seg r) = f (key, r))
    (hcut : ∀ en ∈ rest, ¬Cuts seg en.2) : rest'.map f = rest.map f := by
  induction hpass with
  | done => rfl
  | exact c key r rest => rw [List.map_cons, List.map_cons, hexact]
  | late => rfl
  | pass c c' key r rest rest' _ _ ih =>
    -- the ACK is behind this range and goes on to the next
    rw [List.map_cons, List.map_cons, hmark, ih fun en hen => hcut en (List.mem_cons_of_mem _ hen)]
  | split c key r rest hlo hhi => exact absurd ⟨hlo, hhi⟩ (hcut (key, r) List.mem_cons_self)
  | old => rfl

theorem ackStep_map {α : Type} {f : Entry → α} (hapart : rm.Apart)
    (hexact : ∀ key r b, f (key, ackExact seg b r) = f (key, r))
    (hmark : ∀ key r, f (key, markAcked seg r) = f (key, r))
    (hcount : ∀ key r, f (key, countAck r) = f (key, r))
    (hcut : ∀ en ∈ rm.ranges.entries, ¬Cuts seg en.2) (h : ackStep rm seg = .ok rm') :
    rm'.ranges.entries.map f = rm.ranges.entries.map f ∧ rm'.lastSeq = rm.lastSeq := by
  obtain ⟨pre, rest', okey, hp⟩ := ackStep_processed hapart.1 hapart.2 h
  have hcount' : ∀ en, f (countAt okey en) = f en := by
    rintro ⟨key, r⟩
    unfold countAt
    split
    · exact hcount key r
    · rfl
  have hrest := hp.pass.map_eq hexact hmark fun en hen => hcut en (mem_of_mem_resume hen)
  refine ⟨?_, hp.lastSeq⟩
  have hcounted : (f ∘ countAt okey) = f := funext hcount'
  rw [hp.entries, List.map_map, hcounted, List.map_append, hrest, ← List.map_append, ← hp.cut]

theorem ackExact_view {α : Type} (seg : DataSeg) (b : Bool) (r : ByteRange) (f : ByteRange → α)
    (hwin : ∀ r w, f { r with tcpWindow := w } = f r)
    (htime : ∀ r t, f (insertAckTime r t) = f r)
    (hdup : ∀ r : ByteRange, f { r with dupackCount := r.dupackCount + 1 } = f r)
    (hsack : ∀ r, f (registerSacks r seg) = f r)
    (hack : ∀ r : ByteRange, ∀ w, f { r with ackCount := r.ackCount + 1, tcpWindow := w } = f r) :
    f (ackExact seg b r) = f r ∧ f (markAcked seg r) = f r := by
  refine ⟨ackExact_blind seg r f b hwin htime hdup hsack hack, ?_⟩
  unfold markAcked
  split
  · rfl
  · exact htime r _

theorem markAcked_ackTime (r : ByteRange) :
    (markAcked seg r).ackTime = r.ackTime ∨ (markAcked seg r).ackTime = seg.tstampPcap := by
  unfold markAcked
  split
  · exact .inl rfl
  · exact .inr rfl

/-- The ACK divides no range and was captured after the packets before it. -/
def KeepsWhole (rm : RangeManager) (seg : DataSeg) : Prop :=
  ∀ en ∈ rm.ranges.entries, ¬Cuts seg en.2 ∧
    en.2.firstSend.getUsecs ≤ seg.tstampPcap.getUsecs

instance (rm : RangeManager) (seg : DataSeg) : Decidable (KeepsWhole rm seg) :=
  inferInstanceAs (Decidable (∀ en ∈ _, _))

theorem ackKeeps_unsplit (l : List Entry) (seg : DataSeg) :
    AckKeeps l seg fun en => en.2.Unsplit ∧ ¬Cuts seg en.2 ∧
      en.2.firstSend.getUsecs ≤ seg.tstampPcap.getUsecs where
  exact key r b h := by
    obtain ⟨hunsplit, hcut, hle⟩ := h
    have hview := (ackExact_view seg b r sentView (fun _ _ => rfl) (fun _ _ => rfl)
      (fun _ => rfl) (fun _ => rfl) fun _ _ => rfl).1
    have htime := (ackExact_ackTime seg b r).imp_left fun h => (Prod.mk.inj h).2
    have hfirst : (ackExact seg b r).firstSend = r.firstSend :=
      (ackExact_view seg b r firstSend (fun _ _ => rfl) (fun _ _ => rfl)
        (fun _ => rfl) (fun _ => rfl) fun _ _ => rfl).1
    refine ⟨hunsplit.ofView hview htime hle, ?_, hfirst.symm ▸ hle⟩
    unfold Cuts at hcut ⊢
    rwa [ackExact_startSeq, ackExact_endSeq]
  mark key r h := by
    obtain ⟨hunsplit, hcut, hle⟩ := h
    have hview := (ackExact_view seg true r sentView (fun _ _ => rfl) (fun _ _ => rfl)
      (fun _ => rfl) (fun _ => rfl) fun _ _ => rfl).2
    have hfirst : (markAcked seg r).firstSend = r.firstSend :=
      (ackExact_view seg true r firstSend (fun _ _ => rfl) (fun _ _ => rfl)
        (fun _ => rfl) (fun _ => rfl) fun _ _ => rfl).2
    refine ⟨hunsplit.ofView hview (markAcked_ackTime r) hle, ?_, hfirst.symm ▸ hle⟩
    unfold Cuts at hcut ⊢
    rwa [markAcked_startSeq, markAcked_endSeq]
  count _ _ h := ⟨⟨h.1.whole, h.1.fits, h.1.sent, h.1.timely⟩, h.2⟩
  part _ _ _ _ hlo hhi h := absurd ⟨hlo, hhi⟩ h.2.1

end Ack

/-! ## Packets that are sent -/

section Sent

variable {rm rm' : RangeManager} {sd : SendData}

/-- The ranges up to `L` are unsplit. -/
def AllUnsplit (L : ℕ) (l : List Entry) : Prop := ∀ en ∈ l, en.2.Unsplit ∧ en.2.endSeq ≤ L

/-- `l` has the samples of `l₀` and one more, of `n` bytes. -/
structure AddsSample (L n : ℕ) (l₀ l : List Entry) : Prop where
  unsplit : AllUnsplit L l
  totals : chargeSum sampleTotals l = chargeSum sampleTotals l₀ + (1, n)

theorem AddsSample.of_pass {L L' n : ℕ} {pre old new post : List Entry} (hle : L ≤ L')
    (hold : AllUnsplit L (pre ++ old ++ post)) (hnew : AllUnsplit L' new)
    (hsum : chargeSum sampleTotals new = chargeSum sampleTotals old + (1, n)) :
    AddsSample L' n (pre ++ old ++ post) (pre ++ new ++ post) := by
  constructor
  · intro en hen
    simp only [List.mem_append] at hen
    by_cases hin : en ∈ new
    · exact hnew en hin
    · obtain ⟨hunsplit, hend⟩ := hold en (by simp only [List.mem_append]; tauto)
      exact ⟨hunsplit, hend.trans hle⟩
  · simp only [chargeSum_append, hsum]
    abel

theorem chargeSum_singleton (f : ByteRange → ℕ × ℕ) (en : Entry) : chargeSum f [en] = f en.2 := by
  rw [chargeSum_cons, chargeSum_nil, add_zero]

/-- A new segment at the end of the ranges, which may take over a range without bytes there. -/
theorem passKeeps_newSegment {seg : DataSeg} {l₀ : List Entry} {L : ℕ}
    (hsize : seg.payloadSize ≠ 0) (hend : seg.endSeq = seg.seq + seg.payloadSize)
    (hall : AllUnsplit L l₀) (hseq : L = seg.seq)
    (hzero : ∀ en ∈ l₀, en.1 = seg.seq → en.2.packetRetransCount.total = 0) :
    PassKeeps L .sent seg seg.endSeq (fun l s level => l = l₀ ∧ s = seg.seq ∧ level = 0)
      (AddsSample seg.endSeq seg.payloadSize l₀) := by
  rintro s level pre old new post next hready ⟨rfl, rfl, rfl⟩ hpass
  -- every range ends where the segment starts, so the pass makes a range of its own or takes over
  -- one without bytes
  have hends : ∀ en ∈ pre ++ old ++ post, en.2.endSeq ≤ seg.seq := fun en hen =>
    hseq ▸ (hall en hen).2
  have hnever : ∀ {key : ℕ} {r : ByteRange}, old = [(key, r)] → seg.seq < r.endSeq → False := by
    rintro key r rfl hlt
    exact (hends (key, r) (by simp)).not_gt hlt
  have hle : L ≤ seg.endSeq := by omega
  cases hpass with
  | missing hitype => cases hitype
  | whole r hwhole => exact (hnever rfl (by omega)).elim
  | front r hfront => exact (hnever rfl (by omega)).elim
  | span r hbytes => exact (hnever rfl hbytes).elim
  | back key r _ hlo => exact (hnever rfl hlo).elim
  | middle key r _ hmiddle => exact (hnever rfl (by omega)).elim
  | beyond key r _ hlo => exact (hnever rfl hlo).elim
  | fresh =>
    refine ⟨fun _ => .of_pass hle hall ?_ ?_, fun s' hs => nomatch hs⟩
    · intro en hen
      obtain rfl := List.mem_singleton.mp hen
      exact ⟨freshRange_unsplit (by omega), (freshRange_endSeq seg _ _).le⟩
    · rw [chargeSum_singleton, chargeSum_nil, zero_add]
      exact sampleTotals_freshRange hsize
  | reuse r c _ hempty hlo hhi _ hnext =>
    -- no range lies behind the data
    have hcend : c = seg.endSeq := by
      by_contra hne
      obtain ⟨en, hen, hkey⟩ := hnext (by omega)
      have hin : en ∈ pre ++ [(seg.seq, r)] ++ post := by simp [hen]
      obtain ⟨hstart, hr⟩ := hready.wf en hin
      have := hends en hin
      have := hr.le
      omega
    subst hcend
    have hmem : (seg.seq, r) ∈ pre ++ [(seg.seq, r)] ++ post := by simp
    obtain ⟨hstart, hr⟩ := hready.wf _ hmem
    have hcount := hzero _ hmem rfl
    have hunsplit := (hall _ hmem).1
    have hbytes : r.byteCount = 0 := by
      have hcount : r.startSeq + r.byteCount = r.endSeq ∧ _ := ByteRange.wf_iff.mp hr
      have hstart : seg.seq = r.startSeq := hstart
      omega
    refine ⟨fun _ => .of_pass hle hall ?_ ?_, fun s' hs => ?_⟩
    · intro en hen
      obtain rfl := List.mem_singleton.mp hen
      exact ⟨reusedRange_unsplit hunsplit hcount, (reusedRange_endSeq seg _ _ r).le⟩
    · rw [chargeSum_singleton, chargeSum_singleton,
        sampleTotals_of_empty (r := r) (hunsplit.whole.trans hbytes), zero_add,
        sampleTotals_reusedRange hstart.symm (by omega) hcount, hend, Nat.add_sub_cancel_left]
    · rw [if_neg (lt_irrefl _)] at hs
      cases hs

/-- A segment that is sent again as it was. -/
theorem passKeeps_resent {seg : DataSeg} {l₀ : List Entry} {L : ℕ} {r₀ : ByteRange}
    (hsize : seg.payloadSize ≠ 0) (hend : seg.endSeq = seg.seq + seg.payloadSize)
    (hall : AllUnsplit L l₀) (hretrans : seg.retrans = true) (hmem : (seg.seq, r₀) ∈ l₀)
    (hsame : r₀.endSeq = seg.endSeq) (hfits : r₀.packetRetransCount.total < 255) :
    PassKeeps L .sent seg seg.endSeq (fun l s level => l = l₀ ∧ s = seg.seq ∧ level = 0)
      (AddsSample L seg.payloadSize l₀) := by
  rintro s level pre old new post next hready ⟨rfl, rfl, rfl⟩ hpass
  have hkey := (hready.wf _ hmem).1
  have hkey : seg.seq = r₀.startSeq := hkey
  -- the pass meets the range that holds the segment
  have hmeets : ∀ {key : ℕ} {r : ByteRange}, old = [(key, r)] → key ≤ seg.seq →
      seg.seq < r.endSeq → (key, r) = (seg.seq, r₀) := by
    rintro key r rfl hle hlt
    have hin : (key, r) ∈ pre ++ [(key, r)] ++ post := by simp
    have hstart : key = r.startSeq := (hready.wf _ hin).1
    exact eq_of_holds hready.sep hin hmem (b := seg.seq) ⟨by dsimp only; omega, hlt⟩
      ⟨hkey.ge, by dsimp only; omega⟩
  cases hpass with
  | missing hitype => cases hitype
  | fresh _ hpre hpost =>
    rw [List.append_nil] at hmem
    rcases List.mem_append.mp hmem with hin | hin
    · exact absurd (hpre _ hin) (lt_irrefl _)
    · exact absurd (hpost _ hin) (lt_irrefl _)
  | front r hfront =>
    obtain ⟨-, rfl⟩ := Prod.mk.inj (hmeets rfl le_rfl (by omega))
    omega
  | span r hbytes hspan =>
    obtain ⟨-, rfl⟩ := Prod.mk.inj (hmeets rfl le_rfl hbytes)
    omega
  | reuse r c _ hempty =>
    -- the key is taken, by the range that holds the segment and not by one without bytes
    obtain ⟨hpre, hpost⟩ := ne_of_mem_pre hready.sorted
    simp only [List.mem_append, List.mem_singleton] at hmem
    rcases hmem with (hin | heq) | hin
    · exact absurd (hpre _ hin) (lt_irrefl _)
    · obtain ⟨-, rfl⟩ := Prod.mk.inj heq
      omega
    · exact absurd (hpost _ hin) (lt_irrefl _)
  | back key r hlow hlo =>
    obtain ⟨rfl, -⟩ := Prod.mk.inj (hmeets rfl hlow.le hlo)
    exact absurd hlow (lt_irrefl _)
  | middle key r hlow hmiddle =>
    obtain ⟨rfl, -⟩ := Prod.mk.inj (hmeets rfl hlow.le (by omega))
    exact absurd hlow (lt_irrefl _)
  | beyond key r hlow hlo =>
    obtain ⟨rfl, -⟩ := Prod.mk.inj (hmeets rfl hlow.le hlo)
    exact absurd hlow (lt_irrefl _)
  | whole r hwhole =>
    -- the one pass there is: the segment is the range
    obtain ⟨-, rfl⟩ := Prod.mk.inj (hmeets rfl le_rfl (by omega))
    obtain ⟨hunsplit, hL⟩ := hall _ hmem
    have hbytes : r.originalPayloadSize = seg.payloadSize := by
      have hunsplit : r.originalPayloadSize = r.byteCount := hunsplit.whole
      have hcount : r.startSeq + r.byteCount = r.endSeq ∧ _ :=
        ByteRange.wf_iff.mp (hready.wf _ hmem).2
      omega
    refine ⟨fun _ => .of_pass le_rfl hall ?_ ?_, fun s' hs => nomatch hs⟩
    · intro en hen
      obtain rfl := List.mem_singleton.mp hen
      refine ⟨wholeRange_unsplit hunsplit hretrans hfits, ?_⟩
      rw [wholeRange_endSeq]
      exact hL
    · rw [chargeSum_singleton, chargeSum_singleton,
        sampleTotals_wholeRange hretrans (hbytes ▸ hsize), hbytes]

/-- A new segment behind what was sent, or an earlier one again, for the 255th time at most.  A
range without bytes that the new data takes over has counted no retransmission. -/
def SendsSegment (rm : RangeManager) (sd : SendData) : Prop :=
  (sd.data.seq = rm.lastSeq ∧
    ∀ en ∈ rm.ranges.entries, en.1 = sd.data.seq → en.2.packetRetransCount.total = 0) ∨
  (sd.data.retrans = true ∧ ∃ en ∈ rm.ranges.entries, en.1 = sd.data.seq ∧
    en.2.endSeq = sd.data.endSeq ∧ en.2.packetRetransCount.total < 255)

/-- A packet without payload that divides no range and is no SYN or FIN on one with bytes. -/
def SendsEmpty (rm : RangeManager) (sd : SendData) : Prop :=
  (sd.data.seq ≤ newLastSeq sd rm.lastSeq ∧ rm.lastSeq ≤ newLastSeq sd rm.lastSeq) ∧
  rm.Clear sd.data.seq ∧
  ((sd.data.syn || sd.data.fin) = true →
    ∀ en ∈ rm.ranges.entries, en.1 = sd.data.seq → en.2.byteCount = 0)

def KeepsSamples (rm : RangeManager) : SenderEvent → Prop
  | .sent sd => if sd.data.payloadSize = 0 then rm.SendsEmpty sd else rm.SendsSegment sd
  | .ack seg => rm.KeepsWhole seg

instance (rm : RangeManager) (sd : SendData) : Decidable (rm.SendsSegment sd) :=
  inferInstanceAs (Decidable (_ ∨ _))

instance (rm : RangeManager) (sd : SendData) : Decidable (rm.SendsEmpty sd) :=
  inferInstanceAs (Decidable (_ ∧ _))

instance (rm : RangeManager) : (ev : SenderEvent) → Decidable (rm.KeepsSamples ev)
  | .sent _ => inferInstanceAs (Decidable (ite _ _ _))
  | .ack seg => inferInstanceAs (Decidable (rm.KeepsWhole seg))

theorem insertSentRange_adds {L : ℕ} (hapart : rm.Apart) (hsd : Sized sd)
    (hsize : sd.data.payloadSize ≠ 0) (hheld : KeepsApart rm sd)
    (hkeeps : PassKeeps rm.lastSeq .sent sd.data sd.data.endSeq
      (fun l s level => l = rm.ranges.entries ∧ s = sd.data.seq ∧ level = 0)
      (AddsSample L sd.data.payloadSize rm.ranges.entries))
    (hlast : newLastSeq sd rm.lastSeq = L) (h : rm.insertSentRange sd = .ok rm') :
    rm'.Apart ∧ rm'.lastSeq = L ∧
      AddsSample L sd.data.payloadSize rm.ranges.entries rm'.ranges.entries := by
  have hready := hapart.ready hsd hsize hheld
  obtain ⟨rm₁, ret, h₁, rfl⟩ := insertSentRange_cases h
  have hins := insertLoop_inserted (by simp) hkeeps hready ⟨rfl, rfl, rfl⟩ h₁
  refine ⟨⟨hins.wf, hins.sep⟩, ?_, hins.post⟩
  show newLastSeq sd rm₁.lastSeq = L
  rw [hins.frame.lastSeq, hlast]

theorem insertSentRange_segment (hapart : rm.Apart)
    (hall : AllUnsplit rm.lastSeq rm.ranges.entries) (hsd : Sized sd)
    (hsize : sd.data.payloadSize ≠ 0) (hok : rm.SendsSegment sd)
    (h : rm.insertSentRange sd = .ok rm') :
    rm'.Apart ∧ AddsSample rm'.lastSeq sd.data.payloadSize rm.ranges.entries
      rm'.ranges.entries := by
  have hend := hsd.size
  rcases hok with ⟨hseq, hzero⟩ | ⟨hretrans, ⟨key, r₀⟩, hmem, rfl, hsame, hfits⟩
  · have hheld : KeepsApart rm sd := by
      rw [KeepsApart, if_neg hsize]
      constructor
      · intro en hen _ hin
        exact hin.trans_le (hall en hen).2
      · intro x hx _ _ _ en hen
        obtain ⟨hkey, hr⟩ := hapart.1 en hen
        have hend := (hall en hen).2
        have := hr.le
        omega
    have hlast : newLastSeq sd rm.lastSeq = sd.data.endSeq := by
      unfold newLastSeq
      rw [if_neg hsize, if_pos hseq, hend]
    obtain ⟨hapart', hlast', hadds⟩ := insertSentRange_adds hapart hsd hsize hheld
      (passKeeps_newSegment hsize hend hall hseq.symm hzero) hlast h
    exact ⟨hapart', hlast' ▸ hadds⟩
  · have hstart : sd.data.seq = r₀.startSeq := (hapart.1 _ hmem).1
    have hin : r₀.endSeq ≤ rm.lastSeq := (hall _ hmem).2
    have hsame : r₀.endSeq = sd.data.endSeq := hsame
    have hheld : KeepsApart rm sd := by
      rw [KeepsApart, if_neg hsize]
      constructor
      · intro en hen _ hin
        exact hin.trans_le (hall en hen).2
      · intro x hle hlt _ hnot
        exact absurd ⟨_, hmem, .inr ⟨by dsimp only; omega, by dsimp only; omega⟩⟩ hnot
    have hlast : newLastSeq sd rm.lastSeq = rm.lastSeq := by
      unfold newLastSeq
      rw [if_neg hsize, if_neg (by omega), if_neg (by omega), if_pos (by omega)]
    obtain ⟨hapart', hlast', hadds⟩ := insertSentRange_adds hapart hsd hsize hheld
      (passKeeps_resent hsize hend hall hretrans hmem hsame hfits) hlast h
    exact ⟨hapart', hlast' ▸ hadds⟩

theorem insertSentRange_noSample (hapart : rm.Apart)
    (hall : AllUnsplit rm.lastSeq rm.ranges.entries) (hsd : Sized sd)
    (hsize : sd.data.payloadSize = 0) (hok : rm.SendsEmpty sd)
    (h : rm.insertSentRange sd = .ok rm') :
    rm'.Apart ∧ AllUnsplit rm'.lastSeq rm'.ranges.entries ∧
      chargeSum sampleTotals rm'.ranges.entries = chargeSum sampleTotals rm.ranges.entries := by
  obtain ⟨⟨hseq, hle⟩, hclear, hflags⟩ := hok
  have hend : sd.data.endSeq = sd.data.seq := by simpa [hsize] using hsd.size
  obtain ⟨rm₁, h₁, hlast, hpass⟩ := insertSentRange_empty rm hend
  obtain rfl := Except.ok.inj (h₁.symm.trans h)
  have hq : rm.emptySeq sd.data sd.data.seq ≤ rm₁.lastSeq := by
    rw [hlast]
    exact emptySeq_le_of_le hseq hapart.1 fun en hen => (hall en hen).2.trans hle
  have hroom : (∃ en ∈ rm.ranges.entries, en.1 = rm.emptySeq sd.data sd.data.seq) ∨
      ∀ en ∈ rm.ranges.entries, en.1 < rm.emptySeq sd.data sd.data.seq →
        en.2.endSeq ≤ rm.emptySeq sd.data sd.data.seq := by
    rcases emptySeq_cases rm sd.data sd.data.seq with heq | hmem
    · rw [heq]
      exact .inr hclear
    · exact .inl hmem
  -- only a packet without flags is registered one before its sequence number
  have hplain : (sd.data.syn || sd.data.fin) = true →
      rm.emptySeq sd.data sd.data.seq = sd.data.seq := by
    intro hset
    apply if_neg
    rintro ⟨hnone, -⟩
    obtain ⟨hsyn, hfin, -⟩ := flags_of_noFlags hnone
    rw [hsyn, hfin] at hset
    cases hset
  refine ⟨⟨hpass.wf hapart.1, hpass.separated hapart.1 hapart.2 hroom⟩, ?_⟩
  have hold : AllUnsplit (newLastSeq sd rm.lastSeq) rm.ranges.entries :=
    fun en hen => ⟨(hall en hen).1, (hall en hen).2.trans hle⟩
  rw [hlast] at hq ⊢
  generalize rm.ranges.entries = l at *
  generalize rm₁.ranges.entries = l' at *
  cases hpass with
  | @fresh pre post hpre hpost =>
    constructor
    · intro en hen
      simp only [List.mem_append, List.mem_cons] at hen
      rcases hen with hen | rfl | hen
      · exact hold en (by simp [hen])
      · exact ⟨emptyRange_unsplit, hq⟩
      · exact hold en (by simp [hen])
    · have hnone : (emptyRange sd.data (thisIsRdbData sd.data sd.data.seq)
          (rm.emptySeq sd.data sd.data.seq)).sampleTotals = 0 := sampleTotals_of_empty rfl
      rw [chargeSum_append, chargeSum_append, chargeSum_cons, hnone, zero_add]
  | @found pre post r =>
    have hmem : (rm.emptySeq sd.data sd.data.seq, r) ∈
        pre ++ (rm.emptySeq sd.data sd.data.seq, r) :: post := by simp
    obtain ⟨hunsplit, hr⟩ := hold _ hmem
    have hbytes : (sd.data.syn || sd.data.fin) = true → r.byteCount = 0 :=
      fun hset => hflags hset _ hmem (hplain hset)
    constructor
    · intro en hen
      simp only [List.mem_append, List.mem_cons] at hen
      rcases hen with hen | rfl | hen
      · exact hold en (by simp [hen])
      · refine ⟨recordEmpty_unsplit hunsplit hbytes, ?_⟩
        rw [recordEmpty_endSeq]
        exact hr
      · exact hold en (by simp [hen])
    · rw [chargeSum_append, chargeSum_append, chargeSum_cons, chargeSum_cons,
        sampleTotals_recordEmpty hunsplit hbytes]

end Sent

/-! ## Runs -/

section Run

variable {rm rm' : RangeManager} {evs : List SenderEvent}

def SenderEvent.payloadSize : SenderEvent → ℕ
  | .sent sd => sd.data.payloadSize
  | .ack _ => 0

def dataPackets (evs : List SenderEvent) : ℕ := evs.countP fun ev => decide (ev.payloadSize ≠ 0)

def payloadSent (evs : List SenderEvent) : ℕ := (evs.map SenderEvent.payloadSize).sum

/-- The invariant: the unsplit ranges have a sample for each data packet. -/
structure SamplesKept (rm : RangeManager) (evs : List SenderEvent) : Prop where
  apart : rm.Apart
  unsplit : AllUnsplit rm.lastSeq rm.ranges.entries
  totals : chargeSum sampleTotals rm.ranges.entries = (dataPackets evs, payloadSent evs)

theorem SamplesKept.next {ev : SenderEvent} (h : SamplesKept rm evs) (hapart : rm'.Apart)
    (hunsplit : AllUnsplit rm'.lastSeq rm'.ranges.entries)
    (hsum : chargeSum sampleTotals rm'.ranges.entries = chargeSum sampleTotals rm.ranges.entries +
      (if ev.payloadSize = 0 then 0 else 1, ev.payloadSize)) : SamplesKept rm' (evs ++ [ev]) := by
  refine ⟨hapart, hunsplit, ?_⟩
  rw [hsum, h.totals]
  apply Prod.ext
  · show dataPackets evs + (if ev.payloadSize = 0 then 0 else 1) = dataPackets (evs ++ [ev])
    unfold dataPackets
    rw [List.countP_append, List.countP_singleton, decide_not]
    by_cases hsize : ev.payloadSize = 0
    · rw [if_pos hsize, decide_eq_true hsize]
      rfl
    · rw [if_neg hsize, decide_eq_false hsize]
      rfl
  · show payloadSent evs + ev.payloadSize = payloadSent (evs ++ [ev])
    unfold payloadSent
    rw [List.map_append, List.sum_append]
    rfl

theorem senderStep_samples {ev : SenderEvent} (h : SamplesKept rm evs) (hsized : ev.Sized)
    (hok : rm.KeepsSamples ev) (hstep : senderStep rm ev = .ok rm') :
    SamplesKept rm' (evs ++ [ev]) := by
  cases ev with
  | ack seg =>
    have hok : rm.KeepsWhole seg := hok
    have hstep : ackStep rm seg = .ok rm' := hstep
    obtain ⟨ret, hprocess⟩ := exists_of_ackStep hstep
    have hapart := (processAck_refined h.apart hprocess).1
    -- the marks that an ACK writes are neither a size nor a bound
    have hview : ∀ {α : Type} (f : ByteRange → α),
        (∀ b r, f (ackExact seg b r) = f r ∧ f (markAcked seg r) = f r) →
        (∀ r, f (countAck r) = f r) →
        rm'.ranges.entries.map (fun en => f en.2) = rm.ranges.entries.map (fun en => f en.2) :=
      fun f hf hcount => (ackStep_map h.apart (fun _ r b => (hf b r).1)
        (fun _ r => (hf true r).2) (fun _ r => hcount r) (fun en hen => (hok en hen).1) hstep).1
    have hends := hview endSeq (fun b r => ackExact_view seg b r _ (fun _ _ => rfl) (fun _ _ => rfl)
      (fun _ => rfl) (fun _ => rfl) fun _ _ => rfl) fun _ => rfl
    have hsum := hview sampleTotals (fun b r => ackExact_view seg b r _ (fun _ _ => rfl)
      (fun _ _ => rfl) (fun _ => rfl) (fun _ => rfl) fun _ _ => rfl) fun _ => rfl
    have hlast : rm'.lastSeq = rm.lastSeq :=
      (ackStep_processed h.apart.1 h.apart.2 hstep).elim fun _ ⟨_, _, hp⟩ => hp.lastSeq
    have hunsplit := (ackStep_forall (ackKeeps_unsplit _ seg) h.apart.1
      (fun en hen => ⟨(h.unsplit en hen).1, hok en hen⟩) hstep).2.2
    refine h.next hapart (fun en hen => ⟨(hunsplit en hen).1, ?_⟩) ?_
    · -- `lastSeq` and the ends are what they were
      have hmem : en.2.endSeq ∈ rm.ranges.entries.map fun en => en.2.endSeq := by
        rw [← hends]
        exact List.mem_map_of_mem (f := fun en : Entry => en.2.endSeq) hen
      obtain ⟨o, ho, heq⟩ := List.mem_map.mp hmem
      rw [hlast, ← heq]
      exact (h.unsplit o ho).2
    · have hsum : chargeSum sampleTotals rm'.ranges.entries =
          chargeSum sampleTotals rm.ranges.entries := congrArg List.sum hsum
      rw [hsum]
      exact (add_zero _).symm
  | sent sd =>
    have hsd : Sized sd := hsized
    have hstep : rm.insertSentRange sd = .ok rm' := hstep
    by_cases hsize : sd.data.payloadSize = 0
    · rw [KeepsSamples, if_pos hsize] at hok
      obtain ⟨hapart, hunsplit, hsum⟩ :=
        insertSentRange_noSample h.apart h.unsplit hsd hsize hok hstep
      apply h.next hapart hunsplit
      rw [SenderEvent.payloadSize, hsum, hsize]
      exact (add_zero _).symm
    · rw [KeepsSamples, if_neg hsize] at hok
      obtain ⟨hapart, hadds⟩ := insertSentRange_segment h.apart h.unsplit hsd hsize hok hstep
      apply h.next hapart hadds.unsplit
      rw [SenderEvent.payloadSize, hadds.totals, if_neg hsize]

/-- `packet_length` has one sample for each data packet. -/
structure SamplesCounted (evs : List SenderEvent) (bs : PacketsStats) : Prop where
  count : bs.packetLength.values.length = dataPackets evs
  sum : bs.packetLength.cum = payloadSent evs

theorem finishStats_samples {number : String → ℚ} {bs out : PacketsStats}
    (h : SamplesCounted evs bs) (hfinish : finishStats number bs = .ok out) :
    SamplesCounted evs out := by
  unfold finishStats at hfinish
  split at hfinish
  · cases hfinish
  · obtain ⟨latency, -, hfinish⟩ := Run.exists_of_bind_ok hfinish
    obtain ⟨packetLength, hmake, hfinish⟩ := Run.exists_of_bind_ok hfinish
    obtain ⟨itt, -, hfinish⟩ := Run.exists_of_bind_ok hfinish
    obtain rfl := Except.ok.inj hfinish
    obtain ⟨hlen, hcum⟩ := BaseStats.makeStats_keeps hmake
    exact ⟨hlen.trans h.count, hcum.trans h.sum⟩

/-- The interval that is the whole map. -/
def wholeMap (rm : RangeManager) : AnalyseRange where
  analyseRangeStart := 0
  analyseRangeLast := rm.ranges.entries.length - 1
  analyseRangeEnd := rm.ranges.entries.length
  analyseTimeSecStart := 0
  analyseTimeSecEnd := 0

/-- The packet with a SYN, two segments, the first of them again, and ACKs for both. -/
def resentSegment : List SenderEvent :=
  [.sent { data := { flags := thSyn, tstampPcap := atSecond 10 } },
    .sent { data := { seq := 1, endSeq := 11, payloadSize := 10, tstampPcap := atSecond 11 } },
    .sent { data := { seq := 11, endSeq := 21, payloadSize := 10, tstampPcap := atSecond 12 } },
    .sent { data :=
      { seq := 1, endSeq := 11, payloadSize := 10, retrans := true, tstampPcap := atSecond 13 } },
    .ack { ack := 11, tstampPcap := atSecond 14 },
    .ack { ack := 21, tstampPcap := atSecond 15 }]

/-- A segment of ten bytes, and an ACK for four of them. -/
def partlyAcked : List SenderEvent :=
  [.sent { data := { endSeq := 10, payloadSize := 10, tstampPcap := atSecond 10 } },
    .ack { ack := 4, tstampPcap := atSecond 11 }]

end Run

end RangeManager

end AnalyseTCP
