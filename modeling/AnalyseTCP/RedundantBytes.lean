import AnalyseTCP.LossAgreement
import AnalyseTCP.OldData

/-!
# Redundant bytes

Every copy of a byte but the first is a retransmission or part of a bundle, so the bytes sent should
be the unique bytes and the redundant ones.  The three counters are kept apart: every branch of
`insertByteRange` raises them by a rule of its own, and `split` copies two of them only.
-/

namespace AnalyseTCP

namespace RangeManager

/-! ## The counters of a range -/

/-- How often a range was counted as repeated. -/
def repeats (r : ByteRange) : ℕ := r.dataRetransCount.total + r.rdbCount.total

/-- A range with bytes was sent once and repeated otherwise; one without bytes was not repeated. -/
structure CountsRepeats (r : ByteRange) : Prop where
  data : r.startSeq < r.endSeq → sentCount r = 1 + repeats r
  empty : r.startSeq = r.endSeq → repeats r = 0

section Record

variable (seg : DataSeg) (level : ℕ) (rdb : Bool) (r : ByteRange)

theorem repeats_recordFound : repeats (recordFound seg level rdb .sent r) =
    repeats r + (seg.retrans.toNat + seg.isRdb.toNat) := by
  have hfound : repeats (recordFound seg level rdb .sent r) =
      repeats (recordSentCounts seg level rdb r) :=
    recordSentFound_blind seg level rdb r fun _ _ => rfl
  rw [hfound]
  exact Nat.add_add_add_comm _ _ _ _

theorem repeats_recordSplit : repeats (recordSplit seg level rdb .sent r) =
    repeats r + (1 + seg.isRdb.toNat) :=
  Nat.add_add_add_comm _ _ _ _

theorem repeats_finSet : repeats (finSet seg r) = repeats r := finSet_blind seg r fun _ _ => rfl

theorem repeats_freshRange (s e : ℕ) : repeats (freshRange seg s e) = 0 := repeats_finSet seg _

theorem repeats_recordEmpty : repeats (recordEmpty seg .sent level rdb r) = repeats r := by
  unfold recordEmpty
  dsimp only
  split_ifs <;> rfl

theorem sentCount_recordEmpty_plain (h : (seg.syn || seg.fin) = false) :
    sentCount (recordEmpty seg .sent level rdb r) = sentCount r := by
  unfold recordEmpty
  dsimp only
  rw [if_neg (by rw [h]; exact Bool.false_ne_true)]
  split <;> rfl

theorem repeats_emptyRange (q : ℕ) : repeats (emptyRange seg rdb q) = seg.isRdb.toNat := by
  show 0 + (0 + seg.isRdb.toNat) = _
  omega

variable {r}

theorem CountsRepeats.congr {r' : ByteRange} (h : CountsRepeats r)
    (hstart : r'.startSeq = r.startSeq) (hend : r'.endSeq = r.endSeq)
    (hsent : sentCount r' = sentCount r) (hrepeats : repeats r' = repeats r) : CountsRepeats r' := by
  constructor
  · rw [hstart, hend, hsent, hrepeats]
    exact h.data
  · rw [hstart, hend, hrepeats]
    exact h.empty

/-- For ranges with bytes. -/
theorem countsRepeats_of_bytes (hbytes : r.startSeq < r.endSeq)
    (hcount : sentCount r = 1 + repeats r) : CountsRepeats r :=
  ⟨fun _ => hcount, fun h => absurd h hbytes.ne⟩

/-- The packet repeats the range, and exactly one of its marks says so. -/
theorem CountsRepeats.recordFound (h : CountsRepeats r) (hbytes : r.startSeq < r.endSeq)
    (hmark : seg.retrans.toNat + seg.isRdb.toNat = 1) :
    CountsRepeats (recordFound seg level rdb .sent r) := by
  refine countsRepeats_of_bytes ?_ ?_
  · rw [recordFound_startSeq, recordFound_endSeq]
    exact hbytes
  · rw [(countsBytes_sent seg).recordFound, repeats_recordFound, hmark, h.data hbytes,
      Nat.add_assoc]

theorem CountsRepeats.wholeRange (h : CountsRepeats r) (hbytes : r.startSeq < r.endSeq)
    (hmark : seg.retrans.toNat + seg.isRdb.toNat = 1) (s : ℕ) :
    CountsRepeats (wholeRange .sent seg level s r) := by
  refine (h.recordFound seg level (thisIsRdbData seg s) hbytes hmark).congr ?_ ?_ ?_ ?_ <;>
    exact wholeRange_blind .sent seg level s r fun _ _ => rfl

/-- A split always counts a retransmission, for a bundle too. -/
theorem countsRepeats_recordSplit (hbytes : r.startSeq < r.endSeq)
    (hcount : sentCount r = 1 + repeats r + seg.isRdb.toNat) :
    CountsRepeats (recordSplit seg level rdb .sent r) := by
  refine countsRepeats_of_bytes ?_ ?_
  · rw [recordSplit_startSeq, recordSplit_endSeq]
    exact hbytes
  · rw [(countsBytes_sent seg).recordSplit, repeats_recordSplit, hcount]
    omega

theorem CountsRepeats.head {c : ℕ} (h : CountsRepeats r) (hlo : r.startSeq < c)
    (hhi : c ≤ r.endSeq) : CountsRepeats (r.head c) :=
  countsRepeats_of_bytes hlo (h.data (hlo.trans_le hhi))

/-- The part behind a cut has lost the bundles. -/
theorem CountsRepeats.sentCount_tail (h : CountsRepeats r) (hbytes : r.startSeq < r.endSeq)
    (c : ℕ) : sentCount (r.tail c) = 1 + repeats (r.tail c) + r.rdbCount.total :=
  (h.data hbytes).trans (Nat.add_assoc _ _ _).symm

theorem CountsRepeats.tail {c : ℕ} (h : CountsRepeats r) (hlo : r.startSeq ≤ c) (hhi : c < r.endSeq)
    (hnone : r.rdbCount.total = 0) : CountsRepeats (r.tail c) := by
  refine countsRepeats_of_bytes hhi ?_
  rw [h.sentCount_tail (hlo.trans_lt hhi), hnone, Nat.add_zero]

theorem countsRepeats_freshRange {s e : ℕ} (hlt : s < e) : CountsRepeats (freshRange seg s e) := by
  refine countsRepeats_of_bytes ?_ ?_
  · rw [freshRange_startSeq, freshRange_endSeq]
    exact hlt
  · rw [(countsBytes_sent seg).freshRange rfl, repeats_freshRange]

theorem CountsRepeats.reusedRange {s c : ℕ} (h : CountsRepeats r) (hempty : r.endSeq = r.startSeq)
    (hlo : r.startSeq < c) (hunsent : sentCount r = 0) : CountsRepeats (reusedRange seg s c r) := by
  refine countsRepeats_of_bytes hlo ?_
  have hnone : repeats (RangeManager.reusedRange seg s c r) = 0 := h.empty hempty.symm
  rw [(countsBytes_sent seg).reusedRange rfl, hunsent, hnone]

theorem CountsRepeats.ackExact (h : CountsRepeats r) (b : Bool) :
    CountsRepeats (ackExact seg b r) := by
  refine h.congr ?_ ?_ ?_ ?_ <;>
    exact ackExact_blind seg r _ b (fun _ _ => rfl) (fun _ _ => rfl) (fun _ => rfl) (fun _ => rfl)
      fun _ _ => rfl

theorem CountsRepeats.markAcked (h : CountsRepeats r) : CountsRepeats (markAcked seg r) := by
  unfold RangeManager.markAcked
  split
  · exact h
  · exact h.congr rfl rfl rfl rfl

theorem countsRepeats_emptyRange {q : ℕ} (hmark : seg.isRdb = false) :
    CountsRepeats (emptyRange seg rdb q) := by
  refine ⟨fun h => absurd h (lt_irrefl _), fun _ => ?_⟩
  rw [repeats_emptyRange, hmark]
  rfl

end Record

/-! ## Cuts that lose nothing -/

/-- Cut for `seg`, the range keeps its counters together: it was never bundled, or it was bundled
once and `seg` is a bundle, for which a split counts a retransmission too many. -/
def Cuttable (seg : DataSeg) (r : ByteRange) : Prop := r.rdbCount.total = seg.isRdb.toNat

instance (seg : DataSeg) : DecidablePred (Cuttable seg) := fun _ =>
  inferInstanceAs (Decidable (_ = _))

/-- What a pass makes of ranges whose counters are together. -/
theorem Piece.countsRepeats {l : List Entry} {seg : DataSeg} {level s e : ℕ} {next : Option ℕ}
    {en : Entry} (h : Piece l .sent seg level s e next en) (hwf : WfEntries l) (hlt : s < e)
    (hcounts : ∀ o ∈ l, CountsRepeats o.2)
    (hunsent : ∀ r, (s, r) ∈ l → r.endSeq = s → sentCount r = 0)
    (hmark : ∀ r, (s, r) ∈ l → s < r.endSeq → seg.retrans.toNat + seg.isRdb.toNat = 1)
    (hcut : (∀ o ∈ l, o.1 ≠ s) → ∀ o ∈ l, o.2.Inside s → Cuttable seg o.2)
    (hcutEnd : (∀ o ∈ l, o.1 ≠ e) → ∀ o ∈ l, o.2.Inside e → Cuttable seg o.2)
    (hplain : ∀ o ∈ l, o.1 ≤ s → e < o.2.endSeq → seg.isRdb = false) : CountsRepeats en.2 := by
  -- a cut drops `rdb_count` behind it, which the record on the split makes up for if `Cuttable`
  cases h with
  | fresh => exact countsRepeats_freshRange seg hlt
  | whole r hmem hend =>
      have hr : s = r.startSeq := (hwf _ hmem).1
      have hlt' : s < r.endSeq := hend ▸ hlt
      exact (hcounts _ hmem).wholeRange seg level (hr ▸ hlt') (hmark r hmem hlt') s
  | front r hmem hend =>
      have hr : s = r.startSeq := (hwf _ hmem).1
      have hhead := (hcounts _ hmem).head (hr ▸ hlt) hend.le
      exact hhead.recordFound seg level _ (hr ▸ hlt) (hmark r hmem (hlt.trans hend))
  | frontRest r hmem hend hrest =>
      have hr : s = r.startSeq := (hwf _ hmem).1
      have hclean := hcutEnd hrest _ hmem ⟨hr ▸ hlt, hend⟩
      have hnone : r.rdbCount.total = 0 := by
        rw [hclean, hplain _ hmem le_rfl hend]
        rfl
      exact (hcounts _ hmem).tail (hr ▸ hlt.le) hend hnone
  | span r hmem hlo hend =>
      have hr : s = r.startSeq := (hwf _ hmem).1
      exact (hcounts _ hmem).recordFound seg level _ (hr ▸ hlo) (hmark r hmem hlo)
  | reuse r c hmem hitype hempty hlo hhi =>
      have hr : s = r.startSeq := (hwf _ hmem).1
      have hnone : r.endSeq = r.startSeq := hempty.trans hr
      exact (hcounts _ hmem).reusedRange seg hnone (hr ▸ hlo) (hunsent r hmem hempty)
  | cutHead key r next hfree hmem hkey hlo =>
      have hr : key = r.startSeq := (hwf _ hmem).1
      exact (hcounts _ hmem).head (hr ▸ hkey) hlo.le
  | back key r hfree hmem hkey hlo hend =>
      have hr : key = r.startSeq := (hwf _ hmem).1
      have hclean := hcut hfree _ hmem ⟨hr ▸ hkey, hlo⟩
      refine countsRepeats_recordSplit seg level _ ?_ ?_
      · rw [finSet_startSeq, finSet_endSeq]
        exact hlo
      · rw [(countsBytes_sent seg).finSet, repeats_finSet, ← hclean]
        exact (hcounts _ hmem).sentCount_tail (hr ▸ hkey.trans hlo) s
  | middle key r hfree hmem hkey hend =>
      have hr : key = r.startSeq := (hwf _ hmem).1
      have hlo : s < r.endSeq := hlt.trans hend
      have hclean := hcut hfree _ hmem ⟨hr ▸ hkey, hlo⟩
      refine countsRepeats_recordSplit seg level _ ?_ ?_
      · rw [finSet_startSeq, finSet_endSeq]
        exact hlt
      · rw [(countsBytes_sent seg).finSet, repeats_finSet, ← hclean]
        exact (hcounts _ hmem).sentCount_tail (hr ▸ hkey.trans hlo) s
  | middleRest key r hfree hmem hkey hend =>
      have hr : key = r.startSeq := (hwf _ hmem).1
      have hlo : s < r.endSeq := hlt.trans hend
      have hclean := hcut hfree _ hmem ⟨hr ▸ hkey, hlo⟩
      have hnone : r.rdbCount.total = 0 := by
        rw [hclean, hplain _ hmem hkey.le hend]
        rfl
      exact ((hcounts _ hmem).tail (hr ▸ hkey.le) hlo hnone).tail hlt.le hend rfl
  | beyond key r hfree hmem hkey hlo hend =>
      have hr : key = r.startSeq := (hwf _ hmem).1
      have hclean := hcut hfree _ hmem ⟨hr ▸ hkey, hlo⟩
      refine countsRepeats_recordSplit seg level _ hlo ?_
      rw [← hclean]
      exact (hcounts _ hmem).sentCount_tail (hr ▸ hkey.trans hlo) s

/-- What keeps the counters together.  A packet without payload: a SYN or FIN meets no range with
bytes.  Data: the ranges that it cuts are `Cuttable`, and the ranges without bytes that it takes
over never carried a SYN, FIN or RST.  A later pass starts where a range ends, and cuts a range only
if ranges overlap. -/
def SparesBundles (l : List Entry) (seg : DataSeg) : Prop :=
  if seg.seq = seg.endSeq then
    (seg.syn || seg.fin) = true → ∀ o ∈ l, o.1 = seg.seq → o.2.startSeq = o.2.endSeq
  else
    StartsClean (Cuttable seg) l seg.seq ∧ StartsClean (Cuttable seg) l seg.endSeq ∧
      (∀ o ∈ l, seg.seq ≤ o.2.endSeq → StartsClean (Cuttable seg) l o.2.endSeq) ∧
      ∀ o ∈ l, o.2.startSeq = o.2.endSeq → seg.seq ≤ o.2.startSeq → o.2.startSeq < seg.endSeq →
        sentCount o.2 = 0

instance (l : List Entry) (seg : DataSeg) : Decidable (SparesBundles l seg) := by
  unfold SparesBundles
  infer_instance

end RangeManager

namespace Connection

open RangeManager

/-- During the insertion of sent data. -/
structure Charging (l₀ : List Entry) (seg : DataSeg) (last : ℕ) (pos : Option ℕ) (en : Entry) :
    Prop where
  counts : CountsRepeats en.2
  unsent : en.2.startSeq = en.2.endSeq → seg.seq ≤ en.2.startSeq →
    en.2.startSeq < seg.endSeq → sentCount en.2 = 0
  from_le : seg.seq ≤ pos.getD seg.endSeq
  below : EndsBelow last seg.endSeq pos en
  ahead : ∀ s, pos = some s → Ahead (Cuttable seg) l₀ (max last seg.endSeq + 1) s en

/-- Data that meets old bytes carries exactly one mark. -/
theorem Marked.mark {seg : DataSeg} {last last' s stop : ℕ} (h : Marked last seg last')
    (hseq : seg.seq ≤ s) (hs : s < seg.endSeq) (hstop : s < stop) (hle : stop ≤ max last s) :
    seg.retrans.toNat + seg.isRdb.toNat = 1 := by
  have hold : s < last := by omega
  cases h with
  | empty hend => omega
  | newData _ _ _ hretrans hrdb =>
      rw [hretrans, (hrdb (hseq.trans_lt hold)).1]
      rfl
  | retrans _ _ _ hretrans hrdb =>
      rw [hretrans, hrdb]
      rfl

theorem Marked.isRdb_eq_false {seg : DataSeg} {last last' : ℕ} (h : Marked last seg last')
    (hdata : seg.seq < seg.endSeq) (hle : seg.endSeq ≤ last) : seg.isRdb = false := by
  cases h with
  | empty hend => omega
  | newData _ _ hnew => omega
  | retrans _ _ _ _ hrdb => exact hrdb

theorem pieceKeeps_charging {m : OrdMap ℕ ByteRange} {seg : DataSeg} {last last' : ℕ}
    (hmarked : Marked last seg last') (hstop : StartsClean (Cuttable seg) m.entries seg.endSeq) :
    PieceKeeps m .sent seg seg.endSeq
      (fun s => seg.seq ≤ s ∧ StartsClean (Cuttable seg) m.entries s)
      (Charging m.entries seg last) where
  next l s s' hl hlo hhi hreached := by
    have hE : s' < max last seg.endSeq + 1 := by omega
    refine ⟨?_, startsClean_next (fun en hen => (hl en hen).ahead s rfl) hlo hE hreached⟩
    have hfrom : seg.seq ≤ s := by
      rcases hreached with ⟨o, ho, -⟩ | ⟨o, ho, -⟩
      · exact (hl o ho).from_le
      · exact (hl o ho).from_le
    omega
  old s next en h hnext := by
    obtain ⟨hcounts, hunsent, hfrom, hbelow, hahead⟩ := h
    refine ⟨hcounts, hunsent, ?_, (pieceKeeps_endsBelow m seg last _).old s next en hbelow hnext,
      fun s' hs => (hahead s rfl).later (hnext s' hs).1.le⟩
    cases next with
    | none => exact hfrom.trans hbelow.pos_le
    | some s' => exact hfrom.trans (hnext s' rfl).1.le
  piece l s level next en hwf hkeys hlt hstart hl hnext hpiece := by
    have hahead : ∀ en ∈ l, Ahead (Cuttable seg) m.entries (max last seg.endSeq + 1) s en :=
      fun en hen => (hl en hen).ahead s rfl
    have hbelow := (pieceKeeps_endsBelow m seg last seg.endSeq).piece l s level next en hwf hkeys
      hlt trivial (fun en hen => (hl en hen).below) hnext hpiece
    have hbytes := hpiece.bytes hwf hlt
    have hfrom : seg.seq ≤ next.getD seg.endSeq := by
      cases next with
      | none => exact hstart.1.trans hlt.le
      | some s' => exact hstart.1.trans (hnext s' rfl).1.le
    refine ⟨?_, fun hempty => absurd hempty hbytes.ne, hfrom, hbelow, fun s' hs =>
      hpiece.ahead (by omega) hstart.2 hahead hs (hnext s' hs).1 (hnext s' hs).2⟩
    refine hpiece.countsRepeats hwf hlt (fun o ho => (hl o ho).counts) ?_ ?_ ?_ ?_ ?_
    · intro r hmem hempty
      have hr : s = r.startSeq := (hwf _ hmem).1
      exact (hl _ hmem).unsent (hempty.trans hr).symm (hr ▸ hstart.1) (hr ▸ hlt)
    · -- a range that the data meets at its start is old
      intro r hmem hend
      have hr : s = r.startSeq := (hwf _ hmem).1
      exact hmarked.mark hstart.1 hlt hend ((hl _ hmem).below.end_le (hr ▸ hend))
    · exact fun hfree en hen => cut_of_startsClean hstart.2 hkeys hahead hfree hen
    · have hlater : ∀ en ∈ l,
          Ahead (Cuttable seg) m.entries (max last seg.endSeq + 1) seg.endSeq en :=
        fun en hen => (hahead en hen).later hlt.le
      exact fun hfree en hen => cut_of_startsClean hstop hkeys hlater hfree hen
    · -- a bundle ends above everything sent before
      intro o ho hkey hend
      have hr : o.1 = o.2.startSeq := (hwf o ho).1
      have hle : o.2.endSeq ≤ max last s := (hl o ho).below.end_le (by omega)
      exact hmarked.isRdb_eq_false (hstart.1.trans_lt hlt) (by omega)

/-! ## The packets of a connection -/

theorem classify_isRdb {conn : Connection} {sd : SendData} (hplain : sd.data.isRdb = false)
    (h : (conn.classify sd).2.data.isRdb = true) :
    sd.data.payloadSize ≠ 0 ∧ conn.lastLargestEndSeq < sd.data.endSeq ∧
      (conn.classify sd).2.data.seq = sd.data.seq ∧
      (conn.classify sd).2.data.endSeq = sd.data.endSeq := by
  unfold classify at h ⊢
  by_cases hzero : sd.data.payloadSize = 0
  · rw [if_pos hzero] at h
    exact absurd (hplain.symm.trans h) Bool.false_ne_true
  rw [if_neg hzero] at h ⊢
  by_cases hnew : conn.lastLargestEndSeq < sd.data.endSeq
  · rw [if_pos hnew] at h ⊢
    obtain ⟨hseq, hend, -, -⟩ := registerNewData_marks conn sd
    exact ⟨hzero, hnew, hseq, hend⟩
  · rw [if_neg hnew] at h
    exact absurd (hplain.symm.trans h) Bool.false_ne_true

/-- Only data is marked as a bundle. -/
theorem registerSent_isRdb {conn conn' : Connection} {sd sd' : SendData} (hsd : Unmarked sd)
    (hreg : conn.registerSent sd = (conn', sd', true)) (h : sd'.data.isRdb = true) :
    sd'.data.seq < sd'.data.endSeq := by
  rcases registerSent_cases conn sd with ⟨-, -, hout⟩ | ⟨c, d, hchecked, hout⟩
  · rw [hout] at hreg
    cases hreg
  rw [hout] at hreg
  obtain ⟨-, hreg⟩ := Prod.mk.inj hreg
  obtain ⟨rfl, -⟩ := Prod.mk.inj hreg
  have hdata : sd.data.payloadSize ≠ 0 → sd.data.seq < sd.data.endSeq := fun hzero => by
    have := hsd.size.size
    omega
  cases hchecked with
  | closes _ | plain _ =>
      obtain ⟨hzero, -, hseq, hend⟩ := classify_isRdb hsd.isRdb h
      rw [hseq, hend]
      exact hdata hzero
  | restarts _ =>
      have hplain : ({ sd with data := { sd.data with seq := 0, endSeq := 0 } } :
          SendData).data.isRdb = false := hsd.isRdb
      obtain ⟨-, hnew, -⟩ := classify_isRdb hplain h
      exact absurd hnew (Nat.not_lt_zero _)

theorem insertSentRange_countsRepeats {rm rm' : RangeManager} {sd : SendData} {last last' : ℕ}
    (hmarked : Marked last sd.data last')
    (hplain : sd.data.isRdb = true → sd.data.seq < sd.data.endSeq)
    (hwf : WfEntries rm.ranges.entries)
    (hends : ∀ en ∈ rm.ranges.entries, en.2.startSeq < en.2.endSeq → en.2.endSeq ≤ last)
    (hinv : ∀ en ∈ rm.ranges.entries, CountsRepeats en.2)
    (hok : SparesBundles rm.ranges.entries sd.data) (h : rm.insertSentRange sd = .ok rm') :
    ∀ en ∈ rm'.ranges.entries, CountsRepeats en.2 := by
  obtain ⟨rm₁, ret, hins, hrm⟩ := insertSentRange_cases h
  rw [hrm]
  unfold SparesBundles at hok
  by_cases hempty : sd.data.seq = sd.data.endSeq
  · rw [if_pos hempty] at hok
    rw [← hempty] at hins
    have hmark : sd.data.isRdb = false := by
      by_contra hno
      exact absurd hempty (hplain (by simpa using hno)).ne
    have hkeeps : EmptyKeeps .sent sd.data rm fun en => CountsRepeats en.2 := by
      refine ⟨fun _ => countsRepeats_emptyRange sd.data _ hmark, fun r hr hcounts => ?_⟩
      refine ⟨fun hbytes => ?_, fun hnone => ?_⟩
      · rw [recordEmpty_startSeq, recordEmpty_endSeq] at hbytes
        rw [repeats_recordEmpty, ← hcounts.data hbytes]
        refine sentCount_recordEmpty_plain _ 0 _ r ?_
        by_contra hno
        have hflags := (Bool.not_eq_false _).mp hno
        have hsf : sd.data.syn = true ∨ sd.data.fin = true := by simpa using hflags
        rw [emptySeq_of_noFlags _ (noFlags_of_flags hsf)] at hr
        exact hbytes.ne (hok hflags _ hr rfl)
      · rw [recordEmpty_startSeq, recordEmpty_endSeq] at hnone
        rw [repeats_recordEmpty]
        exact hcounts.empty hnone
    exact (insertByteRange_empty_forall hkeeps hwf hinv hins).2
  · rw [if_neg hempty] at hok
    obtain ⟨hstart, hstop, hcuts, hunsent⟩ := hok
    have hdata : sd.data.seq < sd.data.endSeq ∧ sd.data.endSeq - sd.data.seq < 2 ^ 16 - 1 := by
      cases hmarked with
      | empty hend => exact absurd hend.symm hempty
      | newData hlt hsize => exact ⟨hlt, hsize⟩
      | retrans hlt hsize => exact ⟨hlt, hsize⟩
    have hcharging : ∀ en ∈ rm.ranges.entries,
        Charging rm.ranges.entries sd.data last (some sd.data.seq) en := by
      intro en hen
      refine ⟨hinv en hen, hunsent en hen, le_rfl, ⟨hdata.1.le, fun hbytes => ?_⟩, fun s hs => ?_⟩
      · exact (hends en hen hbytes).trans (le_max_left _ _)
      · obtain rfl := Option.some.inj hs
        refine ⟨.inl ⟨en, hen, rfl⟩, fun hin => ?_, fun hle _ => hcuts en hen hle,
          fun _ _ hD => hD en hen⟩
        -- every range ends at or below the largest end before
        have hlo : max last sd.data.endSeq + 1 < en.2.endSeq := hin.2
        have := hends en hen (hin.1.trans hin.2)
        omega
    obtain ⟨-, -, hdone⟩ := insertLoop_forall (by simp) (pieceKeeps_charging hmarked hstop)
      (.refl _) hdata.1 ⟨le_rfl, hstart⟩ (fun _ => hdata.2) hwf hcharging hins
    exact fun en hen => (hdone en hen).counts

/-- What the sender trace may hold: with the marks that `registerSent` sets, every packet keeps the
counters of the ranges together. -/
def KeepsRepeats (conn : Connection) (sd : SendData) : Prop :=
  (conn.registerSent sd).2.2 = true →
    SparesBundles conn.rm.ranges.entries (conn.registerSent sd).2.1.data

instance (conn : Connection) (sd : SendData) : Decidable (KeepsRepeats conn sd) :=
  inferInstanceAs (Decidable (_ → _))

theorem processSent_countsRepeats {conn conn' : Connection} {sd : SendData}
    (hbounded : conn.Bounded) (hinv : ∀ en ∈ conn.rm.ranges.entries, CountsRepeats en.2)
    (hsd : Unmarked sd) (hok : KeepsRepeats conn sd) (h : conn.processSent sd = .ok conn') :
    ∀ en ∈ conn'.rm.ranges.entries, CountsRepeats en.2 := by
  unfold KeepsRepeats at hok
  unfold processSent at h
  split at h
  · next c d hreg =>
      rw [hreg] at hok
      obtain ⟨hmarked, hranges⟩ := registerSent_marked hsd hreg
      obtain ⟨rm, hins, h⟩ := Run.exists_of_bind_ok h
      obtain rfl := Except.ok.inj h
      rw [← hranges] at hok
      refine insertSentRange_countsRepeats hmarked (registerSent_isRdb hsd hreg) ?_ ?_ ?_ (hok rfl)
        hins
      · exact hranges ▸ hbounded.wf
      · exact hranges ▸ hbounded.end_le
      · exact hranges ▸ hinv
  · next c d hreg =>
      obtain rfl := Except.ok.inj h
      rcases registerSent_cases conn sd with ⟨-, -, hout⟩ | ⟨_, _, _, hout⟩
      · rw [hout] at hreg
        obtain ⟨rfl, -⟩ := Prod.mk.inj hreg
        exact hinv
      · rw [hout] at hreg
        cases hreg

/-! ## ACKs -/

/-- The ACK cuts no bundled range. -/
def AckSparesBundles (rm : RangeManager) (seg : DataSeg) : Prop :=
  ∀ o ∈ rm.ranges.entries, o.2.Inside seg.ack → o.2.rdbCount.total = 0

instance (rm : RangeManager) (seg : DataSeg) : Decidable (AckSparesBundles rm seg) :=
  inferInstanceAs (Decidable (∀ _ ∈ _, _))

theorem rdbCount_ackExact (seg : DataSeg) (b : Bool) (r : ByteRange) :
    (ackExact seg b r).rdbCount = r.rdbCount :=
  ackExact_blind seg r _ b (fun _ _ => rfl) (fun _ _ => rfl) (fun _ => rfl) (fun _ => rfl)
    fun _ _ => rfl

theorem rdbCount_markAcked (seg : DataSeg) (r : ByteRange) :
    (markAcked seg r).rdbCount = r.rdbCount := by
  unfold markAcked
  split <;> rfl

theorem ackKeeps_countsRepeats (l : List Entry) (seg : DataSeg) :
    AckKeeps l seg fun en => CountsRepeats en.2 ∧
      (en.2.Inside seg.ack → en.2.rdbCount.total = 0) where
  exact _ r b h := by
    refine ⟨h.1.ackExact seg b, ?_⟩
    rw [inside_congr (ackExact_startSeq seg r b) (ackExact_endSeq seg r b), rdbCount_ackExact]
    exact h.2
  mark _ r h := by
    refine ⟨h.1.markAcked seg, ?_⟩
    rw [inside_congr (markAcked_startSeq seg r) (markAcked_endSeq seg r), rdbCount_markAcked]
    exact h.2
  count _ _ h := ⟨h.1.congr rfl rfl rfl rfl, h.2⟩
  part _ r hkey hr hlo hhi h := by
    have hnone := h.2 ⟨hlo, hhi⟩
    refine ⟨⟨?_, fun _ => hnone⟩, fun _ => ⟨h.1.tail hlo.le hhi hnone, fun _ => rfl⟩⟩
    exact (h.1.head hlo hhi.le).congr rfl rfl rfl rfl

/-! ## Runs -/

/-- The bytes sent and the redundant bytes, as the analysis reports them. -/
theorem calculateRealLoss_bytes (withRecv : Bool) (l : List Entry) :
    (calculateRealLoss withRecv l).analysedBytesSent =
        (l.map fun en => en.2.dataSentCount.val * en.2.byteCount).sum ∧
      (calculateRealLoss withRecv l).analysedRedundantBytes =
        (l.map fun en => en.2.byteCount * (en.2.dataRetransCount.val + en.2.rdbCount.val)).sum := by
  constructor
  · have hsum := foldl_addRange (π := LossTotals.analysedBytesSent)
      (addRange_analysedBytesSent withRecv) l {}
    exact hsum.trans (Nat.zero_add _)
  · have hsum := foldl_addRange (w := withRecv) (π := LossTotals.analysedRedundantBytes)
      (g := fun r => r.byteCount * (r.dataRetransCount.val + r.rdbCount.val)) (fun t r => ?_) l {}
    · exact hsum.trans (Nat.zero_add _)
    · exact congrArg (t.analysedRedundantBytes + ·) <|
        classifyRange_blind withRecv r
          (fun r => r.byteCount * (r.dataRetransCount.val + r.rdbCount.val)) (fun _ _ => rfl)
          (fun _ _ _ => rfl) (fun _ _ => rfl) fun _ _ => rfl

/-- In every run whose packets and ACKs keep the counters together, every range with bytes was sent
once and repeated otherwise, and the bytes sent are the unique bytes and the redundant ones. -/
theorem processSent_run_redundant (withRecv : Bool) {seq : ℕ} {sds : List SendData}
    {acks : List DataSeg} {conn : Connection} {rm : RangeManager} (hsds : ∀ sd ∈ sds, Unmarked sd)
    (hsent : Run.Steps processSent KeepsRepeats (new seq) sds)
    (hrun : Run.run processSent (new seq) sds = .ok conn)
    (hacks : Run.Steps ackStep AckSparesBundles conn.rm acks)
    (hrun' : Run.run ackStep conn.rm acks = .ok rm)
    (hfits : ∀ en ∈ rm.ranges.entries,
      en.2.dataSentCount.Fits ∧ en.2.dataRetransCount.Fits ∧ en.2.rdbCount.Fits) :
    (∀ en ∈ rm.ranges.entries, en.2.byteCount ≠ 0 →
      en.2.dataSentCount.val = 1 + en.2.dataRetransCount.val + en.2.rdbCount.val) ∧
    ((calculateRealLoss withRecv rm.ranges.entries).analysedBytesSent : ℤ) -
        ((rm.ranges.entries.map fun en => en.2.byteCount).sum : ℕ) =
      (calculateRealLoss withRecv rm.ranges.entries).analysedRedundantBytes := by
  have hnew : (new seq).Bounded := ⟨fun en hen => (nomatch hen), fun en hen => (nomatch hen)⟩
  have hfirst : conn.Bounded ∧ ∀ en ∈ conn.rm.ranges.entries, CountsRepeats en.2 :=
    Run.invariant (d := [])
      (I := fun conn _ => conn.Bounded ∧ ∀ en ∈ conn.rm.ranges.entries, CountsRepeats en.2)
      (fun conn sd conn' _ hinv hok hstep =>
        ⟨processSent_bounded hinv.1 hok.2 hstep,
          processSent_countsRepeats hinv.1 hinv.2 hok.2 hok.1 hstep⟩)
      ⟨hnew, fun en hen => absurd hen List.not_mem_nil⟩
      (hsent.and_forall hsds) hrun
  obtain ⟨hwf, hinv⟩ : WfEntries rm.ranges.entries ∧
      ∀ en ∈ rm.ranges.entries, CountsRepeats en.2 :=
    Run.invariant (d := [])
      (I := fun rm _ => WfEntries (RangeManager.ranges rm).entries ∧
        ∀ en ∈ (RangeManager.ranges rm).entries, CountsRepeats en.2)
      (fun rm seg rm' _ hinv hok hstep => by
        obtain ⟨-, hwf', hkept⟩ := ackStep_forall (ackKeeps_countsRepeats _ seg) hinv.1
          (fun en hen => ⟨hinv.2 en hen, hok en hen⟩) hstep
        exact ⟨hwf', fun en hen => (hkept en hen).1⟩)
      ⟨hfirst.1.wf, hfirst.2⟩ hacks hrun'
  have hcount : ∀ en ∈ rm.ranges.entries, en.2.byteCount ≠ 0 →
      en.2.dataSentCount.val = 1 + en.2.dataRetransCount.val + en.2.rdbCount.val := by
    intro en hen hne
    have hr := (hwf en hen).2
    have hbytes : en.2.startSeq < en.2.endSeq := by
      have := hr.size
      omega
    obtain ⟨hsent, hretrans, hrdb⟩ := hfits en hen
    rw [Counter.val_of_fits hsent, Counter.val_of_fits hretrans, Counter.val_of_fits hrdb,
      Nat.add_assoc]
    exact (hinv en hen).data hbytes
  refine ⟨hcount, ?_⟩
  rw [sub_eq_iff_eq_add', ← Nat.cast_add, Nat.cast_inj]
  obtain ⟨hsum, hredundant⟩ := calculateRealLoss_bytes withRecv rm.ranges.entries
  rw [hsum, hredundant, ← List.sum_map_add]
  congr 1
  apply List.map_congr_left
  intro en hen
  by_cases hne : en.2.byteCount = 0
  · rw [hne]
    simp
  · rw [hcount en hen hne]
    ring

/-- A segment, the bundle that repeats it, and the repetition of the bundle's new bytes. -/
def bundledTrace : List SendData :=
  firstTen ++ [tenAndFive, { data := { seq := 10, endSeq := 15, payloadSize := 5 } }]

theorem processSent_run_redundant_bundled :
    ∃ conn rm, Run.run processSent (new 0) bundledTrace = .ok conn ∧
      Run.run ackStep conn.rm [{ ack := 12, tstampPcap := ⟨1, 0⟩ }] = .ok rm ∧
      ((calculateRealLoss true rm.ranges.entries).analysedBytesSent : ℤ) -
          ((rm.ranges.entries.map fun en => en.2.byteCount).sum : ℕ) =
        (calculateRealLoss true rm.ranges.entries).analysedRedundantBytes := by
  have hall : ((Run.run processSent (new 0) bundledTrace).toOption.any fun conn =>
      decide (Run.Steps ackStep AckSparesBundles conn.rm [{ ack := 12, tstampPcap := ⟨1, 0⟩ }]) &&
      (Run.run ackStep conn.rm [{ ack := 12, tstampPcap := ⟨1, 0⟩ }]).toOption.any fun rm =>
        decide (∀ en ∈ rm.ranges.entries,
          en.2.dataSentCount.Fits ∧ en.2.dataRetransCount.Fits ∧ en.2.rdbCount.Fits)) = true := by
    decide
  obtain ⟨conn, hrun, hall⟩ := Run.exists_of_any_toOption hall
  rw [Bool.and_eq_true, decide_eq_true_eq] at hall
  obtain ⟨rm, hrun', hfits⟩ := Run.exists_of_any_toOption hall.2
  exact ⟨conn, rm, hrun, hrun', (processSent_run_redundant true (by decide) (by decide) hrun hall.1
    hrun' (of_decide_eq_true hfits)).2⟩

/-- The bundle, and then the first half of the segment again. -/
def cutBundleTrace : List SendData :=
  firstTen ++ [tenAndFive, { data := { seq := 0, endSeq := 5, payloadSize := 5 } }]

/-- The second half was sent twice, but neither a retransmission nor a bundle is left of it. -/
theorem processSent_loses_bundle :
    ∃ conn, Run.run processSent (new 0) cutBundleTrace = .ok conn ∧
      (∀ en ∈ conn.rm.ranges.entries,
        en.2.dataSentCount.Fits ∧ en.2.dataRetransCount.Fits ∧ en.2.rdbCount.Fits) ∧
      (∃ en ∈ conn.rm.ranges.entries, en.2.byteCount ≠ 0 ∧
        en.2.dataSentCount.val ≠ 1 + en.2.dataRetransCount.val + en.2.rdbCount.val) ∧
      ((calculateRealLoss true conn.rm.ranges.entries).analysedBytesSent : ℤ) -
          ((conn.rm.ranges.entries.map fun en => en.2.byteCount).sum : ℕ) ≠
        (calculateRealLoss true conn.rm.ranges.entries).analysedRedundantBytes := by
  have hall : ((Run.run processSent (new 0) cutBundleTrace).toOption.any fun conn =>
      decide ((∀ en ∈ conn.rm.ranges.entries,
        en.2.dataSentCount.Fits ∧ en.2.dataRetransCount.Fits ∧ en.2.rdbCount.Fits) ∧
      (∃ en ∈ conn.rm.ranges.entries, en.2.byteCount ≠ 0 ∧
        en.2.dataSentCount.val ≠ 1 + en.2.dataRetransCount.val + en.2.rdbCount.val) ∧
      ((calculateRealLoss true conn.rm.ranges.entries).analysedBytesSent : ℤ) -
          ((conn.rm.ranges.entries.map fun en => en.2.byteCount).sum : ℕ) ≠
        (calculateRealLoss true conn.rm.ranges.entries).analysedRedundantBytes)) = true := by
    decide
  obtain ⟨conn, hrun, hall⟩ := Run.exists_of_any_toOption hall
  exact ⟨conn, hrun, of_decide_eq_true hall⟩

end Connection

end AnalyseTCP
