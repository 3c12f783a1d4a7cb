import AnalyseTCP.AnalyseInterval
import AnalyseTCP.InsertCalls

/-!
# Sojourn times

A sojourn segment says when its bytes entered the kernel.  `insertByteRange` records the end of the
segment, or of the range if that comes first, in every range that the segment overlaps; from these
ends `getSojournTimes` calculates a number of bytes and a time for each chunk of the range.  One
branch goes on without recording: that of a segment which starts inside a range and reaches past it.
-/

namespace AnalyseTCP

namespace ByteRange

/-- `(int) x` of a `long`. -/
def toInt (x : ℤ) : ℤ := signed32 (x % 2 ^ 32).toNat

/-- The loop of `getSojournTimes`, from `tmpBeginSeq`. -/
def sojournChunks (sent : Timeval) : ℕ → List (ℕ × Timeval) → List (ℤ × ℤ)
  | _, [] => []
  | tmpBeginSeq, (seq, tv) :: l =>
      (toInt (sub64 seq tmpBeginSeq), toInt (sent.sub tv).getUsecs) :: sojournChunks sent seq l

/-- `sent_tstamp_pcap[send_tstamp_index].first`: the first packet, else the last entry. -/
def sojournSent (first : Timeval × SentType) (rest : List (Timeval × SentType)) : Timeval :=
  (((first :: rest).find? fun p => decide (p.2 = .pkt)).getD ((first :: rest).getLastD first)).1

def getSojournTimes (r : ByteRange) : List (ℤ × ℤ) :=
  match r.sentTstampPcap with
  | [] => [(0, 0)]
  | first :: rest =>
      if first.1 = Timeval.zero then [(0, 0)]
      else if !r.sojournTime then [(0, 0)]
      else sojournChunks (sojournSent first rest) r.startSeq r.sojournTstamps

/-- The chunks have bytes, and together those of the range. -/
structure Chunked (r : ByteRange) : Prop where
  positive : ∀ c ∈ r.getSojournTimes, 0 < c.1
  sum : (r.getSojournTimes.map Prod.fst).sum = r.byteCount

instance (r : ByteRange) : Decidable r.Chunked :=
  decidable_of_iff ((∀ c ∈ r.getSojournTimes, 0 < c.1) ∧
    (r.getSojournTimes.map Prod.fst).sum = r.byteCount) ⟨fun h => ⟨h.1, h.2⟩, fun h => ⟨h.1, h.2⟩⟩

/-! ## The ends that were recorded -/

/-- `l` are increasing ends behind `b`, the last one of which is `c`. -/
def EndsUpTo : ℕ → List ℕ → ℕ → Prop
  | b, [], c => b = c
  | b, m :: l, c => b < m ∧ EndsUpTo m l c

theorem EndsUpTo.le {b c : ℕ} {l : List ℕ} (h : EndsUpTo b l c) : b ≤ c := by
  induction l generalizing b with
  | nil => exact Nat.le_of_eq h
  | cons m l ih =>
    have hle := ih h.2
    have hlt := h.1
    omega

theorem EndsUpTo.append {b c d : ℕ} {l : List ℕ} (h : EndsUpTo b l c) (hlt : c < d) :
    EndsUpTo b (l ++ [d]) d := by
  induction l generalizing b with
  | nil =>
    obtain rfl : b = c := h
    exact ⟨hlt, rfl⟩
  | cons m l ih => exact ⟨h.1, ih h.2⟩

theorem toInt_natCast {n : ℕ} (h : n < 2 ^ 31) : toInt n = n := by
  unfold toInt signed32
  have hmod : ((n : ℤ) % 2 ^ 32).toNat = n := by omega
  rw [hmod, if_pos h]

/-- The chunks between the recorded ends. -/
theorem sojournChunks_of_ends {sent : Timeval} {b c : ℕ} {l : List (ℕ × Timeval)}
    (h : EndsUpTo b (l.map Prod.fst) c) (hlt : c - b < 2 ^ 31) :
    (∀ d ∈ sojournChunks sent b l, 0 < d.1) ∧
      ((sojournChunks sent b l).map Prod.fst).sum = (c : ℤ) - b := by
  induction l generalizing b with
  | nil =>
    obtain rfl : b = c := h
    exact ⟨fun d hd => absurd hd List.not_mem_nil, (sub_self _).symm⟩
  | cons p l ih =>
    obtain ⟨seq, tv⟩ := p
    obtain ⟨hfirst, hrest⟩ : b < seq ∧ EndsUpTo seq (l.map Prod.fst) c := h
    have hle := hrest.le
    obtain ⟨hpos, hsum⟩ := ih hrest (by omega)
    have hchunk : toInt (sub64 seq b) = ((seq - b : ℕ) : ℤ) := by
      rw [sub64_eq_sub hfirst.le (by omega), toInt_natCast (by omega)]
    rw [sojournChunks, hchunk]
    refine ⟨fun d hd => ?_, ?_⟩
    · rcases List.mem_cons.mp hd with rfl | hd
      · dsimp only
        omega
      · exact hpos d hd
    · rw [List.map_cons, List.sum_cons, hsum]
      dsimp only
      omega

/-- A range that was sent once, as a packet, and has the chunks up to `c`. -/
structure MarkedUpTo (c : ℕ) (r : ByteRange) : Prop where
  sent : ∃ t, r.sentTstampPcap = [(t, .pkt)]
  index : r.sentDataPktPcapIndex = 0
  flag : r.sojournTime = true ↔ r.sojournTstamps ≠ []
  ends : EndsUpTo r.startSeq (r.sojournTstamps.map Prod.fst) c

/-- The chunks are right when they reach the end of the range and its send time is set. -/
theorem MarkedUpTo.chunked_iff {c : ℕ} {r : ByteRange} (h : MarkedUpTo c r) (hwf : r.Wf)
    (hbytes : r.startSeq < r.endSeq) (hle : c ≤ r.endSeq) :
    r.Chunked ↔ c = r.endSeq ∧ r.firstSend ≠ Timeval.zero := by
  obtain ⟨t, ht⟩ := h.sent
  have hcount := wf_iff.mp hwf
  have hfirst : r.firstSend = t := by
    unfold firstSend
    rw [ht]
    rfl
  -- the pair of zeros stands for a range without a send time or without ends
  have hzero : r.getSojournTimes = [(0, 0)] → ¬r.Chunked := by
    intro heq hchunked
    have := hchunked.positive (0, 0) (by rw [heq]; exact List.mem_singleton_self _)
    exact lt_irrefl _ this
  by_cases hsend : t = Timeval.zero
  · have hnone : r.getSojournTimes = [(0, 0)] := by
      unfold getSojournTimes
      rw [ht]
      dsimp only
      rw [if_pos hsend]
    exact iff_of_false (hzero hnone) fun hc => hc.2 (hfirst.trans hsend)
  by_cases hflag : r.sojournTime = true
  · have hchunks : r.getSojournTimes =
        sojournChunks (sojournSent (t, .pkt) []) r.startSeq r.sojournTstamps := by
      unfold getSojournTimes
      rw [ht]
      dsimp only
      rw [if_neg hsend, hflag]
      rfl
    obtain ⟨hpos, hsum⟩ := sojournChunks_of_ends h.ends (by omega)
    have hstart := h.ends.le
    constructor
    · intro hchunked
      have := hchunked.sum
      rw [hchunks, hsum] at this
      exact ⟨by omega, fun hz => hsend (hfirst.symm.trans hz)⟩
    · rintro ⟨rfl, -⟩
      refine ⟨?_, ?_⟩
      · rw [hchunks]
        exact hpos
      · rw [hchunks, hsum]
        omega
  · have hnone : r.getSojournTimes = [(0, 0)] := by
      unfold getSojournTimes
      rw [ht]
      dsimp only
      rw [if_neg hsend, Bool.eq_false_of_not_eq_true hflag]
      rfl
    refine iff_of_false (hzero hnone) fun hc => ?_
    have hempty : r.sojournTstamps = [] := not_not.mp (h.flag.not.mp hflag)
    have hends := h.ends
    rw [hempty] at hends
    obtain hstart : r.startSeq = c := hends
    omega

end ByteRange

namespace RangeManager

/-! ## What one segment records -/

/-- The range overlaps the segment from `s` up to `e`. -/
def SharesBytes (s e : ℕ) (r : ByteRange) : Prop := max r.startSeq s < min r.endSeq e

/-- The segment starts inside the range and reaches past it. -/
def Crosses (s e : ℕ) (r : ByteRange) : Prop := r.startSeq < s ∧ s < r.endSeq ∧ r.endSeq < e

instance (s e : ℕ) (r : ByteRange) : Decidable (SharesBytes s e r) :=
  inferInstanceAs (Decidable (_ < _))

instance (s e : ℕ) (r : ByteRange) : Decidable (Crosses s e r) :=
  inferInstanceAs (Decidable (_ ∧ _))

/-- The chunk of the segment that is recorded on the range. -/
def markChunk (seg : DataSeg) (s e : ℕ) (r : ByteRange) : ByteRange :=
  if SharesBytes s e r ∧ ¬Crosses s e r then
    { r with
      sojournTime := true
      sojournTstamps := r.sojournTstamps ++ [(min r.endSeq e, seg.tstampPcap)] }
  else r

section Mark

variable {seg : DataSeg} {s e : ℕ} {r : ByteRange}

theorem markChunk_blind {α : Type} {f : ByteRange → α}
    (hf : ∀ (r : ByteRange) ts, f { r with sojournTime := true, sojournTstamps := ts } = f r) :
    f (markChunk seg s e r) = f r := by
  unfold markChunk
  split
  · exact hf r _
  · rfl

@[simp] theorem markChunk_startSeq : (markChunk seg s e r).startSeq = r.startSeq :=
  markChunk_blind (f := ByteRange.startSeq) fun _ _ => rfl

@[simp] theorem markChunk_endSeq : (markChunk seg s e r).endSeq = r.endSeq :=
  markChunk_blind (f := ByteRange.endSeq) fun _ _ => rfl

@[simp] theorem markChunk_byteCount : (markChunk seg s e r).byteCount = r.byteCount :=
  markChunk_blind (f := ByteRange.byteCount) fun _ _ => rfl

@[simp] theorem markChunk_sentTstampPcap :
    (markChunk seg s e r).sentTstampPcap = r.sentTstampPcap :=
  markChunk_blind (f := ByteRange.sentTstampPcap) fun _ _ => rfl

theorem markChunk_of_not (h : ¬SharesBytes s e r) : markChunk seg s e r = r :=
  if_neg fun h' => h h'.1

theorem markChunk_of_crosses (h : Crosses s e r) : markChunk seg s e r = r :=
  if_neg fun h' => h'.2 h

/-- A segment that entered the kernel before the range was sent is recorded. -/
theorem addSegmentEnteredKernelTime_eq (hindex : r.sentDataPktPcapIndex = 0)
    (hsent : ∃ t, r.sentTstampPcap = [(t, SentType.pkt)])
    (htime : ∀ p ∈ r.sentTstampPcap, seg.tstampPcap.getUsecs ≤ p.1.getUsecs)
    (hover : SharesBytes s e r) (hcross : ¬Crosses s e r) :
    r.addSegmentEnteredKernelTime (min r.endSeq e) seg.tstampPcap =
      .ok (markChunk seg s e r) := by
  obtain ⟨t, ht⟩ := hsent
  have hle := htime (t, .pkt) (by rw [ht]; exact List.mem_singleton_self _)
  unfold ByteRange.addSegmentEnteredKernelTime markChunk
  rw [hindex, if_neg (by decide), if_neg (by decide), ht, if_pos ⟨hover, hcross⟩]
  exact if_neg hle.not_gt

end Mark

/-- The map with its ranges changed. -/
def withVals (rm : RangeManager) (f : ByteRange → ByteRange) : RangeManager :=
  { rm with ranges := rm.ranges.mapVals f }

/-- A contiguous map of data ranges that end at `lastSeq`. -/
structure DataMap (a : ℕ) (rm : RangeManager) : Prop where
  apart : rm.Apart
  bytes : ∀ en ∈ rm.ranges.entries, en.2.startSeq < en.2.endSeq
  cover : ∀ x, Covered rm.ranges.entries x ↔ a ≤ x ∧ x < rm.lastSeq

/-- The ranges that the segment overlaps can record it. -/
def Records (rm : RangeManager) (seg : DataSeg) : Prop :=
  ∀ en ∈ rm.ranges.entries, en.2.sentDataPktPcapIndex = 0 ∧
    (∃ t, en.2.sentTstampPcap = [(t, SentType.pkt)]) ∧
    (SharesBytes seg.seq seg.endSeq en.2 →
      ∀ p ∈ en.2.sentTstampPcap, seg.tstampPcap.getUsecs ≤ p.1.getUsecs)

section Insert

variable {a p : ℕ} {rm : RangeManager} {seg : DataSeg}

/-- The range that holds `p`, and the others. -/
structure CutAt (rm : RangeManager) (p key : ℕ) (r : ByteRange) : Prop where
  mem : (key, r) ∈ rm.ranges.entries
  key_eq : key = r.startSeq
  holds : r.startSeq ≤ p ∧ p < r.endSeq
  others : ∀ en ∈ rm.ranges.entries, en ≠ (key, r) →
    en.2.endSeq ≤ r.startSeq ∨ r.endSeq ≤ en.2.startSeq

theorem DataMap.exists_cutAt (h : DataMap a rm) (hlo : a ≤ p) (hhi : p < rm.lastSeq) :
    ∃ key r, CutAt rm p key r := by
  obtain ⟨⟨key, r⟩, hmem, hholds⟩ := (h.cover p).mpr ⟨hlo, hhi⟩
  refine ⟨key, r, hmem, (h.apart.1 _ hmem).1, hholds, fun en hen hne => ?_⟩
  have hkey : key = r.startSeq := (h.apart.1 _ hmem).1
  have hkey' := (h.apart.1 en hen).1
  have hne' : en.1 ≠ key := by
    rintro rfl
    exact hne (Prod.ext rfl (OrdMap.eq_of_mem hen hmem))
  rcases Nat.lt_or_gt_of_ne hne' with hlt | hgt
  · exact .inl (h.apart.le_of_lt hen hmem hlt)
  · exact .inr (h.apart.le_of_lt hmem hen hgt)

/-- How many ranges are overlapped from `p` on. -/
theorem DataMap.overlaps_eq {e key : ℕ} {r : ByteRange} (h : DataMap a rm) (hcut : CutAt rm p key r)
    (hlt : p < e) :
    overlaps rm.ranges.entries p e =
      (if r.endSeq < e then overlaps rm.ranges.entries r.endSeq e else 0) + 1 := by
  obtain ⟨pre, post, hentries⟩ := List.append_of_mem hcut.mem
  have hholds := hcut.holds
  have hne : ∀ en ∈ pre ++ post, en ∈ rm.ranges.entries ∧ en ≠ (key, r) := by
    intro en hen
    have hmem : en ∈ rm.ranges.entries := by
      rw [hentries]
      simp only [List.mem_append, List.mem_cons] at hen ⊢
      tauto
    refine ⟨hmem, ?_⟩
    rintro rfl
    rcases List.mem_append.mp hen with hen | hen
    · exact lt_irrefl _ (OrdMap.lt_of_mem_pre hentries hen)
    · exact lt_irrefl _ (OrdMap.lt_of_mem_post hentries hen)
  -- another range overlaps what is left behind `r`, or nothing
  have hother : ∀ en ∈ pre ++ post, (max en.2.startSeq p < min en.2.endSeq e ↔
      r.endSeq < e ∧ max en.2.startSeq r.endSeq < min en.2.endSeq e) := by
    intro en hen
    obtain ⟨hmem, hne⟩ := hne en hen
    have hb := h.bytes en hmem
    rcases hcut.others en hmem hne with hle | hle
    · omega
    · omega
  unfold overlaps
  rw [hentries, List.countP_append, List.countP_cons, List.countP_append, List.countP_cons]
  dsimp only
  have hself : max r.startSeq p < min r.endSeq e := by omega
  have hself' : ¬max r.startSeq r.endSeq < min r.endSeq e := by omega
  rw [decide_eq_true hself, decide_eq_false hself', if_pos rfl, if_neg Bool.false_ne_true]
  have hcount : ∀ l : List Entry, (∀ en ∈ l, en ∈ pre ++ post) →
      l.countP (fun en => decide (max en.2.startSeq p < min en.2.endSeq e)) =
        if r.endSeq < e then
          l.countP fun en => decide (max en.2.startSeq r.endSeq < min en.2.endSeq e)
        else 0 := by
    intro l hl
    split
    · next hr =>
      refine List.countP_congr fun en hen => ?_
      rw [decide_eq_true_eq, decide_eq_true_eq, hother en (hl en hen), and_iff_right hr]
    · next hr =>
      refine List.countP_eq_zero.mpr fun en hen => ?_
      rw [decide_eq_true_eq, hother en (hl en hen)]
      exact fun h => hr h.1
  rw [hcount pre fun en hen => List.mem_append_left _ hen,
    hcount post fun en hen => List.mem_append_right _ hen]
  split <;> omega

/-! ## The passes over one segment -/

theorem withVals_id {f : ByteRange → ByteRange} (h : ∀ en ∈ rm.ranges.entries, f en.2 = en.2) :
    rm.withVals f = rm := by
  have hranges : rm.ranges.mapVals f = rm.ranges := by
    apply OrdMap.ext
    refine (List.map_congr_left fun en hen => ?_).trans (List.map_id _)
    rw [h en hen]
    rfl
  unfold withVals
  rw [hranges]

/-- Writing the range at `key` of a changed map. -/
theorem withVals_modify {f g : ByteRange → ByteRange} {key : ℕ} {r : ByteRange}
    (hmem : (key, r) ∈ rm.ranges.entries)
    (h : ∀ en ∈ rm.ranges.entries, en ≠ (key, r) → f en.2 = g en.2) :
    { rm.withVals f with ranges := (rm.withVals f).ranges.modify key fun _ => g r } =
      rm.withVals g := by
  have hranges : (rm.ranges.mapVals f).modify key (fun _ => g r) = rm.ranges.mapVals g := by
    apply OrdMap.ext
    show (rm.ranges.entries.map _).map _ = rm.ranges.entries.map _
    rw [List.map_map]
    apply List.map_congr_left
    intro en hen
    show (if en.1 = key then (en.1, g r) else (en.1, f en.2)) = (en.1, g en.2)
    by_cases hkey : en.1 = key
    · obtain ⟨k, v⟩ := en
      obtain rfl : k = key := hkey
      obtain rfl := OrdMap.eq_of_mem hen hmem
      rw [if_pos rfl]
    · rw [if_neg hkey, h en hen]
      rintro rfl
      exact hkey rfl
  unfold withVals
  dsimp only
  rw [hranges]

/-- The ranges below `p` have their chunks of the segment. -/
def markedBelow (seg : DataSeg) (p : ℕ) (r : ByteRange) : ByteRange :=
  if r.endSeq ≤ p then markChunk seg seg.seq seg.endSeq r else r

/-- The map when the call at `p` starts. -/
def markedTo (rm : RangeManager) (seg : DataSeg) (p : ℕ) : RangeManager :=
  rm.withVals (markedBelow seg p)

/-- The map when the segment is recorded. -/
def marked (rm : RangeManager) (seg : DataSeg) : RangeManager :=
  rm.withVals (markChunk seg seg.seq seg.endSeq)

variable {level key : ℕ} {r : ByteRange}

theorem markedTo_start (rm : RangeManager) (seg : DataSeg) : rm.markedTo seg seg.seq = rm := by
  refine withVals_id fun en _ => ?_
  unfold markedBelow
  split
  · next hle =>
    apply markChunk_of_not
    unfold SharesBytes
    omega
  · rfl

/-- The range at `p` was not changed yet. -/
theorem find?_markedTo (hcut : CutAt rm p p r) :
    (rm.markedTo seg p).ranges.find? p = some r := by
  have hfind := OrdMap.find?_eq_some_iff.mpr hcut.mem
  have hlt := hcut.holds.2
  show (rm.ranges.mapVals _).find? p = some r
  rw [OrdMap.find?_mapVals, hfind]
  show some (markedBelow seg p r) = some r
  unfold markedBelow
  rw [if_neg hlt.not_ge]

theorem CutAt.others_of_ne (hcut : CutAt rm p key r) (h : DataMap a rm) {en : Entry}
    (hen : en ∈ rm.ranges.entries) (hne : en ≠ (key, r)) :
    (en.2.endSeq ≤ p ∧ en.2.endSeq ≤ r.endSeq) ∨
      (p < en.2.endSeq ∧ r.endSeq < en.2.endSeq ∧ r.endSeq ≤ en.2.startSeq) := by
  have hholds := hcut.holds
  have hbytes := h.bytes en hen
  rcases hcut.others en hen hne with hle | hle
  · omega
  · omega

/-- A segment that starts where a range starts, or comes from the range before, and reaches past
the range. -/
theorem insertBody_sojourn_span (h : DataMap a rm) (hrec : rm.Records seg) (hcut : CutAt rm p p r)
    (hp : seg.seq ≤ p) (hout : r.endSeq < seg.endSeq) (hend : seg.endSeq ≤ rm.lastSeq) :
    (rm.markedTo seg p).insertBody p seg.endSeq .sojourn seg level =
      if recursionLevel < level then .error (.recurseLevel p seg.endSeq .sojourn)
      else .ok (.again (rm.markedTo seg r.endSeq) r.endSeq) := by
  have hholds := hcut.holds
  have hstart := hcut.key_eq
  obtain ⟨hindex, hsent, htime⟩ := hrec _ hcut.mem
  have hover : SharesBytes seg.seq seg.endSeq r := by
    unfold SharesBytes
    omega
  have hcross : ¬Crosses seg.seq seg.endSeq r := by
    unfold Crosses
    omega
  have hadd := addSegmentEnteredKernelTime_eq hindex hsent (htime hover) hover hcross
  rw [min_eq_left hout.le] at hadd
  -- there is a range behind this one
  have hnext : ¬((rm.markedTo seg p).ranges.next? p).isNone = true := by
    rw [isNone_next?_iff]
    obtain ⟨en, hen, hhold⟩ := (h.cover r.endSeq).mpr
      ⟨((h.cover p).mp ⟨_, hcut.mem, hholds⟩).1.trans hholds.2.le, by omega⟩
    intro hall
    have hne : en ≠ (p, r) := by
      rintro rfl
      exact lt_irrefl _ hhold.2
    have hkey := (h.apart.1 en hen).1
    rcases hcut.others_of_ne h hen hne with hle | hle
    · have := hhold.2
      omega
    · exact hall _ (List.mem_map_of_mem hen) (show p < en.1 by omega)
  have hself : markedBelow seg r.endSeq r = markChunk seg seg.seq seg.endSeq r := if_pos le_rfl
  -- `r` is the only range between `p` and its end
  have hmod := withVals_modify (f := markedBelow seg p) (g := markedBelow seg r.endSeq) hcut.mem
    fun en hen hne => by
      unfold markedBelow
      rcases hcut.others_of_ne h hen hne with ⟨hle, hle'⟩ | ⟨hgt, hgt', -⟩
      · rw [if_pos hle, if_pos hle']
      · rw [if_neg hgt.not_ge, if_neg hgt'.not_ge]
  rw [hself] at hmod
  unfold insertBody
  rw [if_neg (by omega), find?_markedTo hcut]
  dsimp only
  rw [insertFound_span_sojourn hout, hadd, Run.ok_bind, if_neg hnext]
  unfold markedTo
  rw [hmod]

/-- A segment that ends in a range where it starts, or came to. -/
theorem insertBody_sojourn_within (h : DataMap a rm) (hrec : rm.Records seg)
    (hcut : CutAt rm p p r) (hp : seg.seq ≤ p) (hlt : p < seg.endSeq)
    (hin : seg.endSeq ≤ r.endSeq) :
    (rm.markedTo seg p).insertBody p seg.endSeq .sojourn seg level =
      .ok (.done (rm.marked seg) true) := by
  have hholds := hcut.holds
  have hstart := hcut.key_eq
  obtain ⟨hindex, hsent, htime⟩ := hrec _ hcut.mem
  have hover : SharesBytes seg.seq seg.endSeq r := by
    unfold SharesBytes
    omega
  have hcross : ¬Crosses seg.seq seg.endSeq r := by
    unfold Crosses
    omega
  have hadd := addSegmentEnteredKernelTime_eq hindex hsent (htime hover) hover hcross
  rw [min_eq_right hin] at hadd
  -- the ranges below `p` are marked already, and the segment reaches none behind `r`
  have hmod := withVals_modify (f := markedBelow seg p)
    (g := markChunk seg seg.seq seg.endSeq) hcut.mem fun en hen hne => by
      unfold markedBelow
      rcases hcut.others_of_ne h hen hne with ⟨hle, -⟩ | ⟨hgt, -, hge⟩
      · rw [if_pos hle]
      · rw [if_neg hgt.not_ge]
        symm
        apply markChunk_of_not
        unfold SharesBytes
        omega
  unfold insertBody
  rw [if_neg hlt.ne, find?_markedTo hcut]
  dsimp only
  unfold insertFound
  rw [if_neg (fun h => nomatch h.2.1), if_neg hin.not_gt]
  unfold insertWithin
  dsimp only
  rw [hadd, Run.ok_bind]
  unfold markedTo marked
  rw [hmod]
  rfl

/-- A segment that starts inside a range: the chunk up to the end of the range is not recorded when
the segment reaches past it. -/
theorem insertBody_sojourn_inside (h : DataMap a rm) (hrec : rm.Records seg)
    (hcut : CutAt rm seg.seq key r) (hlo : r.startSeq < seg.seq) (hlt : seg.seq < seg.endSeq)
    (hend : seg.endSeq ≤ rm.lastSeq) :
    rm.insertBody seg.seq seg.endSeq .sojourn seg level =
      if r.endSeq < seg.endSeq then .ok (.again (rm.markedTo seg r.endSeq) r.endSeq)
      else .ok (.done (rm.marked seg) true) := by
  have hholds := hcut.holds
  obtain ⟨hindex, hsent, htime⟩ := hrec _ hcut.mem
  have hover : SharesBytes seg.seq seg.endSeq r := by
    unfold SharesBytes
    omega
  -- a range that starts at `seg.seq` would overlap `r`
  have hfree : rm.ranges.find? seg.seq = none := by
    rw [OrdMap.find?_eq_none_iff]
    intro en hen hkey
    have hkey' := (h.apart.1 en hen).1
    have hbytes := h.bytes en hen
    obtain rfl : en = (key, r) := eq_of_holds h.apart.2 hen hcut.mem
      (b := seg.seq) ⟨by omega, by omega⟩ hholds
    dsimp only at hkey'
    omega
  have hfind := find?_searchWindow_of_holds h.apart.1 h.apart.2 hfree hlt hcut.mem hholds
  have hbody : rm.insertBody seg.seq seg.endSeq .sojourn seg level =
      rm.sojournInside seg.seq seg.endSeq seg key r := by
    unfold insertBody
    rw [if_neg hlt.ne, hfree]
    dsimp only
    unfold insertNotFound
    rw [if_pos (hlt.trans_le hend)]
    cases hw : rm.searchWindow seg.seq seg.endSeq with
    | nil =>
      rw [hw] at hfind
      cases hfind
    | cons w ws =>
      rw [hw] at hfind
      dsimp only
      rw [hfind]
      exact if_pos rfl
  rw [hbody]
  unfold sojournInside
  dsimp only
  rw [if_neg (fun h => hlo.ne' h.1), if_neg hlo.ne']
  by_cases hout : r.endSeq < seg.endSeq
  · -- only this range reaches over `seg.seq`, and it is left as it is
    have hsame : rm.markedTo seg r.endSeq = rm := by
      refine withVals_id fun en hen => ?_
      unfold markedBelow
      split
      · next hle =>
        by_cases hne : en = (key, r)
        · rw [hne]
          exact markChunk_of_crosses ⟨hlo, hholds.2, hout⟩
        · apply markChunk_of_not
          unfold SharesBytes
          rcases hcut.others_of_ne h hen hne with hother | hother
          · omega
          · omega
      · rfl
    rw [if_neg hout.ne', if_neg hout.not_gt, if_pos hout, hsame]
    rfl
  · -- the segment ends in the range, and both branches for that record it
    have hcross : ¬Crosses seg.seq seg.endSeq r := fun h => hout h.2.2
    have hadd := addSegmentEnteredKernelTime_eq hindex hsent (htime hover) hover hcross
    rw [min_eq_right (not_lt.mp hout)] at hadd
    have hid : rm.withVals (fun r => r) = rm := withVals_id fun _ _ => rfl
    have hmod := withVals_modify (f := fun r => r)
      (g := markChunk seg seg.seq seg.endSeq) hcut.mem fun en hen hne => by
        symm
        apply markChunk_of_not
        unfold SharesBytes
        rcases hcut.others_of_ne h hen hne with hother | hother
        · omega
        · omega
    rw [hid] at hmod
    rw [if_neg hout, hadd]
    unfold marked
    rw [← hmod]
    split
    · rfl
    · rw [if_pos (by omega)]
      rfl

/-- All calls for one segment: it is recorded as long as the recursion is not too deep. -/
theorem insertLoop_sojourn (h : DataMap a rm) (hrec : rm.Records seg) (ha : a ≤ seg.seq)
    (hend : seg.endSeq ≤ rm.lastSeq) {fuel : ℕ} (hp : seg.seq ≤ p) (hlt : p < seg.endSeq)
    (hstart : (p = seg.seq ∧ level = 0) ∨ ∃ en ∈ rm.ranges.entries, en.1 = p)
    (hfuel : seg.endSeq - p < fuel) (hlevel : level ≤ recursionLevel + 1) :
    if level + overlaps rm.ranges.entries p seg.endSeq ≤ recursionLevel + 2 then
      insertLoop seg.endSeq .sojourn seg fuel (rm.markedTo seg p) p level =
        .ok (rm.marked seg, true)
    else ∃ err, insertLoop seg.endSeq .sojourn seg fuel (rm.markedTo seg p) p level =
        .error err := by
  -- each call moves `p` to the end of a range, marks what is below and overlaps one range less
  induction fuel generalizing p level with
  | zero => omega
  | succ fuel ih =>
    obtain ⟨key, r, hcut⟩ := h.exists_cutAt (ha.trans hp) (by omega : p < rm.lastSeq)
    have hholds := hcut.holds
    have hcount := h.overlaps_eq hcut hlt
    -- what is left behind the range
    have hrest : r.endSeq < seg.endSeq → 1 ≤ overlaps rm.ranges.entries r.endSeq seg.endSeq ∧
        ∃ en ∈ rm.ranges.entries, en.1 = r.endSeq := by
      intro hout
      obtain ⟨key', r', hcut'⟩ := h.exists_cutAt (show a ≤ r.endSeq by omega)
        (show r.endSeq < rm.lastSeq by omega)
      have hcount' := h.overlaps_eq hcut' hout
      refine ⟨by omega, (key', r'), hcut'.mem, ?_⟩
      have hholds' := hcut'.holds
      have hkey' := hcut'.key_eq
      have hne : (key', r') ≠ (key, r) := by
        intro heq
        obtain ⟨-, rfl⟩ := Prod.mk.inj heq
        omega
      rcases hcut.others _ hcut'.mem hne with hle | hle
      · dsimp only at hle
        omega
      · dsimp only at hle ⊢
        omega
    rw [insertLoop]
    by_cases hkey : key = p
    · subst hkey
      by_cases hout : r.endSeq < seg.endSeq
      · obtain ⟨hone, hmem⟩ := hrest hout
        rw [if_pos hout] at hcount
        rw [insertBody_sojourn_span h hrec hcut hp hout hend]
        by_cases hdeep : recursionLevel < level
        · rw [if_pos hdeep, if_neg (by omega)]
          exact ⟨_, rfl⟩
        · rw [if_neg hdeep]
          have hnext := @ih r.endSeq (level + 1) (by omega) hout (.inr hmem)
            (by omega) (by omega)
          -- the levels and the ranges ahead have the same sum as before
          have hsame : level + 1 + overlaps rm.ranges.entries r.endSeq seg.endSeq =
              level + overlaps rm.ranges.entries key seg.endSeq := by omega
          rw [hsame] at hnext
          exact hnext
      · rw [if_neg hout] at hcount
        rw [insertBody_sojourn_within h hrec hcut hp hlt (not_lt.mp hout), if_pos (by omega)]
    · -- the first call, inside a range
      have hlo : r.startSeq < p := by
        have hkey' := hcut.key_eq
        omega
      obtain ⟨rfl, rfl⟩ : p = seg.seq ∧ level = 0 := by
        refine hstart.resolve_right ?_
        rintro ⟨en, hen, rfl⟩
        have hkey' := (h.apart.1 en hen).1
        have hbytes := h.bytes en hen
        obtain rfl : en = (key, r) := eq_of_holds h.apart.2 hen hcut.mem
          (b := en.1) ⟨by omega, by omega⟩ hholds
        exact hkey rfl
      rw [markedTo_start, insertBody_sojourn_inside h hrec hcut hlo hlt hend]
      by_cases hout : r.endSeq < seg.endSeq
      · obtain ⟨hone, hmem⟩ := hrest hout
        rw [if_pos hout] at hcount
        rw [if_pos hout]
        have hnext := @ih r.endSeq 1 (by omega) hout (.inr hmem) (by omega)
          (by omega)
        have hsame : 1 + overlaps rm.ranges.entries r.endSeq seg.endSeq =
            0 + overlaps rm.ranges.entries seg.seq seg.endSeq := by omega
        rw [hsame] at hnext
        exact hnext
      · rw [if_neg hout] at hcount
        rw [if_neg hout, if_pos (by omega)]

/-! ## Sequences of segments -/

/-- A sojourn segment, as `calculateSojournTime` inserts it. -/
def insertSojourn (rm : RangeManager) (seg : DataSeg) : Except Abort RangeManager :=
  observe rm (.sojourn seg)

theorem insertSojourn_eq (h : DataMap a rm) (hrec : rm.Records seg) (ha : a ≤ seg.seq)
    (hlt : seg.seq < seg.endSeq) (hend : seg.endSeq ≤ rm.lastSeq) :
    if overlaps rm.ranges.entries seg.seq seg.endSeq ≤ recursionLevel + 2 then
      rm.insertSojourn seg = .ok (rm.marked seg)
    else ∃ err, rm.insertSojourn seg = .error err := by
  have hloop := insertLoop_sojourn h hrec ha hend (p := seg.seq) le_rfl hlt (.inl ⟨rfl, rfl⟩)
    (show seg.endSeq - seg.seq < seg.endSeq - seg.seq + recursionLevel + 2 by omega)
    (Nat.zero_le _)
  rw [Nat.zero_add, markedTo_start] at hloop
  unfold insertSojourn observe insertByteRange
  dsimp only
  split
  · next hle =>
    rw [if_pos hle] at hloop
    rw [hloop]
    rfl
  · next hgt =>
    rw [if_neg hgt] at hloop
    obtain ⟨err, herr⟩ := hloop
    rw [herr]
    exact ⟨err, rfl⟩

theorem mem_marked {en : Entry} : en ∈ (rm.marked seg).ranges.entries ↔
    ∃ o ∈ rm.ranges.entries, (o.1, markChunk seg seg.seq seg.endSeq o.2) = en := List.mem_map

theorem forall_mem_marked {P : Entry → Prop} : (∀ en ∈ (rm.marked seg).ranges.entries, P en) ↔
    ∀ o ∈ rm.ranges.entries, P (o.1, markChunk seg seg.seq seg.endSeq o.2) :=
  List.forall_mem_map

theorem covered_marked {x : ℕ} :
    Covered (rm.marked seg).ranges.entries x ↔ Covered rm.ranges.entries x := by
  unfold Covered ByteRange.Holds
  constructor
  · rintro ⟨en, hen, hholds⟩
    obtain ⟨o, ho, rfl⟩ := mem_marked.mp hen
    rw [markChunk_startSeq, markChunk_endSeq] at hholds
    exact ⟨o, ho, hholds⟩
  · rintro ⟨o, ho, hholds⟩
    refine ⟨_, mem_marked.mpr ⟨o, ho, rfl⟩, ?_⟩
    rw [markChunk_startSeq, markChunk_endSeq]
    exact hholds

theorem DataMap.marked (h : DataMap a rm) (seg : DataSeg) : DataMap a (rm.marked seg) := by
  refine ⟨⟨?_, ?_⟩, ?_, fun x => covered_marked.trans (h.cover x)⟩
  · refine forall_mem_marked.mpr fun o ho => ?_
    obtain ⟨hkey, hwf⟩ := h.apart.1 o ho
    exact ⟨hkey.trans markChunk_startSeq.symm,
      hwf.congr markChunk_startSeq markChunk_endSeq markChunk_byteCount⟩
  · refine List.pairwise_map.mpr (h.apart.2.imp fun {x y} hxy => ?_)
    show (markChunk seg _ _ x.2).endSeq ≤ (markChunk seg _ _ y.2).startSeq
    rw [markChunk_endSeq, markChunk_startSeq]
    exact hxy
  · refine forall_mem_marked.mpr fun o ho => ?_
    rw [markChunk_startSeq, markChunk_endSeq]
    exact h.bytes o ho

/-- Times and bounds stay as they are. -/
theorem Records.marked {seg' : DataSeg} (h : rm.Records seg') (seg : DataSeg) :
    (rm.marked seg).Records seg' := by
  refine forall_mem_marked.mpr fun o ho => ?_
  obtain ⟨hindex, hsent, htime⟩ := h o ho
  have hindex' : (markChunk seg seg.seq seg.endSeq o.2).sentDataPktPcapIndex = 0 :=
    (markChunk_blind (f := ByteRange.sentDataPktPcapIndex) fun _ _ => rfl).trans hindex
  refine ⟨hindex', ?_, fun hover => ?_⟩
  · rw [markChunk_sentTstampPcap]
    exact hsent
  · unfold SharesBytes at hover
    rw [markChunk_startSeq, markChunk_endSeq] at hover
    rw [markChunk_sentTstampPcap]
    exact htime hover

/-- The segment crosses the end of no range from inside it, and overlaps no more ranges than the
recursion handles. -/
structure FitsRanges (l : List Entry) (seg : DataSeg) : Prop where
  ends : ∀ en ∈ l, ¬Crosses seg.seq seg.endSeq en.2
  few : overlaps l seg.seq seg.endSeq ≤ recursionLevel + 2

instance (l : List Entry) (seg : DataSeg) : Decidable (FitsRanges l seg) :=
  decidable_of_iff ((∀ en ∈ l, ¬Crosses seg.seq seg.endSeq en.2) ∧
    overlaps l seg.seq seg.endSeq ≤ recursionLevel + 2)
    ⟨fun h => ⟨h.1, h.2⟩, fun h => ⟨h.ends, h.few⟩⟩

theorem fitsRanges_marked {seg' : DataSeg} :
    FitsRanges (rm.marked seg).ranges.entries seg' ↔ FitsRanges rm.ranges.entries seg' := by
  have hover : overlaps (rm.marked seg).ranges.entries seg'.seq seg'.endSeq =
      overlaps rm.ranges.entries seg'.seq seg'.endSeq := by
    unfold overlaps
    show (rm.ranges.entries.map _).countP _ = _
    rw [List.countP_map]
    refine List.countP_congr fun o _ => ?_
    show decide (max (markChunk seg _ _ o.2).startSeq _ < min (markChunk seg _ _ o.2).endSeq _) =
      true ↔ _
    rw [markChunk_startSeq, markChunk_endSeq]
  have hends : (∀ en ∈ (rm.marked seg).ranges.entries, ¬Crosses seg'.seq seg'.endSeq en.2) ↔
      ∀ en ∈ rm.ranges.entries, ¬Crosses seg'.seq seg'.endSeq en.2 := by
    rw [forall_mem_marked]
    refine forall₂_congr fun o _ => ?_
    unfold Crosses
    rw [markChunk_startSeq, markChunk_endSeq]
  constructor
  · rintro ⟨h, h'⟩
    exact ⟨hends.mp h, hover ▸ h'⟩
  · rintro ⟨h, h'⟩
    exact ⟨hends.mpr h, hover.symm ▸ h'⟩

theorem firstSend_markChunk {s e : ℕ} :
    (markChunk seg s e r).firstSend = r.firstSend := by
  unfold ByteRange.firstSend
  rw [markChunk_sentTstampPcap]

end Insert

end RangeManager

namespace ByteRange

theorem MarkedUpTo.markChunk {c s e : ℕ} {r : ByteRange} {seg : DataSeg} (h : MarkedUpTo c r)
    (hover : RangeManager.SharesBytes s e r) (hcross : ¬RangeManager.Crosses s e r)
    (hlt : c < min r.endSeq e) :
    MarkedUpTo (min r.endSeq e) (RangeManager.markChunk seg s e r) := by
  unfold RangeManager.markChunk
  rw [if_pos ⟨hover, hcross⟩]
  refine ⟨h.sent, h.index, iff_of_true rfl (by simp), ?_⟩
  dsimp only
  rw [List.map_append]
  exact h.ends.append hlt

end ByteRange

namespace RangeManager

/-- The segments cover the bytes from `a` up to `b`, one after the other. -/
def Adjacent : ℕ → ℕ → List DataSeg → Prop
  | a, b, [] => a = b
  | a, b, seg :: segs => seg.seq = a ∧ a < seg.endSeq ∧ Adjacent seg.endSeq b segs

instance decidableAdjacent :
    (a b : ℕ) → (segs : List DataSeg) → Decidable (Adjacent a b segs)
  | a, b, [] => inferInstanceAs (Decidable (a = b))
  | _, b, seg :: segs =>
      have := decidableAdjacent seg.endSeq b segs
      inferInstanceAs (Decidable (_ ∧ _ ∧ Adjacent seg.endSeq b segs))

theorem Adjacent.le {a b : ℕ} {segs : List DataSeg} (h : Adjacent a b segs) : a ≤ b := by
  induction segs generalizing a with
  | nil => exact Nat.le_of_eq h
  | cons seg segs ih => exact h.2.1.le.trans (ih h.2.2)

section Run

variable {a p : ℕ} {rm rm' : RangeManager} {segs : List DataSeg}

/-- A range that the segments have passed keeps the chunks it has. -/
theorem run_insertSojourn_lost (h : DataMap a rm) (hrec : ∀ seg ∈ segs, rm.Records seg)
    (ha : a ≤ p) (hadj : Adjacent p rm.lastSeq segs) {en : Entry} (hen : en ∈ rm.ranges.entries)
    {c : ℕ} (hmarked : en.2.MarkedUpTo c) (hlt : c < en.2.endSeq) (hpassed : en.2.endSeq ≤ p)
    (hrun : Run.run insertSojourn rm segs = .ok rm') :
    ∃ en ∈ rm'.ranges.entries, ¬en.2.Chunked := by
  induction segs generalizing rm p with
  | nil =>
    obtain rfl := Except.ok.inj hrun
    refine ⟨en, hen, fun hchunked => ?_⟩
    have hiff := hmarked.chunked_iff (h.apart.1 en hen).2 (h.bytes en hen) hlt.le
    exact hlt.ne (hiff.mp hchunked).1
  | cons seg segs ih =>
    obtain ⟨hseq, hne, hrest⟩ := hadj
    obtain ⟨rm₁, hstep, hrun⟩ := Run.exists_of_run_cons hrun
    obtain ⟨hfirst, hlater⟩ := List.forall_mem_cons.mp hrec
    have heq := insertSojourn_eq h hfirst (by omega) (by omega) hrest.le
    split at heq
    · obtain rfl := Except.ok.inj (heq.symm.trans hstep)
      have hout : markChunk seg seg.seq seg.endSeq en.2 = en.2 := by
        apply markChunk_of_not
        unfold SharesBytes
        omega
      refine ih (h.marked seg) (fun seg' hseg => (hlater seg' hseg).marked seg) (by omega) hrest
        (mem_marked.mpr ⟨en, hen, by rw [hout]⟩) (by omega) hrun
    · obtain ⟨err, herr⟩ := heq
      rw [herr] at hstep
      cases hstep

/-- The end of the chunks that the segments below `p` leave on a range, when all are recorded. -/
def chunksEnd (p : ℕ) (r : ByteRange) : ℕ := max r.startSeq (min r.endSeq p)

/-- What a segment that crosses no range leaves. -/
theorem markedUpTo_markChunk {r : ByteRange} {seg : DataSeg} (hbytes : r.startSeq < r.endSeq)
    (hlt : seg.seq < seg.endSeq) (hcross : ¬Crosses seg.seq seg.endSeq r)
    (h : r.MarkedUpTo (chunksEnd seg.seq r)) :
    (markChunk seg seg.seq seg.endSeq r).MarkedUpTo (chunksEnd seg.endSeq r) := by
  unfold chunksEnd at *
  by_cases hover : SharesBytes seg.seq seg.endSeq r
  · unfold SharesBytes at hover
    unfold Crosses at hcross
    have hend : max r.startSeq (min r.endSeq seg.endSeq) = min r.endSeq seg.endSeq := by omega
    rw [hend]
    exact h.markChunk hover hcross (by omega)
  · rw [markChunk_of_not hover]
    unfold SharesBytes at hover
    have hend : max r.startSeq (min r.endSeq seg.endSeq) =
        max r.startSeq (min r.endSeq seg.seq) := by omega
    rwa [hend]

theorem run_insertSojourn_iff (h : DataMap a rm) (hrec : ∀ seg ∈ segs, rm.Records seg)
    (ha : a ≤ p) (hadj : Adjacent p rm.lastSeq segs)
    (hmarked : ∀ en ∈ rm.ranges.entries, en.2.MarkedUpTo (chunksEnd p en.2)) :
    (∃ rm', Run.run insertSojourn rm segs = .ok rm' ∧
        ∀ en ∈ rm'.ranges.entries, en.2.Chunked) ↔
      (∀ seg ∈ segs, FitsRanges rm.ranges.entries seg) ∧
        ∀ en ∈ rm.ranges.entries, en.2.firstSend ≠ Timeval.zero := by
  induction segs generalizing rm p with
  | nil =>
    obtain rfl : p = rm.lastSeq := hadj
    have hchunked : ∀ en ∈ rm.ranges.entries,
        (en.2.Chunked ↔ en.2.firstSend ≠ Timeval.zero) := by
      intro en hen
      have hbytes := h.bytes en hen
      have hle : en.2.endSeq ≤ rm.lastSeq := by
        have := ((h.cover (en.2.endSeq - 1)).mp ⟨en, hen, by omega, by omega⟩).2
        omega
      have hend : chunksEnd rm.lastSeq en.2 = en.2.endSeq := by
        unfold chunksEnd
        omega
      have hiff := (hmarked en hen).chunked_iff (h.apart.1 en hen).2 hbytes hend.le
      rw [hiff, and_iff_right hend]
    constructor
    · rintro ⟨rm', hrun, hall⟩
      obtain rfl := Except.ok.inj hrun
      exact ⟨fun seg hseg => absurd hseg List.not_mem_nil,
        fun en hen => (hchunked en hen).mp (hall en hen)⟩
    · rintro ⟨-, hall⟩
      exact ⟨rm, rfl, fun en hen => (hchunked en hen).mpr (hall en hen)⟩
  | cons seg segs ih =>
    obtain ⟨rfl, hlt, hrest⟩ := hadj
    obtain ⟨hfirst, hlater⟩ := List.forall_mem_cons.mp hrec
    have heq := insertSojourn_eq h hfirst ha hlt hrest.le
    by_cases hfew : overlaps rm.ranges.entries seg.seq seg.endSeq ≤ recursionLevel + 2
    swap
    · -- the recursion is too deep
      rw [if_neg hfew] at heq
      obtain ⟨err, herr⟩ := heq
      refine iff_of_false ?_ fun hfits => hfew (hfits.1 seg List.mem_cons_self).few
      rintro ⟨rm', hrun, -⟩
      obtain ⟨rm₁, hstep, -⟩ := Run.exists_of_run_cons hrun
      rw [herr] at hstep
      cases hstep
    rw [if_pos hfew] at heq
    have hrec' : ∀ seg' ∈ segs, (rm.marked seg).Records seg' :=
      fun seg' hseg => (hlater seg' hseg).marked seg
    rw [Run.run_cons_ok heq]
    by_cases hends : ∀ en ∈ rm.ranges.entries, ¬Crosses seg.seq seg.endSeq en.2
    · have hmarked' : ∀ en ∈ (rm.marked seg).ranges.entries,
          en.2.MarkedUpTo (chunksEnd seg.endSeq en.2) := by
        refine forall_mem_marked.mpr fun o ho => ?_
        have := markedUpTo_markChunk (h.bytes o ho) hlt (hends o ho) (hmarked o ho)
        unfold chunksEnd at this ⊢
        rwa [markChunk_startSeq, markChunk_endSeq]
      rw [ih (h.marked seg) hrec' (by omega) hrest hmarked', List.forall_mem_cons]
      have hsends : (∀ en ∈ (rm.marked seg).ranges.entries, en.2.firstSend ≠ Timeval.zero) ↔
          ∀ en ∈ rm.ranges.entries, en.2.firstSend ≠ Timeval.zero := by
        rw [forall_mem_marked]
        refine forall₂_congr fun o _ => ?_
        rw [firstSend_markChunk]
      have hself : FitsRanges rm.ranges.entries seg := ⟨hends, hfew⟩
      rw [hsends, and_iff_right hself]
      refine and_congr_left' (forall₂_congr fun seg' _ => fitsRanges_marked)
    · -- the crossed range has lost the chunk up to its end
      refine iff_of_false ?_ fun hfits => hends (hfits.1 seg List.mem_cons_self).ends
      rintro ⟨rm', hrun, hall⟩
      push Not at hends
      obtain ⟨o, ho, hcross⟩ := hends
      have hstart := hcross.1
      have hin := hcross.2.1
      have hout := hcross.2.2
      have hmem : (o.1, o.2) ∈ (rm.marked seg).ranges.entries :=
        mem_marked.mpr ⟨o, ho, by rw [markChunk_of_crosses hcross]⟩
      have hend : chunksEnd seg.seq o.2 = seg.seq := by
        unfold chunksEnd
        omega
      have hup := hmarked o ho
      rw [hend] at hup
      obtain ⟨en, hen, hnot⟩ := run_insertSojourn_lost (h.marked seg) hrec' (by omega) hrest hmem
        hup hin hout.le hrun
      exact hnot (hall en hen)

/-- A data range that was sent once, as a packet, and has no sojourn time yet. -/
structure SentOnce (r : ByteRange) : Prop where
  sent : ∃ t, r.sentTstampPcap = [(t, .pkt)]
  index : r.sentDataPktPcapIndex = 0
  flag : r.sojournTime = false
  stamps : r.sojournTstamps = []

instance (r : ByteRange) : Decidable (SentOnce r) :=
  decidable_of_iff (r.sentTstampPcap.map Prod.snd = [.pkt] ∧ r.sentDataPktPcapIndex = 0 ∧
      r.sojournTime = false ∧ r.sojournTstamps = []) <| by
    constructor
    · rintro ⟨hsent, hindex, hflag, hstamps⟩
      obtain ⟨⟨t, s⟩, ht, hs⟩ := List.map_eq_singleton_iff.mp hsent
      exact ⟨⟨t, by rw [ht, ← hs]⟩, hindex, hflag, hstamps⟩
    · rintro ⟨⟨t, ht⟩, hindex, hflag, hstamps⟩
      exact ⟨by rw [ht]; rfl, hindex, hflag, hstamps⟩

/-- The segment entered the kernel before the ranges it overlaps were sent. -/
def EnteredBefore (l : List Entry) (seg : DataSeg) : Prop :=
  ∀ en ∈ l, SharesBytes seg.seq seg.endSeq en.2 →
    ∀ p ∈ en.2.sentTstampPcap, seg.tstampPcap.getUsecs ≤ p.1.getUsecs

instance (l : List Entry) (seg : DataSeg) : Decidable (EnteredBefore l seg) :=
  inferInstanceAs (Decidable (∀ en ∈ l, _ → _))

/-- The chunks cover every range exactly when no segment crosses the end of a range from inside it,
none overlaps more ranges than the recursion handles, and every range has a send time. -/
theorem insertSojourn_run_chunked_iff (hmap : DataMap a rm)
    (hsent : ∀ en ∈ rm.ranges.entries, SentOnce en.2) (hadj : Adjacent a rm.lastSeq segs)
    (htimes : ∀ seg ∈ segs, EnteredBefore rm.ranges.entries seg) :
    (∃ rm', Run.run insertSojourn rm segs = .ok rm' ∧
        ∀ en ∈ rm'.ranges.entries, en.2.Chunked) ↔
      (∀ seg ∈ segs, FitsRanges rm.ranges.entries seg) ∧
        ∀ en ∈ rm.ranges.entries, en.2.firstSend ≠ Timeval.zero := by
  refine run_insertSojourn_iff hmap (fun seg hseg en hen => ?_) le_rfl hadj fun en hen => ?_
  · have h := hsent en hen
    exact ⟨h.index, h.sent, htimes seg hseg en hen⟩
  · obtain ⟨hs, hindex, hflag, hstamps⟩ := hsent en hen
    have hbytes := hmap.bytes en hen
    have hstart := ((hmap.cover en.2.startSeq).mp ⟨en, hen, le_rfl, hbytes⟩).1
    have hend : chunksEnd a en.2 = en.2.startSeq := by
      unfold chunksEnd
      omega
    rw [hend]
    refine ⟨hs, hindex, ?_, ?_⟩
    · rw [hflag, hstamps]
      exact iff_of_false Bool.false_ne_true (not_not_intro rfl)
    · rw [hstamps]
      rfl

theorem covered_iff_bounds {l : List Entry} {x : ℕ} :
    Covered l x ↔ ∃ b ∈ l.map fun en => (en.2.startSeq, en.2.endSeq), b.1 ≤ x ∧ x < b.2 := by
  unfold Covered ByteRange.Holds
  simp only [List.mem_map, exists_exists_and_eq_and]

/-- Ten bytes from 0 and from 10. -/
theorem dataMap_tens (hapart : rm.Apart) (hlast : rm.lastSeq = 20)
    (hbounds : rm.ranges.entries.map (fun en => (en.2.startSeq, en.2.endSeq)) =
      [(0, 10), (10, 20)]) : DataMap 0 rm := by
  refine ⟨hapart, fun en hen => ?_, fun x => ?_⟩
  · have hmem := List.mem_map_of_mem (f := fun en : Entry => (en.2.startSeq, en.2.endSeq)) hen
    simp only [hbounds, List.mem_cons, Prod.mk.injEq, List.not_mem_nil, or_false] at hmem
    omega
  · rw [covered_iff_bounds, hbounds, hlast]
    simp only [List.mem_cons, List.not_mem_nil, or_false, exists_eq_or_imp, exists_eq_left]
    omega

/-- Segments with these bounds, of the time zero. -/
def sojournSegs (bounds : List (ℕ × ℕ)) : List DataSeg :=
  bounds.map fun (seq, endSeq) => { seq, endSeq, payloadSize := endSeq - seq }

/-- Two packets of ten bytes, and segments that divide the first one at 4. -/
theorem insertSojourn_run_chunked_iff_divided :
    ∃ rm, Run.run insertSentRange (new 0) (tensAt [0, 3]) = .ok rm ∧
      ((∃ rm', Run.run insertSojourn rm (sojournSegs [(0, 4), (4, 10), (10, 20)]) = .ok rm' ∧
          ∀ en ∈ rm'.ranges.entries, en.2.Chunked) ↔
        (∀ seg ∈ sojournSegs [(0, 4), (4, 10), (10, 20)], FitsRanges rm.ranges.entries seg) ∧
          ∀ en ∈ rm.ranges.entries, en.2.firstSend ≠ Timeval.zero) := by
  have hrun : ∃ rm, Run.run insertSentRange (new 0) (tensAt [0, 3]) = .ok rm ∧
      decide ((rm.Apart ∧ rm.lastSeq = 20 ∧
        rm.ranges.entries.map (fun en => (en.2.startSeq, en.2.endSeq)) = [(0, 10), (10, 20)]) ∧
        (∀ en ∈ rm.ranges.entries, SentOnce en.2) ∧
        Adjacent 0 rm.lastSeq (sojournSegs [(0, 4), (4, 10), (10, 20)]) ∧
        ∀ seg ∈ sojournSegs [(0, 4), (4, 10), (10, 20)],
          EnteredBefore rm.ranges.entries seg) = true :=
    Run.exists_of_any_toOption (by decide +kernel)
  obtain ⟨rm, hrm, hok⟩ := hrun
  obtain ⟨⟨hapart, hlast, hbounds⟩, hsent, hadj, htimes⟩ := of_decide_eq_true hok
  exact ⟨rm, hrm,
    insertSojourn_run_chunked_iff (dataMap_tens hapart hlast hbounds) hsent hadj htimes⟩

/-- Two packets of ten bytes, and a segment from 5 to 20: the bytes from 5 to 10 are in no chunk. -/
theorem insertSojourn_loses_chunk :
    ∃ rm, Run.run insertSentRange (new 0) (tensAt [0, 3]) = .ok rm ∧
      (DataMap 0 rm ∧ (∀ en ∈ rm.ranges.entries, SentOnce en.2) ∧
        Adjacent 0 rm.lastSeq (sojournSegs [(0, 5), (5, 20)]) ∧
        ∀ seg ∈ sojournSegs [(0, 5), (5, 20)], EnteredBefore rm.ranges.entries seg) ∧
      ∃ rm', Run.run insertSojourn rm (sojournSegs [(0, 5), (5, 20)]) = .ok rm' ∧
        rm'.ranges.entries.map (fun en => (en.2.getSojournTimes.map Prod.fst, en.2.byteCount)) =
          [([5], 10), ([10], 10)] := by
  have hrun : ∃ rm, Run.run insertSentRange (new 0) (tensAt [0, 3]) = .ok rm ∧
      (decide ((rm.Apart ∧ rm.lastSeq = 20 ∧
        rm.ranges.entries.map (fun en => (en.2.startSeq, en.2.endSeq)) = [(0, 10), (10, 20)]) ∧
        (∀ en ∈ rm.ranges.entries, SentOnce en.2) ∧
        Adjacent 0 rm.lastSeq (sojournSegs [(0, 5), (5, 20)]) ∧
        ∀ seg ∈ sojournSegs [(0, 5), (5, 20)], EnteredBefore rm.ranges.entries seg) &&
      (Run.run insertSojourn rm (sojournSegs [(0, 5), (5, 20)])).toOption.any fun rm' =>
        decide (rm'.ranges.entries.map (fun en =>
          (en.2.getSojournTimes.map Prod.fst, en.2.byteCount)) =
            [([5], 10), ([10], 10)])) = true :=
    Run.exists_of_any_toOption (by decide +kernel)
  obtain ⟨rm, hrm, hok⟩ := hrun
  obtain ⟨hok, hrun⟩ := Bool.and_eq_true_iff.mp hok
  obtain ⟨⟨hapart, hlast, hbounds⟩, hsent, hadj, htimes⟩ := of_decide_eq_true hok
  obtain ⟨rm', hrm', hchunks⟩ := Run.exists_of_any_toOption hrun
  exact ⟨rm, hrm, ⟨dataMap_tens hapart hlast hbounds, hsent, hadj, htimes⟩, rm', hrm',
    of_decide_eq_true hchunks⟩

end Run

end RangeManager

end AnalyseTCP
