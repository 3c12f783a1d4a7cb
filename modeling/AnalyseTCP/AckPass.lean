import AnalyseTCP.ProcessAck
import AnalyseTCP.RangeMap
import AnalyseTCP.Lib.Run

/-!
# One ACK

`processAck` as a relation between the entries from `highestAckedByteRangeIt` on before and after
the call.  Everything before the cursor keeps its acknowledgement: the backward scans only increase
`ack_count`.
-/

namespace AnalyseTCP

namespace RangeManager

/-- The ACK covers this range and no more; a range without data may end one below it. -/
def AckedExactly (seg : DataSeg) (r : ByteRange) : Prop :=
  seg.ack = r.endSeq ∨ (r.byteCount = 0 ∧ sub64 seg.ack 1 = r.endSeq)

instance (seg : DataSeg) (r : ByteRange) : Decidable (AckedExactly seg r) :=
  inferInstanceAs (Decidable (_ ∨ _))

/-- The first send time of the range is not after the ACK. -/
def SentBefore (seg : DataSeg) (r : ByteRange) : Prop :=
  ∃ sent ∈ r.sentTstampPcap.head?, seg.tstampPcap.before sent.1 = false

instance (seg : DataSeg) (r : ByteRange) : Decidable (SentBefore seg r) :=
  inferInstanceAs (Decidable (∃ sent ∈ _, _))

theorem SentBefore.ne_nil {seg : DataSeg} {r : ByteRange} (h : SentBefore seg r) :
    r.sentTstampPcap ≠ [] := by
  obtain ⟨sent, hsent, -⟩ := h
  intro hnil
  rw [hnil] at hsent
  cases hsent

/-- The forward loop: cursor and remaining entries before, cursor and entries after. -/
inductive AckPass (seg : DataSeg) : Option ℕ → List Entry → Option ℕ → List Entry → Prop
  | done (c : Option ℕ) : AckPass seg c [] c []
  | exact (c : Option ℕ) (key : ℕ) (r : ByteRange) (rest : List Entry)
      (hexact : AckedExactly seg r) :
      AckPass seg c ((key, r) :: rest) (some key)
        ((key, ackExact seg (decide (c = some key)) r) :: rest)
  | late (c : Option ℕ) (key : ℕ) (r : ByteRange) (rest : List Entry)
      (hend : r.endSeq < seg.ack) (hlate : ¬SentBefore seg r) :
      AckPass seg c ((key, r) :: rest) c ((key, r) :: rest)
  | pass (c c' : Option ℕ) (key : ℕ) (r : ByteRange) (rest rest' : List Entry)
      (hend : r.endSeq < seg.ack) (hpass : AckPass seg (some key) rest c' rest') :
      AckPass seg c ((key, r) :: rest) c' ((key, markAcked seg r) :: rest')
  | split (c : Option ℕ) (key : ℕ) (r : ByteRange) (rest : List Entry)
      (hlo : r.startSeq < seg.ack) (hhi : seg.ack < r.endSeq) :
      AckPass seg c ((key, r) :: rest) (some seg.ack)
        ((key, ackPart seg (r.head seg.ack)) :: (seg.ack, r.tail seg.ack) :: rest)
  | old (c : Option ℕ) (key : ℕ) (r : ByteRange) (rest : List Entry)
      (hold : seg.ack ≤ r.startSeq) :
      AckPass seg c ((key, r) :: rest) c ((key, r) :: rest)

/-- The entry whose `ack_count` a backward scan increases, if any. -/
def countAt (okey : Option ℕ) (en : Entry) : Entry :=
  if okey = some en.1 then (en.1, countAck en.2) else en

theorem countAt_none (en : Entry) : countAt none en = en := by
  rw [countAt, if_neg nofun]

theorem map_countAt_none (l : List Entry) : l.map (countAt none) = l := by
  rw [List.map_congr_left (fun en _ => countAt_none en), List.map_id']

theorem entries_countAckAt (rm : RangeManager) (key : ℕ) :
    (rm.countAckAt key).ranges.entries = rm.ranges.entries.map (countAt (some key)) := by
  apply List.map_congr_left
  intro en _
  unfold countAt
  by_cases h : en.1 = key
  · rw [if_pos h, if_pos (congrArg some h.symm)]
  · rw [if_neg h, if_neg fun h' => h (Option.some.inj h').symm]

/-! ## The backward scans -/

/-- A range that ends the scan for a FIN. -/
def EndsScan (r : ByteRange) : Prop := r.fin.val ≠ 0 ∨ r.packetSentCount.val = r.dataSentCount.val

instance (r : ByteRange) : Decidable (EndsScan r) := inferInstanceAs (Decidable (_ ∨ _))

theorem finScan_ok {l : List Entry} (h : ∃ en ∈ l, EndsScan en.2) : ∃ s, finScan l = .ok s := by
  induction l with
  | nil =>
      obtain ⟨en, hen, -⟩ := h
      cases hen
  | cons d ds ih =>
      obtain ⟨key, prev⟩ := d
      rw [finScan]
      by_cases hfin : prev.fin.val ≠ 0
      · rw [if_pos hfin]
        exact ⟨_, rfl⟩
      by_cases hsent : prev.packetSentCount.val = prev.dataSentCount.val
      · rw [if_neg hfin, if_pos hsent]
        exact ⟨_, rfl⟩
      rw [if_neg hfin, if_neg hsent]
      apply ih
      obtain ⟨en, hen, hends⟩ := h
      rcases List.mem_cons.mp hen with rfl | hen
      · exact absurd hends (not_or.mpr ⟨hfin, hsent⟩)
      · exact ⟨en, hen, hends⟩

/-- Without such a range the scan runs past `begin()`. -/
theorem finScan_error {l : List Entry} (h : ∀ en ∈ l, ¬EndsScan en.2) :
    finScan l = .error .outOfRange := by
  induction l with
  | nil => rfl
  | cons d ds ih =>
      obtain ⟨key, prev⟩ := d
      obtain ⟨hfin, hsent⟩ := not_or.mp (h (key, prev) List.mem_cons_self)
      rw [finScan, if_neg hfin, if_neg hsent]
      exact ih fun en hen => h en (List.mem_cons_of_mem _ hen)

theorem findFin_ok {ack : ℕ} {l : List Entry}
    (h : ∀ en ∈ l.head?, sub64 ack 1 = en.2.endSeq → ∃ en ∈ l, EndsScan en.2) :
    ∃ s, findFin ack l = .ok s := by
  cases l with
  | nil => exact ⟨_, rfl⟩
  | cons d ds =>
      rw [findFin]
      by_cases hone : sub64 ack 1 = d.2.endSeq
      · rw [if_pos hone]
        apply finScan_ok
        exact h d rfl hone
      · rw [if_neg hone]
        exact ⟨_, rfl⟩

theorem countOld_counts (rm : RangeManager) (seg : DataSeg) (tmp : ByteRange) (ret : Bool)
    (scan : FinScan) : (rm.countOld seg tmp ret scan).1 = rm ∨
      ∃ okey, (rm.countOld seg tmp ret scan).1 = rm.countAckAt okey := by
  cases scan with
  | found fkey => exact .inr ⟨fkey, rfl⟩
  | stopped prevs =>
      rw [countOld]
      split_ifs
      · rcases oldAckScan seg.ack prevs with _ | _ | okey
        · exact .inl rfl
        · exact .inl rfl
        · exact .inr ⟨okey, rfl⟩
      · exact .inl rfl
      · exact .inl rfl

/-- The backward scans change nothing but one `ack_count`. -/
theorem ackOld_counts {rm : RangeManager} {seg : DataSeg} {key : ℕ} {tmp : ByteRange} {ret : Bool}
    {out : RangeManager × Bool} (h : rm.ackOld seg key tmp ret = .ok out) :
    out.1 = rm ∨ ∃ okey, out.1 = rm.countAckAt okey := by
  rw [ackOld] at h
  split at h
  · exact .inl (congrArg Prod.fst (Except.ok.inj h).symm)
  obtain ⟨scan, -, h⟩ := Run.exists_of_bind_ok h
  rw [← Except.ok.inj h]
  exact rm.countOld_counts seg tmp ret scan

/-- Only the scan for a FIN can leave the map. -/
theorem ackOld_ok (rm : RangeManager) (seg : DataSeg) (key : ℕ) (tmp : ByteRange) (ret : Bool)
    (h : ∀ en ∈ (rm.ranges.below key).getLast?, sub64 seg.ack 1 = en.2.endSeq →
      ∃ en ∈ rm.ranges.below key, EndsScan en.2) :
    ∃ out, rm.ackOld seg key tmp ret = .ok out := by
  rw [ackOld]
  split
  · exact ⟨_, rfl⟩
  next prev prevs hrev =>
  have hscan : ∃ s, findFin seg.ack (prev :: prevs) = .ok s := by
    apply findFin_ok
    rw [← hrev, List.head?_reverse]
    intro en hen hone
    obtain ⟨en, hen, hends⟩ := h en hen hone
    exact ⟨en, List.mem_reverse.mpr hen, hends⟩
  obtain ⟨s, hs⟩ := hscan
  rw [hs, Run.ok_bind]
  exact ⟨_, rfl⟩

theorem ackOld_error {rm : RangeManager} {seg : DataSeg} {key : ℕ} {prev : Entry}
    (tmp : ByteRange) (ret : Bool) (hprev : (rm.ranges.below key).getLast? = some prev)
    (hone : sub64 seg.ack 1 = prev.2.endSeq)
    (hends : ∀ en ∈ rm.ranges.below key, ¬EndsScan en.2) :
    rm.ackOld seg key tmp ret = .error .outOfRange := by
  obtain ⟨front, hfront⟩ := List.getLast?_eq_some_iff.mp hprev
  have hrev : (rm.ranges.below key).reverse = prev :: front.reverse := by
    rw [hfront, List.reverse_append]
    rfl
  have hscan : finScan (prev :: front.reverse) = .error .outOfRange := by
    apply finScan_error
    intro en hen
    rw [← hrev] at hen
    exact hends en (List.mem_reverse.mp hen)
  rw [ackOld, hrev]
  dsimp only
  rw [findFin, if_pos hone, hscan]
  rfl

/-! ## The forward loop -/

section Loop

variable {seg : DataSeg} {key : ℕ} {r : ByteRange} {rest pre : List Entry} {rm : RangeManager}
  {ret : Bool}

theorem ackBody_exact (hexact : AckedExactly seg r) :
    rm.ackBody seg key r ret =
      .ok (.done { rm with
        ranges := rm.ranges.modify key
          (ackExact seg (decide (rm.highestAckedByteRangeIt = some key)))
        highestAckedByteRangeIt := some key } true) := by
  have h : seg.ack = r.endSeq ∨ (r.byteCount = 0 ∧ sub64 seg.ack 1 = r.endSeq) := hexact
  unfold ackBody
  rw [if_pos h]

theorem ackBody_past (hexact : ¬AckedExactly seg r) (hend : r.endSeq < seg.ack) :
    rm.ackBody seg key r ret =
      match r.sentTstampPcap with
      | [] => .error .outOfRange
      | sent :: _ =>
          if seg.tstampPcap.before sent.1 then .ok (.done rm false)
          else
            .ok (.next { rm with
              ranges := rm.ranges.modify key (markAcked seg)
              highestAckedByteRangeIt := some key } (ret || !r.acked)) := by
  have h : ¬(seg.ack = r.endSeq ∨ (r.byteCount = 0 ∧ sub64 seg.ack 1 = r.endSeq)) := hexact
  unfold ackBody
  rw [if_neg h, if_pos hend]
  cases r.sentTstampPcap <;> rfl

theorem ackBody_late (hexact : ¬AckedExactly seg r) (hend : r.endSeq < seg.ack)
    {sent : Timeval × SentType} (hsent : r.sentTstampPcap.head? = some sent)
    (hlate : seg.tstampPcap.before sent.1 = true) :
    rm.ackBody seg key r ret = .ok (.done rm false) := by
  obtain ⟨sents, hsents⟩ := List.head?_eq_some_iff.mp hsent
  rw [ackBody_past hexact hend, hsents]
  dsimp only
  rw [if_pos hlate]

theorem ackBody_pass (hexact : ¬AckedExactly seg r) (hend : r.endSeq < seg.ack)
    (hsent : SentBefore seg r) :
    rm.ackBody seg key r ret =
      .ok (.next { rm with
        ranges := rm.ranges.modify key (markAcked seg)
        highestAckedByteRangeIt := some key } (ret || !r.acked)) := by
  obtain ⟨sent, hsent, hbefore⟩ := hsent
  obtain ⟨sents, hsents⟩ := List.head?_eq_some_iff.mp hsent
  rw [ackBody_past hexact hend, hsents]
  dsimp only
  rw [hbefore, if_neg Bool.false_ne_true]

theorem ackBody_split (hwf : r.Wf) (hlo : r.startSeq < seg.ack) (hhi : seg.ack < r.endSeq) :
    rm.ackBody seg key r ret =
      .ok (.done { rm with
        ranges := (rm.ranges.modify key fun _ => ackPart seg (r.head seg.ack)).insert seg.ack
          (r.tail seg.ack)
        highestAckedByteRangeIt := some seg.ack } true) := by
  have hexact : ¬(seg.ack = r.endSeq ∨ (r.byteCount = 0 ∧ sub64 seg.ack 1 = r.endSeq)) := by
    rintro (h | ⟨h, -⟩)
    · omega
    · have := hwf.size
      omega
  have hend : ¬r.endSeq < seg.ack := by omega
  unfold ackBody
  rw [if_neg hexact, if_neg hend, if_pos ⟨hlo, hhi⟩, ByteRange.splitEnd_eq hwf hlo hhi, Run.ok_bind]
  rfl

theorem ackBody_old (hexact : ¬AckedExactly seg r) (hend : ¬r.endSeq < seg.ack)
    (hold : seg.ack ≤ r.startSeq) :
    rm.ackBody seg key r ret =
      rm.ackOld seg key r ret >>= fun out => .ok (.done out.1 out.2) := by
  have h : ¬(seg.ack = r.endSeq ∨ (r.byteCount = 0 ∧ sub64 seg.ack 1 = r.endSeq)) := hexact
  unfold ackBody
  rw [if_neg h, if_neg hend, if_neg fun h => absurd h.1 hold.not_gt]
  rfl

/-- The range that the ACK cuts is replaced by its two parts. -/
theorem entries_ack_split (hcut : rm.ranges.entries = pre ++ (key, r) :: rest)
    (hwf : WfEntries ((key, r) :: rest)) (hsep : Separated ((key, r) :: rest))
    (hlo : r.startSeq < seg.ack) (hhi : seg.ack < r.endSeq) :
    ((rm.ranges.modify key fun _ => ackPart seg (r.head seg.ack)).insert seg.ack
        (r.tail seg.ack)).entries =
      pre ++ (key, ackPart seg (r.head seg.ack)) :: (seg.ack, r.tail seg.ack) :: rest := by
  have hkey : key = r.startSeq := (hwf (key, r) List.mem_cons_self).1
  have hcut' : (rm.ranges.modify key fun _ => ackPart seg (r.head seg.ack)).entries =
      (pre ++ [(key, ackPart seg (r.head seg.ack))]) ++ rest := by
    rw [OrdMap.entries_modify_of_cut hcut, List.append_assoc, List.singleton_append]
  have hbelow : ∀ en ∈ pre ++ [(key, ackPart seg (r.head seg.ack))], en.1 < seg.ack := by
    intro en hen
    rcases List.mem_append.mp hen with hen | hen
    · have := OrdMap.lt_of_mem_pre hcut hen
      omega
    · obtain rfl := List.mem_singleton.mp hen
      show key < seg.ack
      omega
  have habove : ∀ en ∈ rest, seg.ack < en.1 := by
    intro en hen
    have hle : r.endSeq ≤ en.2.startSeq := (separated_cons.mp hsep).1 en hen
    have hstart := (hwf en (List.mem_cons_of_mem _ hen)).1
    omega
  rw [OrdMap.entries_insert_of_cut hcut' hbelow habove, List.append_assoc, List.singleton_append]

theorem lt_or_split_or_old (hwf : r.Wf) (hexact : ¬AckedExactly seg r) :
    r.endSeq < seg.ack ∨ (r.startSeq < seg.ack ∧ seg.ack < r.endSeq) ∨
      (¬r.endSeq < seg.ack ∧ seg.ack ≤ r.startSeq) := by
  have hne : seg.ack ≠ r.endSeq := fun h => hexact (.inl h)
  have := hwf.le
  omega

/-- What the forward loop does, whatever it returns. -/
theorem ackLoop_passes {out : RangeManager × Bool}
    (hcut : rm.ranges.entries = pre ++ rest) (hwf : WfEntries rest) (hsep : Separated rest)
    (h : ackLoop seg rest rm ret = .ok out) :
    ∃ rest' okey, AckPass seg rm.highestAckedByteRangeIt rest out.1.highestAckedByteRangeIt rest' ∧
      out.1.ranges.entries = (pre ++ rest').map (countAt okey) ∧ out.1.lastSeq = rm.lastSeq := by
  -- over the ranges still ahead; a marked range moves to the part behind
  induction rest generalizing pre rm ret with
  | nil =>
      obtain rfl := Except.ok.inj h
      exact ⟨[], none, .done _, by rw [map_countAt_none, hcut], rfl⟩
  | cons d rest ih =>
      obtain ⟨key, r⟩ := d
      have ⟨⟨_, hr⟩, hwf'⟩ := wfEntries_cons.mp hwf
      rw [ackLoop] at h
      by_cases hexact : AckedExactly seg r
      · rw [ackBody_exact hexact] at h
        obtain rfl := Except.ok.inj h
        refine ⟨_, none, .exact _ key r rest hexact, ?_, rfl⟩
        rw [map_countAt_none, OrdMap.entries_modify_of_cut hcut]
      rcases lt_or_split_or_old hr hexact with hend | ⟨hlo, hhi⟩ | ⟨hend, hold⟩
      · -- the ACK reaches past the range: the loop only goes on when it was sent before the ACK
        by_cases hsent : SentBefore seg r
        · -- the range joins those before the loop's position
          rw [ackBody_pass hexact hend hsent] at h
          have hcut' : (rm.ranges.modify key (markAcked seg)).entries =
              (pre ++ [(key, markAcked seg r)]) ++ rest := by
            rw [OrdMap.entries_modify_of_cut hcut, List.append_assoc, List.singleton_append]
          obtain ⟨rest', okey, hpass, hentries, hlast⟩ :=
            ih hcut' hwf' (separated_cons.mp hsep).2 h
          refine ⟨_, okey, .pass _ _ key r rest rest' hend hpass, ?_, hlast⟩
          rw [hentries, List.append_assoc, List.singleton_append]
        · cases hs : r.sentTstampPcap with
          | nil =>
              -- `sentTstampPcap[0].first` of a range never sent
              rw [ackBody_past hexact hend, hs] at h
              cases h
          | cons sent sents =>
              have hhead : r.sentTstampPcap.head? = some sent := by rw [hs, List.head?_cons]
              have hlate : seg.tstampPcap.before sent.1 = true := by
                rw [← Bool.not_eq_false]
                exact fun hb => hsent ⟨sent, hhead, hb⟩
              rw [ackBody_late hexact hend hhead hlate] at h
              obtain rfl := Except.ok.inj h
              exact ⟨_, none, .late _ key r rest hend hsent, by rw [map_countAt_none, hcut], rfl⟩
      · -- the ACK ends inside the range, which is cut there
        rw [ackBody_split hr hlo hhi] at h
        obtain rfl := Except.ok.inj h
        refine ⟨_, none, .split _ key r rest hlo hhi, ?_, rfl⟩
        rw [map_countAt_none, entries_ack_split hcut hwf hsep hlo hhi]
      · -- an old ACK changes nothing but one count of duplicates
        rw [ackBody_old hexact hend hold] at h
        cases hout : rm.ackOld seg key r ret with
        | error e =>
            rw [hout] at h
            cases h
        | ok out' =>
            rw [hout, Run.ok_bind] at h
            obtain rfl := Except.ok.inj h
            rcases ackOld_counts hout with hrm | ⟨okey, hrm⟩
            · refine ⟨(key, r) :: rest, none, ?_, ?_, by rw [hrm]⟩
              · rw [hrm]
                exact .old _ key r rest hold
              · rw [map_countAt_none, hrm, hcut]
            · refine ⟨(key, r) :: rest, some okey, ?_, ?_, by rw [hrm]; rfl⟩
              · rw [hrm]
                exact .old _ key r rest hold
              · rw [hrm, entries_countAckAt, hcut]

/-- The scan for a FIN one byte below the ACK, over the entries `l` below the current range. -/
def ScanEnds (ack : ℕ) (l : List Entry) : Prop :=
  ∀ prev ∈ l.getLast?, sub64 ack 1 = prev.2.endSeq → ∃ en ∈ l, EndsScan en.2

instance (ack : ℕ) (l : List Entry) : Decidable (ScanEnds ack l) :=
  inferInstanceAs (Decidable (∀ prev ∈ l.getLast?, _))

theorem markAcked_endSeq (seg : DataSeg) (r : ByteRange) : (markAcked seg r).endSeq = r.endSeq := by
  unfold markAcked
  split <;> rfl

theorem endsScan_markAcked (seg : DataSeg) (r : ByteRange) :
    EndsScan (markAcked seg r) ↔ EndsScan r := by
  unfold markAcked
  split <;> rfl

/-- What the scan looks at in a range. -/
def scanView (en : Entry) : ℕ × Bool := (en.2.endSeq, decide (EndsScan en.2))

theorem scanEnds_iff_view {ack : ℕ} {l : List Entry} : ScanEnds ack l ↔
    ∀ v ∈ (l.map scanView).getLast?, sub64 ack 1 = v.1 → ∃ w ∈ l.map scanView, w.2 = true := by
  unfold ScanEnds scanView
  rw [List.getLast?_map]
  cases l.getLast? with
  | none => simp
  | some prev => simp

/-- Marking a range changes nothing that the scan looks at. -/
theorem scanEnds_mark {ack : ℕ} {mid : List Entry} :
    ScanEnds ack (pre ++ (key, markAcked seg r) :: mid) ↔
      ScanEnds ack (pre ++ (key, r) :: mid) := by
  have hview : scanView (key, markAcked seg r) = scanView (key, r) := by
    unfold scanView
    rw [markAcked_endSeq]
    simp only [endsScan_markAcked]
  rw [scanEnds_iff_view, scanEnds_iff_view, List.map_append, List.map_append, List.map_cons,
    List.map_cons, hview]

/-- The loop returns if the ranges it reaches past have a send time and the scan it may end in
stops. -/
theorem ackLoop_ok (hcut : rm.ranges.entries = pre ++ rest) (hwf : WfEntries rest)
    (hsent : ∀ en ∈ rest, en.2.endSeq < seg.ack → en.2.sentTstampPcap ≠ [])
    (hscan : ∀ mid en post, rest = mid ++ en :: post →
      (∀ m ∈ mid, m.2.endSeq < seg.ack ∧ ¬AckedExactly seg m.2) →
      seg.ack ≤ en.2.startSeq → ¬AckedExactly seg en.2 → ScanEnds seg.ack (pre ++ mid)) :
    ∃ out, ackLoop seg rest rm ret = .ok out := by
  induction rest generalizing pre rm ret with
  | nil => exact ⟨_, rfl⟩
  | cons d rest ih =>
      obtain ⟨key, r⟩ := d
      have ⟨⟨_, hr⟩, hwf'⟩ := wfEntries_cons.mp hwf
      rw [ackLoop]
      by_cases hexact : AckedExactly seg r
      · rw [ackBody_exact hexact]
        exact ⟨_, rfl⟩
      rcases lt_or_split_or_old hr hexact with hend | ⟨hlo, hhi⟩ | ⟨hend, hold⟩
      · rw [ackBody_past hexact hend]
        have hne : r.sentTstampPcap ≠ [] := hsent (key, r) List.mem_cons_self hend
        obtain ⟨sent, sents, hs⟩ := List.exists_cons_of_ne_nil hne
        rw [hs]
        dsimp only
        by_cases hlate : seg.tstampPcap.before sent.1 = true
        · rw [if_pos hlate]
          exact ⟨_, rfl⟩
        rw [if_neg hlate]
        -- the rest keeps its scan, which does not see that the range behind it was marked
        have hcut' : (rm.ranges.modify key (markAcked seg)).entries =
            (pre ++ [(key, markAcked seg r)]) ++ rest := by
          rw [OrdMap.entries_modify_of_cut hcut, List.append_assoc, List.singleton_append]
        apply ih hcut' hwf' fun en hen => hsent en (List.mem_cons_of_mem _ hen)
        intro mid en post hrest hmid hold hnot
        rw [List.append_assoc, List.singleton_append, scanEnds_mark]
        apply hscan ((key, r) :: mid) en post (by rw [hrest]; rfl) _ hold hnot
        exact List.forall_mem_cons.mpr ⟨⟨hend, hexact⟩, hmid⟩
      · rw [ackBody_split hr hlo hhi]
        exact ⟨_, rfl⟩
      · rw [ackBody_old hexact hend hold]
        -- here the scan for a FIN starts, over the ranges behind
        have hends := hscan [] (key, r) rest rfl (fun _ h => nomatch h) hold hexact
        rw [List.append_nil, ← OrdMap.below_of_cut hcut] at hends
        obtain ⟨out, hout⟩ := rm.ackOld_ok seg key r ret hends
        rw [hout]
        exact ⟨_, rfl⟩

/-- The loop leaves the map if it comes, in time, to a range from where the scan does not stop. -/
theorem ackLoop_error {mid post : List Entry} {en : Entry}
    (hcut : rm.ranges.entries = pre ++ (mid ++ en :: post))
    (hmid : ∀ m ∈ mid, m.2.endSeq < seg.ack ∧ ¬AckedExactly seg m.2 ∧ SentBefore seg m.2)
    (hexact : ¬AckedExactly seg en.2) (hend : ¬en.2.endSeq < seg.ack)
    (hold : seg.ack ≤ en.2.startSeq) (hscan : ¬ScanEnds seg.ack (pre ++ mid)) :
    ackLoop seg (mid ++ en :: post) rm ret = .error .outOfRange := by
  induction mid generalizing pre rm ret with
  | nil =>
      obtain ⟨key, r⟩ := en
      rw [List.append_nil] at hscan
      have hbelow : rm.ranges.below key = pre := OrdMap.below_of_cut hcut
      unfold ScanEnds at hscan
      simp only [not_forall, not_exists, not_and] at hscan
      obtain ⟨prev, hprev, hone, hends⟩ := hscan
      rw [← hbelow] at hprev hends
      rw [List.nil_append, ackLoop, ackBody_old hexact hend hold,
        ackOld_error r ret hprev hone hends]
      rfl
  | cons m mid ih =>
      obtain ⟨key, r⟩ := m
      obtain ⟨⟨hpast, hnot, hsent⟩, hmid'⟩ := List.forall_mem_cons.mp hmid
      rw [List.cons_append, ackLoop, ackBody_pass hnot hpast hsent]
      have hcut₁ : rm.ranges.entries = pre ++ (key, r) :: (mid ++ en :: post) := hcut
      have hcut' : (rm.ranges.modify key (markAcked seg)).entries =
          (pre ++ [(key, markAcked seg r)]) ++ (mid ++ en :: post) := by
        rw [OrdMap.entries_modify_of_cut hcut₁, List.append_assoc, List.singleton_append]
      apply ih hcut' hmid'
      rw [List.append_assoc, List.singleton_append, scanEnds_mark]
      exact hscan

end Loop

/-! ## The whole call -/

section Process

variable {rm rm' : RangeManager} {seg : DataSeg}

/-- The entries before and from the cursor. -/
theorem resume_cut (rm : RangeManager) :
    ∃ pre, rm.ranges.entries = pre ++ rm.resume ∧
      (∀ en ∈ pre, ∃ c, rm.highestAckedByteRangeIt = some c ∧ en.1 < c) ∧
      ∀ en ∈ rm.resume, ∀ c, rm.highestAckedByteRangeIt = some c → c ≤ en.1 := by
  unfold resume
  cases hc : rm.highestAckedByteRangeIt with
  | none =>
      refine ⟨[], rfl, fun _ h => (nomatch h), ?_⟩
      intro en _ c hc
      cases hc
  | some c =>
      refine ⟨rm.ranges.below c, (rm.ranges.below_append_atLeast c).symm, ?_, ?_⟩
      · exact fun en hen => ⟨c, rfl, OrdMap.lt_of_mem_below hen⟩
      · intro en hen c' hc'
        rw [← Option.some.inj hc']
        exact OrdMap.le_of_mem_atLeast hen

theorem mem_of_mem_resume {en : Entry} (h : en ∈ rm.resume) : en ∈ rm.ranges.entries := by
  obtain ⟨pre, hcut, -, -⟩ := rm.resume_cut
  rw [hcut]
  exact List.mem_append_right _ h

/-- A call that returns has found the ACK below the cursor, or is a run of the forward loop. -/
theorem processAck_cases {out : RangeManager × Bool} (h : rm.processAck seg = .ok out) :
    (∃ first ∈ rm.resume.head?, seg.ack < first.2.startSeq ∧
      out = ({ rm with ackCount := rm.ackCount + 1 }, true)) ∨
      ackLoop seg rm.resume { rm with ackCount := rm.ackCount + 1 } false = .ok out := by
  unfold processAck at h
  cases hresume : rm.resume with
  | nil =>
      rw [hresume] at h
      cases h
  | cons d rest =>
      obtain ⟨key, first⟩ := d
      rw [hresume] at h
      dsimp only at h
      by_cases hskip : seg.ack < first.startSeq
      · rw [if_pos hskip] at h
        exact .inl ⟨(key, first), rfl, hskip, (Except.ok.inj h).symm⟩
      · rw [if_neg hskip] at h
        exact .inr h

/-- One call of `processAck`: the cut at the cursor and what the forward loop made of it. -/
structure Processed (rm : RangeManager) (seg : DataSeg) (rm' : RangeManager) (pre rest' : List Entry)
    (okey : Option ℕ) : Prop where
  cut : rm.ranges.entries = pre ++ rm.resume
  before : ∀ en ∈ pre, ∃ c, rm.highestAckedByteRangeIt = some c ∧ en.1 < c
  from_cursor : ∀ en ∈ rm.resume, ∀ c, rm.highestAckedByteRangeIt = some c → c ≤ en.1
  pass : AckPass seg rm.highestAckedByteRangeIt rm.resume rm'.highestAckedByteRangeIt rest'
  entries : rm'.ranges.entries = (pre ++ rest').map (countAt okey)
  lastSeq : rm'.lastSeq = rm.lastSeq

theorem processAck_processed {ret : Bool} (hwf : WfEntries rm.ranges.entries)
    (hsep : Separated rm.ranges.entries) (h : rm.processAck seg = .ok (rm', ret)) :
    ∃ pre rest' okey, Processed rm seg rm' pre rest' okey := by
  obtain ⟨pre, hcut, hbefore, hfrom⟩ := rm.resume_cut
  have hwf' : WfEntries rm.resume := by
    rw [hcut] at hwf
    exact (wfEntries_append.mp hwf).2
  have hsep' : Separated rm.resume := by
    rw [hcut] at hsep
    exact (separated_append.mp hsep).2.1
  rcases processAck_cases h with ⟨⟨key, first⟩, hfirst, hskip, hout⟩ | hloop
  · obtain ⟨rest, hresume⟩ := List.head?_eq_some_iff.mp hfirst
    obtain ⟨rfl, -⟩ := Prod.mk.inj hout
    refine ⟨pre, rm.resume, none, hcut, hbefore, hfrom, ?_, ?_, rfl⟩
    · rw [hresume]
      exact .old _ key first rest hskip.le
    · rw [map_countAt_none]
      exact hcut
  · have hcut₁ : ({ rm with ackCount := rm.ackCount + 1 } : RangeManager).ranges.entries =
        pre ++ rm.resume := hcut
    obtain ⟨rest', okey, hpass, hentries, hlast⟩ := ackLoop_passes hcut₁ hwf' hsep' hloop
    exact ⟨pre, rest', okey, hcut, hbefore, hfrom, hpass, hentries, hlast⟩

/-- The forward loop does not get past this range. -/
def StopsAt (seg : DataSeg) (r : ByteRange) : Prop := ¬r.endSeq < seg.ack ∨ AckedExactly seg r

instance (seg : DataSeg) (r : ByteRange) : Decidable (StopsAt seg r) :=
  inferInstanceAs (Decidable (_ ∨ _))

/-- If the call looks backwards for a FIN, it finds where to stop before the first range. -/
def ScanInside (rm : RangeManager) (seg : DataSeg) : Prop :=
  ∀ first ∈ rm.resume.head?, first.2.startSeq ≤ seg.ack →
    ∀ en ∈ rm.resume.find? (fun en => decide (StopsAt seg en.2)),
      seg.ack ≤ en.2.startSeq → ¬AckedExactly seg en.2 →
        ScanEnds seg.ack (rm.ranges.below en.1)

instance (rm : RangeManager) (seg : DataSeg) : Decidable (ScanInside rm seg) :=
  inferInstanceAs (Decidable (∀ first ∈ rm.resume.head?, _))

/-- The ACK was captured after the first transmission of every range it reaches past. -/
def AckOnTime (rm : RangeManager) (seg : DataSeg) : Prop :=
  ∀ en ∈ rm.ranges.entries, en.2.endSeq < seg.ack → SentBefore seg en.2

instance (rm : RangeManager) (seg : DataSeg) : Decidable (AckOnTime rm seg) :=
  inferInstanceAs (Decidable (∀ en ∈ _, _))

theorem processAck_ok (hwf : WfEntries rm.ranges.entries) (hresume : rm.resume ≠ [])
    (hsent : ∀ en ∈ rm.ranges.entries, en.2.endSeq < seg.ack → en.2.sentTstampPcap ≠ [])
    (hscan : ScanInside rm seg) :
    ∃ out, rm.processAck seg = .ok out := by
  obtain ⟨pre, hcut, -, -⟩ := rm.resume_cut
  have hmem : ∀ en ∈ rm.resume, en ∈ rm.ranges.entries := fun _ hen => mem_of_mem_resume hen
  unfold processAck
  cases hres : rm.resume with
  | nil => exact absurd hres hresume
  | cons d rest =>
      obtain ⟨key, first⟩ := d
      dsimp only
      by_cases hskip : seg.ack < first.startSeq
      · rw [if_pos hskip]
        exact ⟨_, rfl⟩
      rw [if_neg hskip, ← hres]
      have hcut₁ : ({ rm with ackCount := rm.ackCount + 1 } : RangeManager).ranges.entries =
          pre ++ rm.resume := hcut
      apply ackLoop_ok hcut₁
        (fun en hen => hwf en (hmem en hen)) fun en hen => hsent en (hmem en hen)
      intro mid en post hrest hmid hold hnot
      have hfind : rm.resume.find? (fun en => decide (StopsAt seg en.2)) = some en := by
        rw [List.find?_eq_some_iff_append]
        refine ⟨decide_eq_true (.inl ?_), mid, post, hrest, ?_⟩
        · have hle := (hwf en (hmem en (by rw [hrest]; simp))).2.le
          omega
        · intro m hm
          rw [Bool.not_eq_true', decide_eq_false_iff_not]
          rintro (h | h)
          · exact h (hmid m hm).1
          · exact (hmid m hm).2 h
      have hbelow : rm.ranges.below en.1 = pre ++ mid := by
        have hcut₂ : rm.ranges.entries = (pre ++ mid) ++ (en.1, en.2) :: post := by
          rw [hcut, hrest, List.append_assoc]
        exact OrdMap.below_of_cut hcut₂
      have hhead : rm.resume.head? = some (key, first) := by rw [hres, List.head?_cons]
      rw [← hbelow]
      exact hscan (key, first) hhead (not_lt.mp hskip) en hfind hold hnot

end Process

end RangeManager

end AnalyseTCP
