import AnalyseTCP.LossBounds
import AnalyseTCP.LossIntervals

/-!
# Interval losses and total losses

`calculateLossGroupedByInterval` counts the entries left in `lost_tstamps_tcp`; `calculateRealLoss`
subtracts counters.  The two agree for a range whose list is as long as the difference of its
counters.  A pure ACK lengthens the list but not `data_sent_count`, and no received packet takes the
entry out again; a split copies the counters to the new range but not the list.
-/

namespace AnalyseTCP

namespace ByteRange

/-- `p` lies inside the range and is not its start. -/
def Inside (r : ByteRange) (p : ℕ) : Prop := r.startSeq < p ∧ p < r.endSeq

instance (r : ByteRange) (p : ℕ) : Decidable (r.Inside p) := inferInstanceAs (Decidable (_ ∧ _))

/-- One of the copies still counted as lost carries this TCP timestamp. -/
def Awaits (r : ByteRange) (tstampTcp : ℕ) : Prop := ∃ l ∈ r.lostTstampsTcp, l.1 = tstampTcp

instance (r : ByteRange) (tstampTcp : ℕ) : Decidable (r.Awaits tstampTcp) :=
  inferInstanceAs (Decidable (∃ _ ∈ _, _))

end ByteRange

namespace RangeManager

/-- As many copies are listed as lost as the counters say, each with a time at which the range was
sent. -/
structure Agrees (r : ByteRange) : Prop where
  count : r.lostTstampsTcp.length + recvCount r = sentCount r
  sent : ∀ l ∈ r.lostTstampsTcp, ∃ t ∈ r.sentTstampPcap, t.1 = l.2

/-! ## Recording a packet -/

section Record

variable (seg : DataSeg) (level : ℕ) (rdb : Bool) (r : ByteRange)

theorem Agrees.congr {r r' : ByteRange} (h : Agrees r)
    (hlost : r'.lostTstampsTcp = r.lostTstampsTcp) (hsent : r'.sentTstampPcap = r.sentTstampPcap)
    (hrecv : recvCount r' = recvCount r) (hcount : sentCount r' = sentCount r) : Agrees r' := by
  constructor
  · rw [hlost, hrecv, hcount]
    exact h.count
  · rw [hlost, hsent]
    exact h.sent

variable {r}

/-- Data, SYN and FIN: one more copy sent, one more listed. -/
theorem Agrees.recordSent {sentT : SentType} (h : Agrees r) (hack : sentT ≠ .pureAck)
    (hrst : sentT ≠ .rst) : Agrees (recordSent seg rdb sentT r) := by
  constructor
  · rw [sentCount_recordSent seg rdb r hack hrst, recvCount_recordSent]
    show (r.lostTstampsTcp ++ [(seg.tstampTcp, seg.tstampPcap)]).length + _ = _
    rw [List.length_append, List.length_singleton]
    have := h.count
    omega
  · intro l hl
    have hl' : l ∈ r.lostTstampsTcp ++ [(seg.tstampTcp, seg.tstampPcap)] := hl
    show ∃ t ∈ r.sentTstampPcap ++ [(seg.tstampPcap, sentT)], t.1 = l.2
    rcases List.mem_append.mp hl' with hl' | hl'
    · obtain ⟨t, ht, htl⟩ := h.sent l hl'
      exact ⟨t, List.mem_append_left _ ht, htl⟩
    · obtain rfl := List.mem_singleton.mp hl'
      exact ⟨_, List.mem_append_right _ List.mem_cons_self, rfl⟩

theorem Agrees.recordSentFound (h : Agrees r) : Agrees (recordSentFound seg level rdb r) := by
  have hcounts : Agrees (recordSentCounts seg level rdb r) := by
    have hack : foundType seg level ≠ .pureAck := by unfold foundType; split_ifs <;> simp
    have hrst : foundType seg level ≠ .rst := by unfold foundType; split_ifs <;> simp
    exact (h.recordSent seg rdb hack hrst).congr rfl rfl rfl rfl
  refine hcounts.congr ?_ ?_ ?_ ?_
  · exact recordSentFound_blind seg level rdb r fun _ _ => rfl
  · exact recordSentFound_blind seg level rdb r fun _ _ => rfl
  · exact recordSentFound_blind seg level rdb r fun _ _ => rfl
  · exact recordSentFound_blind seg level rdb r fun _ _ => rfl

theorem Agrees.finSet (h : Agrees r) : Agrees (finSet seg r) := by
  refine h.congr ?_ ?_ ?_ ?_ <;> exact finSet_blind seg r fun _ _ => rfl

theorem Agrees.wholeRange {itype : InsertType} (s : ℕ)
    (h : Agrees (recordFound seg level (thisIsRdbData seg s) itype r)) :
    Agrees (wholeRange itype seg level s r) := by
  refine h.congr ?_ ?_ ?_ ?_ <;> exact wholeRange_blind itype seg level s r fun _ _ => rfl

theorem agrees_freshRange (s e : ℕ) : Agrees (freshRange seg s e) := by
  refine Agrees.finSet seg ?_
  refine Agrees.recordSent seg _ ⟨rfl, fun l hl => (nomatch hl)⟩ ?_ ?_
  · split_ifs <;> simp
  · split_ifs <;> simp

theorem Agrees.head (h : Agrees r) (c : ℕ) : Agrees (r.head c) := h.congr rfl rfl rfl rfl

theorem Agrees.reusedRange (h : Agrees r) (s c : ℕ) : Agrees (reusedRange seg s c r) := by
  have hsent : Agrees (RangeManager.recordSent seg (thisIsRdbData seg s) .pkt (r.head c)) :=
    (h.head c).recordSent seg _ (by simp) (by simp)
  exact hsent.congr rfl rfl rfl rfl

/-- A received copy whose timestamp is listed. -/
theorem Agrees.increaseReceived (h : Agrees r) {tstampTcp : ℕ} (hawaits : r.Awaits tstampTcp)
    (tv : Timeval) (b : Bool) : Agrees (r.increaseReceived tstampTcp tv b) := by
  have hlost : (r.increaseReceived tstampTcp tv b).lostTstampsTcp =
      r.lostTstampsTcp.eraseP fun p => p.1 == tstampTcp :=
    increaseReceived_blind r (f := fun r => r.lostTstampsTcp) (fun _ _ _ _ => rfl) tstampTcp tv b
  have hsent : (r.increaseReceived tstampTcp tv b).sentTstampPcap = r.sentTstampPcap :=
    increaseReceived_blind r (f := fun r => r.sentTstampPcap) (fun _ _ _ _ => rfl) tstampTcp tv b
  have hrecv : recvCount (r.increaseReceived tstampTcp tv b) = recvCount r + 1 :=
    increaseReceived_blind r (fun _ _ _ _ => rfl) tstampTcp tv b
  have hcount : sentCount (r.increaseReceived tstampTcp tv b) = sentCount r :=
    increaseReceived_blind r (fun _ _ _ _ => rfl) tstampTcp tv b
  obtain ⟨l, hl, hstamp⟩ := hawaits
  have hlen : (r.lostTstampsTcp.eraseP fun p => p.1 == tstampTcp).length =
      r.lostTstampsTcp.length - 1 := List.length_eraseP_of_mem hl (by simpa using hstamp)
  have hpos : 0 < r.lostTstampsTcp.length := List.length_pos_of_mem hl
  constructor
  · rw [hlost, hrecv, hcount, hlen]
    have := h.count
    omega
  · rw [hlost, hsent]
    exact fun l hl => h.sent l (List.mem_of_mem_eraseP hl)

theorem Agrees.recordRecv (h : Agrees r) (hawaits : r.Awaits seg.tstampTcp) :
    Agrees (recordRecv seg level r) := by
  have hinc := h.increaseReceived hawaits seg.tstampPcap seg.inSequence
  unfold RangeManager.recordRecv
  dsimp only
  split
  · exact hinc.congr rfl rfl rfl rfl
  · exact hinc

/-- The last copy of a range, received on the part of it behind a cut: the list was dropped and is
not needed any more. -/
theorem agrees_recordRecv_tail {r' : ByteRange} (hlost : r'.lostTstampsTcp = [])
    (hlast : sentCount r' = recvCount r' + 1) : Agrees (recordRecv seg level r') := by
  have herase : (RangeManager.recordRecv seg level r').lostTstampsTcp =
      r'.lostTstampsTcp.eraseP fun p => p.1 == seg.tstampTcp :=
    recordRecv_blind seg level r' (f := fun r => r.lostTstampsTcp) fun _ _ _ _ => rfl
  have hnil : (RangeManager.recordRecv seg level r').lostTstampsTcp = [] := by
    rw [herase, hlost]
    rfl
  constructor
  · rw [hnil, sentCount_recordRecv, recvCount_recordRecv, hlast, List.length_nil, Nat.zero_add]
  · rw [hnil]
    exact fun l hl => (nomatch hl)

end Record

/-! ## Where an insertion cuts -/

/-- A pass that starts at `p` cuts no range but one with `D`. -/
def StartsClean (D : ByteRange → Prop) (l : List Entry) (p : ℕ) : Prop :=
  (∃ o ∈ l, o.1 = p) ∨ ∀ o ∈ l, o.2.Inside p → D o.2

/-- Data from `s` up to `e` cuts no range, but for ranges with `D` where a pass starts: at `s` or at
the end of a range. -/
def CutsClean (D : ByteRange → Prop) (l : List Entry) (s e : ℕ) : Prop :=
  (∀ o ∈ l, ¬o.2.Inside e) ∧ StartsClean D l s ∧
    ∀ o ∈ l, s ≤ o.2.endSeq → o.2.endSeq < e → StartsClean D l o.2.endSeq

instance (D : ByteRange → Prop) [DecidablePred D] (l : List Entry) (p : ℕ) :
    Decidable (StartsClean D l p) := inferInstanceAs (Decidable (_ ∨ _))

instance (D : ByteRange → Prop) [DecidablePred D] (l : List Entry) (s e : ℕ) :
    Decidable (CutsClean D l s e) := inferInstanceAs (Decidable (_ ∧ _ ∧ _))

/-- A range that the passes from `s` on will not cut, unless it has `D`.  `l₀` are the entries before
the insertion. -/
structure Ahead (D : ByteRange → Prop) (l₀ : List Entry) (e s : ℕ) (en : Entry) : Prop where
  key : StartsClean D l₀ en.1
  last : ¬en.2.Inside e
  stop : s ≤ en.2.endSeq → en.2.endSeq < e → StartsClean D l₀ en.2.endSeq
  cut : ∀ p, s ≤ p → (∀ o ∈ l₀, o.2.Inside p → D o.2) → en.2.Inside p → D en.2

section Cuts

variable {D : ByteRange → Prop} {l₀ l : List Entry} {itype : InsertType} {seg : DataSeg}
  {level s e : ℕ} {next : Option ℕ} {en : Entry}

theorem CutsClean.ahead (h : CutsClean D l₀ s e) {en : Entry} (hen : en ∈ l₀) :
    Ahead D l₀ e s en :=
  ⟨.inl ⟨en, hen, rfl⟩, h.1 en hen, h.2.2 en hen, fun _ _ hD => hD en hen⟩

theorem Ahead.later {s' : ℕ} (h : Ahead D l₀ e s en) (hle : s ≤ s') : Ahead D l₀ e s' en :=
  ⟨h.key, h.last, fun hend => h.stop (hle.trans hend), fun p hp => h.cut p (hle.trans hp)⟩

/-- Behind the pass nothing is asked but that the segment's end does not cut. -/
theorem Ahead.behind {key s' : ℕ} {r : ByteRange} (hkey : StartsClean D l₀ key) (hend : r.endSeq < s')
    (hlt : s' < e) : Ahead D l₀ e s' (key, r) := by
  refine ⟨hkey, fun h => ?_, fun h => ?_, fun p hp _ h => ?_⟩
  · have : e < r.endSeq := h.2
    omega
  · have : s' ≤ r.endSeq := h
    omega
  · have : p < r.endSeq := h.2
    omega

/-- The range that the next pass starts behind. -/
theorem Ahead.reached {key s' : ℕ} {r : ByteRange} (hkey : StartsClean D l₀ key)
    (hend : r.endSeq = s') (hlt : s' < e) (hstop : StartsClean D l₀ s') :
    Ahead D l₀ e s' (key, r) := by
  refine ⟨hkey, fun h => ?_, fun _ _ => ?_, fun p hp _ h => ?_⟩
  · have : e < r.endSeq := h.2
    omega
  · show StartsClean D l₀ r.endSeq
    rw [hend]
    exact hstop
  · have : p < r.endSeq := h.2
    omega

/-- The next pass starts clean. -/
theorem startsClean_next {s' : ℕ} (hl : ∀ en ∈ l, Ahead D l₀ e s en) (hlo : s < s') (hhi : s' < e)
    (h : (∃ o ∈ l, o.2.endSeq = s') ∨ ∃ o ∈ l, o.1 = s') : StartsClean D l₀ s' := by
  rcases h with ⟨o, ho, rfl⟩ | ⟨o, ho, rfl⟩
  · exact (hl o ho).stop hlo.le hhi
  · exact (hl o ho).key

/-- A pass at a clean start cuts a range only if the range has `D`. -/
theorem cut_of_startsClean (hstart : StartsClean D l₀ s) (hkeys : ∀ o ∈ l₀, ∃ d ∈ l, d.1 = o.1)
    (hl : ∀ en ∈ l, Ahead D l₀ e s en) (hfree : ∀ o ∈ l, o.1 ≠ s) (hen : en ∈ l)
    (hin : en.2.Inside s) : D en.2 := by
  rcases hstart with ⟨o, ho, hkey⟩ | hD
  · obtain ⟨d, hd, hdo⟩ := hkeys o ho
    exact absurd (hdo.trans hkey) (hfree d hd)
  · exact (hl en hen).cut s le_rfl hD hin

/-- A pass that starts clean leaves every piece that the next pass may meet clean. -/
theorem Piece.ahead {E s' : ℕ} (h : Piece l itype seg level s e next en) (he : e ≤ E)
    (hstart : StartsClean D l₀ s) (hl : ∀ en ∈ l, Ahead D l₀ E s en) (hnext : next = some s')
    (hlo : s < s') (hhi : s' < e) : Ahead D l₀ E s' en := by
  have hlt : s' < E := hhi.trans_le he
  cases h with
  | fresh | whole | front | frontRest | back | middle | middleRest => cases hnext
  | span r hmem hbytes hend =>
      obtain rfl := Option.some.inj hnext
      exact .reached hstart (recordFound_endSeq ..) hlt ((hl _ hmem).stop hbytes.le hlt)
  | reuse r c hmem hitype hempty hlo hhi hsize hafter =>
      split at hnext
      · next hce =>
          obtain rfl := Option.some.inj hnext
          obtain ⟨o, ho, rfl⟩ := hafter hce
          exact .reached hstart rfl hlt (hl o ho).key
      · cases hnext
  | cutHead key r next hfree hmem => exact .behind (hl _ hmem).key hlo hlt
  | beyond key r hfree hmem hkey hbytes hend =>
      obtain rfl := Option.some.inj hnext
      exact .reached hstart (recordSplit_endSeq ..) hlt ((hl _ hmem).stop hbytes.le hlt)

end Cuts

/-! ## Sent data -/

/-- The invariant of the runs; `K` bounds the keys. -/
def AgreesBelow (K : ℕ) (en : Entry) : Prop := en.1 ≤ K ∧ Agrees en.2

/-- During the insertion of sent data. -/
def SendsCleanly (K : ℕ) (l₀ : List Entry) (e : ℕ) (pos : Option ℕ) (en : Entry) : Prop :=
  AgreesBelow K en ∧ ∀ s, pos = some s → Ahead (fun _ => False) l₀ e s en

theorem pieceKeeps_sending {m : OrdMap ℕ ByteRange} {seg : DataSeg} {e K : ℕ} (he : e ≤ K) :
    PieceKeeps m .sent seg e (StartsClean (fun _ => False) m.entries)
      (SendsCleanly K m.entries e) where
  next l s s' hl := startsClean_next fun en hen => (hl en hen).2 s rfl
  old s next en h hnext := ⟨h.1, fun s' hs' => (h.2 s rfl).later (hnext s' hs').1.le⟩
  piece l s level next en hwf hkeys hlt hstart hl hnext hpiece := by
    have hahead : ∀ en ∈ l, Ahead (fun _ => False) m.entries e s en := fun en hen => (hl en hen).2 s rfl
    have hbound := hpiece.key_le hlt he fun o ho => (hl o ho).1.1
    have hnocut : (∀ o ∈ l, o.1 ≠ s) → ∀ en ∈ l, ¬en.2.Inside s := fun hfree en hen =>
      cut_of_startsClean hstart hkeys hahead hfree hen
    have hahead' : ∀ s', next = some s' → Ahead (fun _ => False) m.entries e s' en := fun s' hs =>
      hpiece.ahead le_rfl hstart hahead hs (hnext s' hs).1 (hnext s' hs).2
    -- the cuts cannot happen: no range lies around the start or the end of the data
    cases hpiece with
    | fresh hitype hsize => exact ⟨⟨hbound, agrees_freshRange seg s e⟩, hahead'⟩
    | whole r hmem hend =>
        have hr := (hl _ hmem).1.2
        have hsent : Agrees (recordFound seg level (thisIsRdbData seg s) .sent r) :=
          hr.recordSentFound seg level _
        exact ⟨⟨hbound, hsent.wholeRange seg level s⟩, hahead'⟩
    | span r hmem hbytes hend =>
        have hr := (hl _ hmem).1.2
        exact ⟨⟨hbound, hr.recordSentFound seg level _⟩, hahead'⟩
    | reuse r c hmem hitype hempty hlo hhi hsize hafter =>
        have hr := (hl _ hmem).1.2
        exact ⟨⟨hbound, hr.reusedRange seg s c⟩, hahead'⟩
    | front r hmem hend | frontRest r hmem hend =>
        have hr : s = r.startSeq := (hwf _ hmem).1
        exact absurd ⟨hr ▸ hlt, hend⟩ (hahead _ hmem).last
    | middle key r hfree hmem hkey hend | middleRest key r hfree hmem hkey hend =>
        have hr : key = r.startSeq := (hwf _ hmem).1
        exact absurd ⟨hr ▸ hkey, hlt.trans hend⟩ (hnocut hfree _ hmem)
    | cutHead key r next hfree hmem hkey hlo =>
        have hr : key = r.startSeq := (hwf _ hmem).1
        exact absurd ⟨hr ▸ hkey, hlo⟩ (hnocut hfree _ hmem)
    | back key r hfree hmem hkey hlo hend | beyond key r hfree hmem hkey hlo hend =>
        have hr : key = r.startSeq := (hwf _ hmem).1
        exact absurd ⟨hr ▸ hkey, hlo⟩ (hnocut hfree _ hmem)

/-! ## Received data -/

/-- The next received copy of the range is its last. -/
def LastCopy (r : ByteRange) : Prop := sentCount r = recvCount r + 1

instance : DecidablePred LastCopy := fun r =>
  inferInstanceAs (Decidable (sentCount r = recvCount r + 1))

/-- During the insertion of received data: the ranges ahead wait for the timestamp. -/
def Receives (K : ℕ) (l₀ : List Entry) (e stamp : ℕ) (pos : Option ℕ) (en : Entry) : Prop :=
  AgreesBelow K en ∧ ∀ s, pos = some s → Ahead LastCopy l₀ e s en ∧
    (s ≤ en.2.startSeq → en.2.startSeq < e → en.2.Awaits stamp)

theorem pieceKeeps_receives {m : OrdMap ℕ ByteRange} {seg : DataSeg} {e K : ℕ} (he : e ≤ K) :
    PieceKeeps m .recv seg e (StartsClean LastCopy m.entries)
      (Receives K m.entries e seg.tstampTcp) where
  next l s s' hl := startsClean_next fun en hen => ((hl en hen).2 s rfl).1
  old s next en h hnext := by
    refine ⟨h.1, fun s' hs' => ?_⟩
    obtain ⟨hahead, hawaits⟩ := h.2 s rfl
    have hle := (hnext s' hs').1.le
    exact ⟨hahead.later hle, fun hlo => hawaits (hle.trans hlo)⟩
  piece l s level next en hwf hkeys hlt hstart hl hnext hpiece := by
    have hahead : ∀ en ∈ l, Ahead LastCopy m.entries e s en := fun en hen => ((hl en hen).2 s rfl).1
    have hawaits : ∀ r, (s, r) ∈ l → r.Awaits seg.tstampTcp := by
      intro r hmem
      have hr : s = r.startSeq := (hwf _ hmem).1
      exact ((hl _ hmem).2 s rfl).2 hr.le (hr ▸ hlt)
    have hbound := hpiece.key_le hlt he fun o ho => (hl o ho).1.1
    have hcut : (∀ o ∈ l, o.1 ≠ s) → ∀ en ∈ l, en.2.Inside s → LastCopy en.2 := fun hfree en hen =>
      cut_of_startsClean hstart hkeys hahead hfree hen
    have hahead' : ∀ s', next = some s' → Ahead LastCopy m.entries e s' en := fun s' hs =>
      hpiece.ahead le_rfl hstart hahead hs (hnext s' hs).1 (hnext s' hs).2
    -- the part behind a cut keeps the counts but not the list, so this must be the last copy
    cases hpiece with
    | fresh hitype | reuse r c hmem hitype => cases hitype
    | whole r hmem hend =>
        have hr := (hl _ hmem).1.2
        have hrecv : Agrees (recordFound seg level (thisIsRdbData seg s) .recv r) :=
          hr.recordRecv seg level (hawaits r hmem)
        exact ⟨⟨hbound, hrecv.wholeRange seg level s⟩, fun s' hs => (nomatch hs)⟩
    | span r hmem hbytes hend =>
        have hr := (hl _ hmem).1.2
        refine ⟨⟨hbound, hr.recordRecv seg level (hawaits r hmem)⟩,
          fun s' hs => ⟨hahead' s' hs, fun h => ?_⟩⟩
        have hlt' := (hnext s' hs).1
        have hstart' : s = r.startSeq := (hwf _ hmem).1
        rw [recordFound_startSeq] at h
        omega
    | front r hmem hend | frontRest r hmem hend =>
        have hr : s = r.startSeq := (hwf _ hmem).1
        exact absurd ⟨hr ▸ hlt, hend⟩ (hahead _ hmem).last
    | middle key r hfree hmem hkey hend | middleRest key r hfree hmem hkey hend =>
        have hr : key = r.startSeq := (hwf _ hmem).1
        exact absurd ⟨hr ▸ hkey.trans hlt, hend⟩ (hahead _ hmem).last
    | cutHead key r next hfree hmem hkey hlo =>
        have hr : key = r.startSeq := (hwf _ hmem).1
        refine ⟨⟨(hl _ hmem).1.1, (hl _ hmem).1.2.head s⟩,
          fun s' hs => ⟨hahead' s' hs, fun h => ?_⟩⟩
        have hlt' := (hnext s' hs).1
        have hstart' : s' ≤ r.startSeq := h
        omega
    | back key r hfree hmem hkey hlo hend =>
        have hr : key = r.startSeq := (hwf _ hmem).1
        have hlast : LastCopy r := hcut hfree _ hmem ⟨hr ▸ hkey, hlo⟩
        refine ⟨⟨hlt.le.trans he, ?_⟩, fun s' hs => (nomatch hs)⟩
        refine agrees_recordRecv_tail seg level ?_ ?_
        · exact finSet_blind seg _ fun _ _ => rfl
        · have hfin : ∀ f : ByteRange → ℕ, (∀ r c, f { r with fin := c } = f r) →
              f (finSet seg (r.tail s)) = f (r.tail s) := fun f hf => finSet_blind seg _ hf
          rw [hfin sentCount fun _ _ => rfl, hfin recvCount fun _ _ => rfl]
          exact hlast
    | beyond key r hfree hmem hkey hlo hend =>
        have hr : key = r.startSeq := (hwf _ hmem).1
        have hlast : LastCopy r := hcut hfree _ hmem ⟨hr ▸ hkey, hlo⟩
        refine ⟨⟨hlt.le.trans he, agrees_recordRecv_tail seg level rfl hlast⟩,
          fun s' hs => ⟨hahead' s' hs, fun h => ?_⟩⟩
        have hlt' := (hnext s' hs).1
        rw [recordSplit_startSeq] at h
        have hstart' : s' ≤ s := h
        omega

/-! ## Packets without payload and ACKs -/

/-- A packet without payload that is no pure ACK makes a range on which one copy is sent and listed. -/
theorem agrees_emptyRange (seg : DataSeg) (rdb : Bool) (q : ℕ) (h : seg.noFlags = false) :
    Agrees (emptyRange seg rdb q) := by
  unfold emptyRange
  rw [h, if_neg Bool.false_ne_true]
  exact Agrees.recordSent seg rdb ⟨rfl, fun l hl => (nomatch hl)⟩ (by simp) (by simp)

theorem Agrees.recordEmpty_sent {r : ByteRange} (seg : DataSeg) (rdb : Bool) (h : Agrees r)
    (hflags : (seg.syn || seg.fin) = true) : Agrees (recordEmpty seg .sent 0 rdb r) := by
  unfold recordEmpty
  dsimp only
  rw [if_pos hflags]
  have hmarked : Agrees { r with syn := r.syn + seg.syn.toNat, fin := r.fin + seg.fin.toNat } :=
    h.congr rfl rfl rfl rfl
  exact hmarked.recordSent seg rdb (by simp) (by simp)

theorem Agrees.recordEmpty_recv {r : ByteRange} (seg : DataSeg) (rdb : Bool) (h : Agrees r)
    (hawaits : (seg.syn || seg.fin) = true → r.Awaits seg.tstampTcp) :
    Agrees (recordEmpty seg .recv 0 rdb r) := by
  unfold recordEmpty
  dsimp only
  rw [if_pos rfl]
  by_cases hflags : (seg.syn || seg.fin) = true
  · rw [if_pos hflags]
    exact (h.increaseReceived (hawaits hflags) seg.tstampPcap seg.inSequence).congr rfl rfl rfl rfl
  · rw [if_neg hflags]
    exact h.congr rfl rfl rfl rfl

/-- What the sender trace may hold: no pure ACK, no RST on an existing range, and no packet or ACK
whose number lies inside a range. -/
def KeepsLost (rm : RangeManager) : SenderEvent → Prop
  | .sent sd =>
      if sd.data.payloadSize = 0 then
        sd.data.noFlags = false ∧
          ((sd.data.syn || sd.data.fin) = true ∨ rm.ranges.find? sd.data.seq = none)
      else CutsClean (fun _ => False) rm.ranges.entries sd.data.seq sd.data.endSeq
  | .ack seg => ∀ o ∈ rm.ranges.entries, ¬o.2.Inside seg.ack

instance (rm : RangeManager) : (ev : SenderEvent) → Decidable (KeepsLost rm ev)
  | .sent sd => inferInstanceAs (Decidable (if sd.data.payloadSize = 0 then _ else _))
  | .ack seg => inferInstanceAs (Decidable (∀ o ∈ rm.ranges.entries, ¬o.2.Inside seg.ack))

/-- What the receiver trace may hold: every range that the packet starts in carries its timestamp
among the lost ones, no segment ends inside a range, one that starts inside a range is the last
copy of it, and a pure ACK was registered. -/
def KeepsReceived (rm : RangeManager) (sd : SendData) : Prop :=
  if sd.data.seq = sd.data.endSeq then
    if (sd.data.syn || sd.data.fin) = true then
      ∀ o ∈ rm.ranges.entries, o.1 = sd.data.seq → o.2.Awaits sd.data.tstampTcp
    else
      sd.data.noFlags = true →
        (rm.ranges.find? (rm.emptySeq (receivedSeg sd) sd.data.seq)).isSome = true
  else
    CutsClean LastCopy rm.ranges.entries sd.data.seq sd.data.endSeq ∧
      ∀ o ∈ rm.ranges.entries, sd.data.seq ≤ o.2.startSeq → o.2.startSeq < sd.data.endSeq →
        o.2.Awaits sd.data.tstampTcp

instance (rm : RangeManager) (sd : SendData) : Decidable (KeepsReceived rm sd) := by
  unfold KeepsReceived
  infer_instance

theorem emptyKeeps_sent_agrees {rm : RangeManager} {seg : DataSeg} {K : ℕ} (hs : seg.seq ≤ K)
    (hflags : seg.noFlags = false)
    (hnew : (seg.syn || seg.fin) = true ∨ rm.ranges.find? seg.seq = none) :
    EmptyKeeps .sent seg rm (AgreesBelow K) := by
  have hq : rm.emptySeq seg seg.seq = seg.seq := emptySeq_of_noFlags seg.seq hflags
  constructor
  · rw [hq]
    exact fun _ => ⟨hs, agrees_emptyRange seg _ _ hflags⟩
  · rw [hq]
    intro r hr h
    refine ⟨hs, ?_⟩
    rcases hnew with hnew | hnew
    · exact h.2.recordEmpty_sent seg _ hnew
    · exact absurd rfl (OrdMap.find?_eq_none_iff.mp hnew _ hr)

theorem Agrees.ackExact {r : ByteRange} (h : Agrees r) (seg : DataSeg) (b : Bool) :
    Agrees (ackExact seg b r) := by
  refine h.congr ?_ ?_ ?_ ?_ <;>
    exact ackExact_blind seg r _ b (fun _ _ => rfl) (fun _ _ => rfl) (fun _ => rfl) (fun _ => rfl)
      fun _ _ => rfl

theorem Agrees.markAcked {r : ByteRange} (h : Agrees r) (seg : DataSeg) :
    Agrees (markAcked seg r) := by
  unfold RangeManager.markAcked
  split
  · exact h
  · exact h.congr rfl rfl rfl rfl

theorem inside_congr {r r' : ByteRange} {p : ℕ} (hstart : r'.startSeq = r.startSeq)
    (hend : r'.endSeq = r.endSeq) : r'.Inside p ↔ r.Inside p := by
  unfold ByteRange.Inside
  rw [hstart, hend]

/-- An ACK that cuts no range. -/
theorem ackKeeps_agrees (l : List Entry) (seg : DataSeg) (K : ℕ) :
    AckKeeps l seg fun en => AgreesBelow K en ∧ ¬en.2.Inside seg.ack where
  exact _ r b h := by
    refine ⟨⟨h.1.1, h.1.2.ackExact seg b⟩, ?_⟩
    rw [inside_congr (ackExact_startSeq seg r b) (ackExact_endSeq seg r b)]
    exact h.2
  mark _ r h := by
    refine ⟨⟨h.1.1, h.1.2.markAcked seg⟩, ?_⟩
    rw [inside_congr (markAcked_startSeq seg r) (markAcked_endSeq seg r)]
    exact h.2
  count _ _ h := ⟨⟨h.1.1, h.1.2.congr rfl rfl rfl rfl⟩, h.2⟩
  part _ _ _ _ hlo hhi h := absurd ⟨hlo, hhi⟩ h.2

theorem senderStep_agrees {rm rm' : RangeManager} {ev : SenderEvent} {K : ℕ}
    (hwf : WfEntries rm.ranges.entries) (hinv : ∀ en ∈ rm.ranges.entries, AgreesBelow K en)
    (hsized : ev.Sized) (hbelow : ev.Below K) (hok : KeepsLost rm ev)
    (h : senderStep rm ev = .ok rm') :
    WfEntries rm'.ranges.entries ∧ ∀ en ∈ rm'.ranges.entries, AgreesBelow K en := by
  cases ev with
  | sent sd =>
      have hsd : Sized sd := hsized
      have hend : sd.data.endSeq ≤ K := hbelow
      have hseq : sd.data.seq ≤ K := by
        have := hsd.size
        omega
      rw [KeepsLost] at hok
      refine insertSentRange_forall (G := StartsClean (fun _ => False) rm.ranges.entries)
        (Q := SendsCleanly K rm.ranges.entries sd.data.endSeq) hsd ?_ ?_ (fun en h => h.1) hwf hinv h
      · intro hsize
        rw [if_pos hsize] at hok
        exact emptyKeeps_sent_agrees hseq hok.1 hok.2
      · intro hsize
        rw [if_neg hsize] at hok
        refine ⟨pieceKeeps_sending hend, hok.2.1, fun en hen => ⟨hinv en hen, fun s hs => ?_⟩⟩
        rw [← Option.some.inj hs]
        exact hok.ahead hen
  | ack seg =>
      have hno : ∀ o ∈ rm.ranges.entries, ¬o.2.Inside seg.ack := hok
      obtain ⟨-, hwf', hP⟩ := ackStep_forall (ackKeeps_agrees _ seg K) hwf
        (fun en hen => ⟨hinv en hen, hno en hen⟩) h
      exact ⟨hwf', fun en hen => (hP en hen).1⟩

theorem emptyKeeps_recv_agrees {rm : RangeManager} {seg : DataSeg} {K : ℕ} (hs : seg.seq ≤ K)
    (hkeys : ∀ en ∈ rm.ranges.entries, en.1 ≤ K)
    (hawaits : (seg.syn || seg.fin) = true →
      ∀ o ∈ rm.ranges.entries, o.1 = seg.seq → o.2.Awaits seg.tstampTcp)
    (hack : (seg.syn || seg.fin) = false → seg.noFlags = true →
      (rm.ranges.find? (rm.emptySeq seg seg.seq)).isSome = true) :
    EmptyKeeps .recv seg rm (AgreesBelow K) := by
  have hq : rm.emptySeq seg seg.seq ≤ K := emptySeq_le hs hkeys
  constructor
  · intro hnone
    refine ⟨hq, agrees_emptyRange seg _ _ ?_⟩
    -- a pure ACK always finds a range
    by_contra hno
    have hflags : seg.noFlags = true := by simpa using hno
    have hneither : (seg.syn || seg.fin) = false := by
      unfold DataSeg.noFlags at hflags
      simp only [Bool.and_eq_true, Bool.not_eq_true'] at hflags
      simp [hflags.1.1, hflags.1.2]
    have hsome := hack hneither hflags
    rw [hnone] at hsome
    cases hsome
  · intro r hr h
    refine ⟨hq, h.2.recordEmpty_recv seg (thisIsRdbData seg seg.seq) fun hflags => ?_⟩
    have hsf : seg.syn = true ∨ seg.fin = true := by simpa using hflags
    rw [emptySeq_of_noFlags seg.seq (noFlags_of_flags hsf)] at hr
    exact hawaits hflags (seg.seq, r) hr rfl

theorem insertReceivedRange_agrees {rm rm' : RangeManager} {sd : SendData} {K : ℕ}
    (hwf : WfEntries rm.ranges.entries) (hinv : ∀ en ∈ rm.ranges.entries, AgreesBelow K en)
    (hle : sd.data.seq ≤ sd.data.endSeq) (hend : sd.data.endSeq ≤ K) (hok : KeepsReceived rm sd)
    (h : rm.insertReceivedRange sd = .ok rm') :
    WfEntries rm'.ranges.entries ∧ ∀ en ∈ rm'.ranges.entries, AgreesBelow K en := by
  unfold KeepsReceived at hok
  refine insertReceivedRange_forall (G := StartsClean LastCopy rm.ranges.entries)
    (Q := Receives K rm.ranges.entries sd.data.endSeq sd.data.tstampTcp) hle
    ?_ ?_ (fun en h => h.1) hwf hinv h
  · intro heq
    rw [if_pos heq] at hok
    have hseq : (receivedSeg sd).seq ≤ K := hle.trans hend
    refine emptyKeeps_recv_agrees hseq (fun en hen => (hinv en hen).1) ?_ ?_
    · intro hflags
      have hflags' : (sd.data.syn || sd.data.fin) = true := hflags
      rw [if_pos hflags'] at hok
      exact hok
    · intro hflags
      have hflags' : (sd.data.syn || sd.data.fin) = false := hflags
      rw [hflags', if_neg Bool.false_ne_true] at hok
      exact hok
  · intro hlt
    rw [if_neg hlt.ne] at hok
    refine ⟨pieceKeeps_receives hend, hok.1.2.1, fun en hen => ⟨hinv en hen, fun s hs => ?_⟩⟩
    rw [← Option.some.inj hs]
    exact ⟨hok.1.ahead hen, hok.2 en hen⟩

/-! ## Runs -/

/-- In every run whose packets meet the two conditions, the interval losses add up to the loss
totals, and both are zero when every range was received as often as it was sent. -/
theorem calculateLossGroupedByInterval_run_agrees {firstSeq : ℕ} {evs : List SenderEvent}
    {rcvd : List SendData} {rm rm' : RangeManager} (hsized : ∀ ev ∈ evs, ev.Sized)
    (hbelow : ∀ ev ∈ evs, ev.Below maxSeq)
    (hsent : Run.Steps senderStep KeepsLost (new firstSeq) evs)
    (hrun : Run.run senderStep (new firstSeq) evs = .ok rm)
    (hrcvd : ∀ sd ∈ rcvd, sd.data.seq ≤ sd.data.endSeq ∧ sd.data.endSeq ≤ maxSeq)
    (hrecv : Run.Steps insertReceivedRange KeepsReceived rm rcvd)
    (hrun' : Run.run insertReceivedRange rm rcvd = .ok rm')
    (hfits : ∀ en ∈ rm'.ranges.entries,
      en.2.dataSentCount.Fits ∧ en.2.dataReceivedCount.Fits)
    (lossAggrMs : ℕ) (firstTstamp : ℤ) (allLoss : List LossInterval) :
    ∃ allLoss' loss',
      calculateLossGroupedByInterval lossAggrMs firstTstamp rm'.ranges.entries allLoss [] =
        .ok (allLoss', loss') ∧
      (loss'.map LossInterval.cntBytes).sum =
        (calculateRealLoss true rm'.ranges.entries).analysedLostRangesCount ∧
      (loss'.map LossInterval.allBytes).sum =
        (calculateRealLoss true rm'.ranges.entries).analysedLostBytes ∧
      ((∀ en ∈ rm'.ranges.entries, en.2.dataReceivedCount.val = en.2.dataSentCount.val) →
        (loss'.map LossInterval.cntBytes).sum = 0 ∧ (loss'.map LossInterval.allBytes).sum = 0) := by
  have hevs : Run.Steps senderStep (fun rm ev => KeepsLost rm ev ∧ ev.Sized ∧ ev.Below maxSeq)
      (new firstSeq) evs := hsent.and_forall fun ev hev => ⟨hsized ev hev, hbelow ev hev⟩
  have hfirst : WfEntries rm.ranges.entries ∧ ∀ en ∈ rm.ranges.entries, AgreesBelow maxSeq en :=
    Run.invariant (d := [])
      (I := fun rm _ => WfEntries (RangeManager.ranges rm).entries ∧
        ∀ en ∈ (RangeManager.ranges rm).entries, AgreesBelow maxSeq en)
      (fun rm ev rm' _ hinv hev hstep =>
        senderStep_agrees hinv.1 hinv.2 hev.2.1 hev.2.2 hev.1 hstep)
      ⟨wfEntries_nil, fun en hen => absurd hen List.not_mem_nil⟩ hevs hrun
  obtain ⟨hwf, hinv⟩ : WfEntries rm'.ranges.entries ∧
      ∀ en ∈ rm'.ranges.entries, AgreesBelow maxSeq en :=
    Run.invariant (d := [])
      (I := fun rm _ => WfEntries (RangeManager.ranges rm).entries ∧
        ∀ en ∈ (RangeManager.ranges rm).entries, AgreesBelow maxSeq en)
      (fun rm sd rm' _ hinv hsd hstep =>
        insertReceivedRange_agrees hinv.1 hinv.2 hsd.2.1 hsd.2.2 hsd.1 hstep)
      hfirst (hrecv.and_forall hrcvd) hrun'
  -- no counter wraps, so the list of a range is as long as its missing copies
  have hcount : ∀ en ∈ rm'.ranges.entries,
      en.2.lostTstampsTcp.length + en.2.dataReceivedCount.val = en.2.dataSentCount.val := by
    intro en hen
    rw [Counter.val_of_fits (hfits en hen).1, Counter.val_of_fits (hfits en hen).2]
    exact (hinv en hen).2.count
  have hle : ∀ en ∈ rm'.ranges.entries, en.2.dataReceivedCount.val ≤ en.2.dataSentCount.val := by
    intro en hen
    have := hcount en hen
    omega
  have hcopies : ∀ en ∈ rm'.ranges.entries, en.2.lostTstampsTcp.length = lostCopies en.2 := by
    intro en hen
    have := hcount en hen
    unfold lostCopies
    omega
  obtain ⟨hlost, hlostBytes, -, -⟩ :=
    calculateRealLoss_lost hwf (fun en hen => (hinv en hen).1) hle
  obtain ⟨allLoss', loss', hcalc, hcnt, hbytes⟩ := calculateLossGroupedByInterval_sum lossAggrMs
    firstTstamp allLoss fun en hen => (hinv en hen).2.sent
  refine ⟨allLoss', loss', hcalc, ?_, ?_, fun hall => ?_⟩
  · rw [hcnt, hlost]
    congr 1
    exact List.map_congr_left hcopies
  · rw [hbytes, hlostBytes]
    congr 1
    apply List.map_congr_left
    intro en hen
    rw [hcopies en hen, Nat.mul_comm]
  · have hnone : ∀ en ∈ rm'.ranges.entries, en.2.lostTstampsTcp.length = 0 := by
      intro en hen
      have := hcount en hen
      have := hall en hen
      omega
    rw [hcnt, hbytes, List.sum_eq_zero_iff_forall_eq_nat, List.sum_eq_zero_iff_forall_eq_nat,
      List.forall_mem_map, List.forall_mem_map]
    refine ⟨hnone, fun en hen => ?_⟩
    rw [hnone en hen, Nat.mul_zero]

/-- A segment and its retransmission with another timestamp, of which the second arrives. -/
theorem calculateLossGroupedByInterval_run_agrees_retransmitted :
    ∃ rm rm' allLoss' loss',
      Run.run senderStep (new 0)
        [.sent fourBytes, .sent { data := { fourBytes.data with tstampTcp := 9 } }] = .ok rm ∧
      Run.run insertReceivedRange rm [{ data := { fourBytes.data with tstampTcp := 9 } }] =
        .ok rm' ∧
      calculateLossGroupedByInterval 1000 0 rm'.ranges.entries [] [] = .ok (allLoss', loss') ∧
      (loss'.map LossInterval.cntBytes).sum =
        (calculateRealLoss true rm'.ranges.entries).analysedLostRangesCount := by
  have hall : ((Run.run senderStep (new 0)
      [.sent fourBytes, .sent { data := { fourBytes.data with tstampTcp := 9 } }]).toOption.any
      fun rm => decide (Run.Steps insertReceivedRange KeepsReceived rm
        [{ data := { fourBytes.data with tstampTcp := 9 } }]) &&
      (Run.run insertReceivedRange rm
        [{ data := { fourBytes.data with tstampTcp := 9 } }]).toOption.any fun rm' =>
        decide (∀ en ∈ rm'.ranges.entries,
          en.2.dataSentCount.Fits ∧ en.2.dataReceivedCount.Fits)) = true := by decide
  obtain ⟨rm, hrun, hall⟩ := Run.exists_of_any_toOption hall
  rw [Bool.and_eq_true, decide_eq_true_eq] at hall
  obtain ⟨rm', hrun', hfits⟩ := Run.exists_of_any_toOption hall.2
  obtain ⟨allLoss', loss', hcalc, hcnt, -⟩ := calculateLossGroupedByInterval_run_agrees (by decide)
    (by decide) (by decide) hrun (by decide) hall.1 hrun' (of_decide_eq_true hfits) 1000 0 []
  exact ⟨rm, rm', allLoss', loss', hrun, hrun', hcalc, hcnt⟩

/-- One pure ACK. -/
def pureAck : SendData := { data := { tstampTcp := 7 } }

/-- The interval losses count the pure ACK although it was received. -/
theorem calculateLossGroupedByInterval_counts_pure_ack :
    ∃ rm rm' allLoss' loss', Run.run senderStep (new 0) [.sent pureAck] = .ok rm ∧
      Run.run insertReceivedRange rm [pureAck] = .ok rm' ∧
      calculateLossGroupedByInterval 1000 0 rm'.ranges.entries [] [] = .ok (allLoss', loss') ∧
      (loss'.map LossInterval.cntBytes).sum = 1 ∧
      (calculateRealLoss true rm'.ranges.entries).analysedLostRangesCount = 0 := by
  have hall : ((Run.run senderStep (new 0) [.sent pureAck]).toOption.any fun rm =>
      (Run.run insertReceivedRange rm [pureAck]).toOption.any fun rm' =>
        (calculateLossGroupedByInterval 1000 0 rm'.ranges.entries [] []).toOption.any fun res =>
          decide ((res.2.map LossInterval.cntBytes).sum = 1 ∧
            (calculateRealLoss true rm'.ranges.entries).analysedLostRangesCount = 0)) = true := by
    decide
  obtain ⟨rm, hrun, hall⟩ := Run.exists_of_any_toOption hall
  obtain ⟨rm', hrun', hall⟩ := Run.exists_of_any_toOption hall
  obtain ⟨⟨allLoss', loss'⟩, hcalc, hall⟩ := Run.exists_of_any_toOption hall
  exact ⟨rm, rm', allLoss', loss', hrun, hrun', hcalc, of_decide_eq_true hall⟩

end RangeManager

end AnalyseTCP
