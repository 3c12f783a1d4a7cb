import AnalyseTCP.SendAckTimes

/-!
# Duplicate ACKs

An ACK that ends with a range leaves the cursor on that range, and each repetition finds it there
and counts.  An ACK that cuts a range leaves the cursor on the new range behind the cut: each
repetition is old data for it, and the backward scan increases `ack_count` only.
-/

namespace AnalyseTCP

namespace RangeManager

/-- The first ACK acknowledges the data of `r` up to `ack`, which was not acknowledged. -/
structure NewlyAcks (rm rm₁ : RangeManager) (ack key : ℕ) (r : ByteRange) : Prop where
  mem : (key, r) ∈ rm.ranges.entries
  lo : r.startSeq < ack
  hi : ack ≤ r.endSeq
  unacked : r.acked = false
  acked : ∃ en ∈ rm₁.ranges.entries,
    en.2.startSeq < ack ∧ ack ≤ en.2.endSeq ∧ en.2.acked = true

/-- After the repetitions `segs`, the data that ends at `ack` has counted each of them. -/
def CountsDupacks (rm₁ : RangeManager) (ack : ℕ) (segs : List DataSeg) : Prop :=
  ∃ rm', Run.run ackStep rm₁ segs = .ok rm' ∧ ∀ en ∈ rm'.ranges.entries,
    en.2.startSeq < ack → en.2.endSeq = ack → en.2.dupackCount.val = segs.length

section Ranges

variable (seg : DataSeg) (r : ByteRange)

/-- The first ACK on data counts no duplicate. -/
theorem ackExact_first (b : Bool) (hacked : r.acked = false) (hbytes : r.byteCount ≠ 0) :
    (ackExact seg b r).acked = true ∧ (ackExact seg b r).tcpWindow = seg.window ∧
      (ackExact seg b r).dupackCount = r.dupackCount := by
  cases hsacks : seg.sacks with
  | false => simp [ackExact, hsacks, hacked, hbytes, ByteRange.insertAckTime]
  | true =>
      simp [ackExact, hsacks, hacked, hbytes, ByteRange.insertAckTime, ByteRange.registerSacks]

/-- A repetition under the cursor counts. -/
theorem ackExact_again (hacked : r.acked = true) (hw : 0 < seg.window)
    (hwindow : r.tcpWindow = seg.window) :
    (ackExact seg true r).acked = true ∧ (ackExact seg true r).tcpWindow = seg.window ∧
      (ackExact seg true r).dupackCount = r.dupackCount + 1 := by
  cases hsacks : seg.sacks with
  | false => simp [ackExact, hsacks, hacked, hw, hwindow]
  | true => simp [ackExact, hsacks, hacked, hw, hwindow, ByteRange.registerSacks]

end Ranges

/-! ## The first ACK -/

section First

variable {seg : DataSeg} {c c' : Option ℕ} {l l' : List Entry} {key : ℕ} {r : ByteRange}

/-- A map that keeps the unacknowledged range does not newly acknowledge its data. -/
theorem not_acked_of_mem (hsep : Separated l) (hmem : (key, r) ∈ l) (hlo : r.startSeq < seg.ack)
    (hhi : seg.ack ≤ r.endSeq) (hunacked : r.acked = false) :
    ¬∃ en ∈ l, en.2.startSeq < seg.ack ∧ seg.ack ≤ en.2.endSeq ∧ en.2.acked = true := by
  rintro ⟨en, hen, hlo', hhi', hacked⟩
  have hholds : en.2.Holds (seg.ack - 1) := ⟨by omega, by omega⟩
  have hrholds : r.Holds (seg.ack - 1) := ⟨by omega, by omega⟩
  have heq : en = (key, r) := eq_of_holds hsep hen hmem hholds hrholds
  rw [heq] at hacked
  rw [hunacked] at hacked
  cases hacked

/-- Newly acknowledged data was met exactly, or cut. -/
theorem AckPass.newly_acks (hpass : AckPass seg c l c' l') (hwf : WfEntries l)
    (hsorted : l.Pairwise fun a b => a.1 < b.1) (hsep : Separated l) (hack : seg.ack < 2 ^ 64)
    (hmem : (key, r) ∈ l) (hlo : r.startSeq < seg.ack) (hhi : seg.ack ≤ r.endSeq)
    (hunacked : r.acked = false)
    (hacked : ∃ en ∈ l', en.2.startSeq < seg.ack ∧ seg.ack ≤ en.2.endSeq ∧ en.2.acked = true) :
    (r.endSeq = seg.ack ∧ c' = some key ∧ ∃ b, (key, ackExact seg b r) ∈ l') ∨
      (seg.ack < r.endSeq ∧ c' = some seg.ack ∧ ∃ l₁ l₂, l' = l₁ ++
        (key, ackPart seg (r.head seg.ack)) :: (seg.ack, r.tail seg.ack) :: l₂) := by
  induction hpass with
  | done | late | old => exact absurd hacked (not_acked_of_mem hsep hmem hlo hhi hunacked)
  | exact c key' x rest hexact =>
      obtain ⟨hkey', hx⟩ : key' = x.startSeq ∧ x.Wf := (wfEntries_cons.mp hwf).1
      have hsize := hx.size
      rcases List.mem_cons.mp hmem with heq | hrest
      · obtain ⟨rfl, rfl⟩ := Prod.mk.inj heq
        left
        refine ⟨?_, rfl, _, List.mem_cons_self⟩
        rcases hexact with hend | ⟨hbytes, -⟩
        · exact hend.symm
        · omega
      · -- a range before the data ends too low, unless it has no bytes and the same start
        have hle : x.endSeq ≤ r.startSeq := (separated_cons.mp hsep).1 _ hrest
        have hkey : key = r.startSeq := (hwf _ hmem).1
        have hlt : key' < key := List.rel_of_pairwise_cons hsorted hrest
        rcases hexact with hend | ⟨hbytes, hend⟩
        · omega
        · rw [sub64_eq_sub (by omega) (by omega)] at hend
          omega
  | pass c c' key' x rest rest' hend hpass ih =>
      have hrest : (key, r) ∈ rest := by
        rcases List.mem_cons.mp hmem with heq | hrest
        · obtain ⟨rfl, rfl⟩ := Prod.mk.inj heq
          omega
        · exact hrest
      have hacked' : ∃ en ∈ rest', en.2.startSeq < seg.ack ∧ seg.ack ≤ en.2.endSeq ∧
          en.2.acked = true := by
        obtain ⟨en, hen, hbounds⟩ := hacked
        rcases List.mem_cons.mp hen with rfl | hen
        · have hend' : seg.ack ≤ (markAcked seg x).endSeq := hbounds.2.1
          rw [markAcked_endSeq] at hend'
          omega
        · exact ⟨en, hen, hbounds⟩
      rcases ih (wfEntries_cons.mp hwf).2 (List.pairwise_cons.mp hsorted).2
        (separated_cons.mp hsep).2 hrest hacked' with ⟨hr, hc, b, hb⟩ | ⟨hr, hc, l₁, l₂, hl⟩
      · exact .inl ⟨hr, hc, b, List.mem_cons_of_mem _ hb⟩
      · exact .inr ⟨hr, hc, (key', markAcked seg x) :: l₁, l₂, by rw [hl]; rfl⟩
  | split c key' x rest hlo' hhi' =>
      rcases List.mem_cons.mp hmem with heq | hrest
      · obtain ⟨rfl, rfl⟩ := Prod.mk.inj heq
        exact .inr ⟨hhi', rfl, [], rest, rfl⟩
      · have hle : x.endSeq ≤ r.startSeq := (separated_cons.mp hsep).1 _ hrest
        omega

end First

/-! ## The repetitions -/

/-- The cursor is on the acknowledged range `r` that ends at `ack`. -/
structure CursorEnds (rm : RangeManager) (ack window key : ℕ) (r : ByteRange) : Prop where
  cursor : rm.highestAckedByteRangeIt = some key
  mem : (key, r) ∈ rm.ranges.entries
  lo : r.startSeq < ack
  ends : r.endSeq = ack
  acked : r.acked = true
  window : r.tcpWindow = window

/-- The cursor is on the range `newBr` that the ACK cut off from `r`. -/
structure CursorBehind (rm : RangeManager) (ack key : ℕ) (r newBr : ByteRange) : Prop where
  cursor : rm.highestAckedByteRangeIt = some ack
  cut : ∃ pre post, rm.ranges.entries = pre ++ (key, r) :: (ack, newBr) :: post
  lo : r.startSeq < ack
  ends : r.endSeq = ack
  starts : newBr.startSeq = ack
  hi : ack < newBr.endSeq
  bytes : newBr.byteCount ≠ 0

section Step

variable {rm : RangeManager} {seg : DataSeg} {key : ℕ} {r newBr : ByteRange}

theorem CursorEnds.ackStep (h : CursorEnds rm seg.ack seg.window key r) (hw : 0 < seg.window) :
    ∃ rm', ackStep rm seg = .ok rm' ∧
      CursorEnds rm' seg.ack seg.window key (ackExact seg true r) := by
  obtain ⟨pre, post, hcut⟩ := List.append_of_mem h.mem
  -- the loop starts at the range and ends there
  have hresume : rm.resume = (key, r) :: post := by
    unfold resume
    rw [h.cursor]
    exact OrdMap.atLeast_of_cut hcut
  have hexact : AckedExactly seg r := .inl h.ends.symm
  obtain ⟨hacked, hwindow, -⟩ := ackExact_again seg r h.acked hw h.window
  have hnot : ¬seg.ack < r.startSeq := h.lo.not_gt
  have hmod := OrdMap.entries_modify_of_cut hcut (ackExact seg true)
  refine ⟨{ rm with
      ackCount := rm.ackCount + 1
      ranges := rm.ranges.modify key (ackExact seg true)
      highestAckedByteRangeIt := some key }, ?_, rfl, ?_, ?_, ?_, hacked, hwindow⟩
  · unfold RangeManager.ackStep processAck
    rw [hresume]
    dsimp only
    rw [if_neg hnot, ackLoop, ackBody_exact hexact]
    dsimp only
    rw [h.cursor, decide_eq_true rfl]
    rfl
  · show _ ∈ (rm.ranges.modify key (ackExact seg true)).entries
    rw [hmod]
    exact List.mem_append_right _ List.mem_cons_self
  · rw [ackExact_startSeq]
    exact h.lo
  · rw [ackExact_endSeq]
    exact h.ends

theorem CursorBehind.ackStep (h : CursorBehind rm seg.ack key r newBr) :
    ∃ rm', ackStep rm seg = .ok rm' ∧ CursorBehind rm' seg.ack key (countAck r) newBr := by
  obtain ⟨pre, post, hcut⟩ := h.cut
  have hcut' : rm.ranges.entries = (pre ++ [(key, r)]) ++ (seg.ack, newBr) :: post := by
    rw [hcut, List.append_assoc, List.singleton_append]
  have hlo := h.lo
  have hends := h.ends
  have hstarts := h.starts
  have hhi := h.hi
  have hbelow := OrdMap.below_of_cut hcut'
  -- the loop starts at the part that was cut off, and only looks back from there
  have hresume : rm.resume = (seg.ack, newBr) :: post := by
    unfold resume
    rw [h.cursor]
    exact OrdMap.atLeast_of_cut hcut'
  have hexact : ¬AckedExactly seg newBr := by
    rintro (heq | ⟨hbytes, -⟩)
    · omega
    · exact h.bytes hbytes
  have hprev : sub64 seg.ack 1 ≠ r.endSeq := by
    unfold sub64
    omega
  have hmod := OrdMap.entries_modify_of_cut hcut countAck
  let counted : RangeManager := { rm with ackCount := rm.ackCount + 1 }
  refine ⟨counted.countAckAt key, ?_, h.cursor, ⟨pre, post, hmod⟩, hlo, hends, hstarts, hhi,
    h.bytes⟩
  have hold : counted.ackOld seg seg.ack newBr false = .ok (counted.countAckAt key, true) := by
    unfold ackOld
    rw [show counted.ranges.below seg.ack = pre ++ [(key, r)] from hbelow, List.reverse_append,
      List.reverse_singleton, List.singleton_append]
    dsimp only
    rw [findFin, if_neg hprev, Run.ok_bind, countOld, if_pos hhi, oldAckScan, if_pos hends.symm]
    rfl
  unfold RangeManager.ackStep processAck
  rw [hresume]
  dsimp only
  rw [if_neg (by omega), ackLoop, ackBody_old hexact (by omega) (by omega), hold, Run.ok_bind]
  rfl

end Step

section Repeats

variable {rm : RangeManager} {ack window key : ℕ} {r newBr : ByteRange} {segs : List DataSeg}

theorem CursorEnds.run (h : CursorEnds rm ack window key r) (hw : 0 < window)
    (hsame : ∀ s ∈ segs, s.ack = ack ∧ s.window = window) :
    ∃ rm' r', Run.run RangeManager.ackStep rm segs = .ok rm' ∧ CursorEnds rm' ack window key r' ∧
      r'.dupackCount.total = r.dupackCount.total + segs.length := by
  induction segs generalizing rm r with
  | nil => exact ⟨rm, r, rfl, h, rfl⟩
  | cons s segs ih =>
      obtain ⟨⟨rfl, rfl⟩, hsegs⟩ := List.forall_mem_cons.mp hsame
      obtain ⟨rm₁, hstep, h₁⟩ := h.ackStep hw
      obtain ⟨rm', r', hrun, h', hcount⟩ := ih h₁ hsegs
      obtain ⟨-, -, hdup⟩ := ackExact_again s r h.acked hw h.window
      refine ⟨rm', r', (Run.run_cons_ok hstep).trans hrun, h', ?_⟩
      rw [hcount, hdup, Counter.total_add, List.length_cons]
      omega

theorem CursorBehind.run (h : CursorBehind rm ack key r newBr) (hsame : ∀ s ∈ segs, s.ack = ack) :
    ∃ rm' r', Run.run RangeManager.ackStep rm segs = .ok rm' ∧ CursorBehind rm' ack key r' newBr ∧
      r'.dupackCount = r.dupackCount := by
  induction segs generalizing rm r with
  | nil => exact ⟨rm, r, rfl, h, rfl⟩
  | cons s segs ih =>
      obtain ⟨rfl, hsegs⟩ := List.forall_mem_cons.mp hsame
      obtain ⟨rm₁, hstep, h₁⟩ := h.ackStep
      obtain ⟨rm', r', hrun, h', hdup⟩ := ih h₁ hsegs
      exact ⟨rm', r', (Run.run_cons_ok hstep).trans hrun, h', hdup⟩

theorem ackStep_run_apart (hapart : rm.Apart) {rm' : RangeManager}
    (hrun : Run.run ackStep rm segs = .ok rm') : rm'.Apart :=
  Run.invariant (I := fun rm _ => rm.Apart) (d := [])
    (fun _ _ _ _ hinv _ hstep => (ackStep_apart hinv hstep).1) hapart (Run.steps_true _ _) hrun

/-- The data that ends at `ack` is one range, so it is enough to know its counter. -/
theorem countsDupacks_iff (hapart : rm.Apart) {rm' : RangeManager} {key : ℕ} {r : ByteRange}
    (hrun : Run.run ackStep rm segs = .ok rm') (hmem : (key, r) ∈ rm'.ranges.entries)
    (hlo : r.startSeq < ack) (hends : r.endSeq = ack) :
    CountsDupacks rm ack segs ↔ r.dupackCount.val = segs.length := by
  have hsep := (ackStep_run_apart hapart hrun).2
  constructor
  · rintro ⟨rm'', hrun', hcount⟩
    obtain rfl : rm' = rm'' := Except.ok.inj (hrun.symm.trans hrun')
    exact hcount _ hmem hlo hends
  · intro hcount
    refine ⟨rm', hrun, fun en hen hlo' hends' => ?_⟩
    -- both ranges hold the last byte below the ACK
    have hholds : en.2.Holds (ack - 1) := ⟨by omega, by omega⟩
    have hrholds : r.Holds (ack - 1) := ⟨by omega, by omega⟩
    have heq : en = (key, r) := eq_of_holds hsep hen hmem hholds hrholds
    rw [heq]
    exact hcount

end Repeats

/-- A backward scan leaves everything but the `ack_count` of a range. -/
theorem countAt_eq (okey : Option ℕ) (key : ℕ) (r : ByteRange) :
    ∃ r', countAt okey (key, r) = (key, r') ∧
      ∀ {α : Type} (f : ByteRange → α), (∀ r, f (countAck r) = f r) → f r' = f r := by
  unfold countAt
  split
  · exact ⟨countAck r, rfl, fun f hf => hf r⟩
  · exact ⟨r, rfl, fun _ _ => rfl⟩

/-- Where the first ACK leaves the cursor. -/
theorem ackStep_newly_acks {rm rm₁ : RangeManager} {seg : DataSeg} {key : ℕ} {r : ByteRange}
    (hapart : rm.Apart) (hack : seg.ack < 2 ^ 64) (h : ackStep rm seg = .ok rm₁)
    (hnew : NewlyAcks rm rm₁ seg.ack key r) :
    (r.endSeq = seg.ack ∧ ∃ r₁, CursorEnds rm₁ seg.ack seg.window key r₁ ∧
        r₁.dupackCount = r.dupackCount) ∨
      (seg.ack < r.endSeq ∧ ∃ r₁ newBr, CursorBehind rm₁ seg.ack key r₁ newBr ∧
        r₁.dupackCount = r.dupackCount) := by
  obtain ⟨pre, rest', okey, hp⟩ := ackStep_processed hapart.1 hapart.2 h
  obtain ⟨hwf, hsep⟩ := hapart
  have hsorted := rm.ranges.sorted
  obtain ⟨hmem, hlo, hhi, hunacked, en, hen, henlo, henhi, hacked⟩ := hnew
  have hwfr : key = r.startSeq ∧ r.Wf := hwf _ hmem
  have hsep₁ := (ackStep_apart ⟨hwf, hsep⟩ h).1.2
  -- the data is acknowledged by the loop, which starts at the cursor
  have hresume : (key, r) ∈ rm.resume := by
    rw [hp.cut] at hmem
    refine (List.mem_append.mp hmem).resolve_left fun hpre => ?_
    have hpre₁ : countAt okey (key, r) ∈ rm₁.ranges.entries := by
      rw [hp.entries]
      exact List.mem_map_of_mem (List.mem_append_left _ hpre)
    obtain ⟨r₁, heq, hsame⟩ := countAt_eq okey key r
    have hlo₁ := hsame ByteRange.startSeq (fun _ => rfl)
    have hhi₁ := hsame ByteRange.endSeq (fun _ => rfl)
    have hunacked₁ := hsame ByteRange.acked (fun _ => rfl)
    rw [heq] at hpre₁
    exact not_acked_of_mem hsep₁ hpre₁ (hlo₁ ▸ hlo) (hhi₁ ▸ hhi) (hunacked₁.trans hunacked)
      ⟨en, hen, henlo, henhi, hacked⟩
  rw [hp.cut] at hwf hsep hsorted
  have hrest : ∃ d ∈ rest', d.2.startSeq < seg.ack ∧ seg.ack ≤ d.2.endSeq ∧ d.2.acked = true := by
    rw [hp.entries] at hen
    obtain ⟨d, hd, rfl⟩ := List.mem_map.mp hen
    rw [countAt_blind (fun en => en.2.startSeq) (fun _ _ => rfl)] at henlo
    rw [countAt_blind (fun en => en.2.endSeq) (fun _ _ => rfl)] at henhi
    rw [countAt_blind (fun en => en.2.acked) (fun _ _ => rfl)] at hacked
    rcases List.mem_append.mp hd with hd | hd
    · have hle : d.2.endSeq ≤ r.startSeq := (separated_append.mp hsep).2.2 d hd _ hresume
      omega
    · exact ⟨d, hd, henlo, henhi, hacked⟩
  rcases hp.pass.newly_acks (wfEntries_append.mp hwf).2 (List.pairwise_append.mp hsorted).2.1
    (separated_append.mp hsep).2.1 hack hresume hlo hhi hunacked hrest with
    ⟨hends, hcursor, b, hb⟩ | ⟨hin, hcursor, l₁, l₂, hl⟩
  · -- the ACK ends with the range
    have hsize := hwfr.2.size
    have hbytes : r.byteCount ≠ 0 := by omega
    obtain ⟨hacked₁, hwindow₁, hdup₁⟩ := ackExact_first seg r b hunacked hbytes
    have hmem₁ : countAt okey (key, ackExact seg b r) ∈ rm₁.ranges.entries := by
      rw [hp.entries]
      exact List.mem_map_of_mem (List.mem_append_right _ hb)
    obtain ⟨r₁, heq, hsame⟩ := countAt_eq okey key (ackExact seg b r)
    rw [heq] at hmem₁
    refine .inl ⟨hends, r₁, ⟨hcursor, hmem₁, ?_, ?_, ?_, ?_⟩, ?_⟩
    · rw [hsame ByteRange.startSeq fun _ => rfl, ackExact_startSeq]
      exact hlo
    · rw [hsame ByteRange.endSeq fun _ => rfl, ackExact_endSeq]
      exact hends
    · rw [hsame ByteRange.acked fun _ => rfl, hacked₁]
    · rw [hsame ByteRange.tcpWindow fun _ => rfl, hwindow₁]
    · rw [hsame ByteRange.dupackCount fun _ => rfl, hdup₁]
  · -- the ACK cuts the range, and the cursor moves to the back part
    have hentries : rm₁.ranges.entries = (pre ++ l₁).map (countAt okey) ++
        countAt okey (key, ackPart seg (r.head seg.ack)) ::
          countAt okey (seg.ack, r.tail seg.ack) :: l₂.map (countAt okey) := by
      rw [hp.entries, hl, ← List.append_assoc, List.map_append, List.map_cons, List.map_cons]
    have htail : r.endSeq - seg.ack ≠ 0 := by omega
    obtain ⟨r₁, heq, hsame⟩ := countAt_eq okey key (ackPart seg (r.head seg.ack))
    obtain ⟨newBr, heq', hsame'⟩ := countAt_eq okey seg.ack (r.tail seg.ack)
    rw [heq, heq'] at hentries
    refine .inr ⟨hin, r₁, newBr, ⟨hcursor, ⟨_, _, hentries⟩, ?_, ?_, ?_, ?_, ?_⟩, ?_⟩
    · rw [hsame ByteRange.startSeq fun _ => rfl]
      exact hlo
    · exact hsame ByteRange.endSeq fun _ => rfl
    · exact hsame' ByteRange.startSeq fun _ => rfl
    · rw [hsame' ByteRange.endSeq fun _ => rfl]
      exact hin
    · rw [hsame' ByteRange.byteCount fun _ => rfl]
      exact htail
    · exact hsame ByteRange.dupackCount fun _ => rfl

/-- Repetitions of an ACK are counted exactly when the data it newly acknowledges ends with its
range; on a range that it cut, they leave the counter as it was. -/
theorem processAck_dupacks_iff {rm rm₁ : RangeManager} {seg : DataSeg} {segs : List DataSeg}
    {key : ℕ} {r : ByteRange} (hapart : rm.Apart) (hack : seg.ack < 2 ^ 64) (hw : 0 < seg.window)
    (h : ackStep rm seg = .ok rm₁) (hnew : NewlyAcks rm rm₁ seg.ack key r)
    (hsame : ∀ s ∈ segs, s.ack = seg.ack ∧ s.window = seg.window) (hk : segs.length ≤ 255) :
    CountsDupacks rm₁ seg.ack segs ↔
      if r.endSeq = seg.ack then r.dupackCount.val = 0 else r.dupackCount.val = segs.length := by
  have hapart₁ := (ackStep_apart hapart h).1
  rcases ackStep_newly_acks hapart hack h hnew with
    ⟨hends, r₁, hcursor, hdup⟩ | ⟨hin, r₁, newBr, hcursor, hdup⟩
  · obtain ⟨rm', r', hrun, hcursor', hcount⟩ := hcursor.run hw hsame
    rw [countsDupacks_iff hapart₁ hrun hcursor'.mem hcursor'.lo hcursor'.ends, if_pos hends]
    unfold Counter.val
    rw [hcount, hdup]
    omega
  · obtain ⟨rm', r', hrun, hcursor', hdup'⟩ := hcursor.run fun s hs => (hsame s hs).1
    obtain ⟨pre, post, hcut⟩ := hcursor'.cut
    have hmem : (key, r') ∈ rm'.ranges.entries := by
      rw [hcut]
      exact List.mem_append_right _ List.mem_cons_self
    rw [countsDupacks_iff hapart₁ hrun hmem hcursor'.lo hcursor'.ends, if_neg hin.ne', hdup', hdup]

def ackHundred : DataSeg := { ack := 100, window := 5, tstampPcap := ⟨2, 0⟩ }

theorem processAck_dupacks_iff_hundred :
    ∃ rm₁, ackStep hundredBytes ackHundred = .ok rm₁ ∧
      CountsDupacks rm₁ 100 [ackHundred, ackHundred, ackHundred] := by
  have hapart : hundredBytes.Apart := ⟨hundredBytes_unacked.wf, hundredBytes_unacked.sep⟩
  obtain ⟨rm₁, h, hacked⟩ := Run.exists_of_any_toOption (x := ackStep hundredBytes ackHundred)
    (p := fun rm₁ : RangeManager => decide (∃ en ∈ rm₁.ranges.entries,
      en.2.startSeq < 100 ∧ 100 ≤ en.2.endSeq ∧ en.2.acked = true)) (by decide)
  have hnew : NewlyAcks hundredBytes rm₁ ackHundred.ack 0 { ByteRange.blank 0 100 with
      byteCount := 100, sentTstampPcap := [(⟨1, 0⟩, .pkt)] } :=
    ⟨List.mem_singleton_self _, by decide, by decide, rfl, of_decide_eq_true hacked⟩
  refine ⟨rm₁, h, (processAck_dupacks_iff hapart (by decide) (by decide) h hnew ?_ (by decide)).mpr ?_⟩
  · simp
  · decide

def ackFifty : DataSeg := { ack := 50, window := 5, tstampPcap := ⟨2, 0⟩ }

/-- The repetition of an ACK for the first half of a range is not counted. -/
theorem processAck_misses_dupack_inside :
    ∃ rm₁ key r, ackStep hundredBytes ackFifty = .ok rm₁ ∧
      NewlyAcks hundredBytes rm₁ 50 key r ∧ ¬CountsDupacks rm₁ 50 [ackFifty] := by
  obtain ⟨rm₁, h, hp⟩ := Run.exists_of_any_toOption (x := ackStep hundredBytes ackFifty)
    (p := fun rm₁ : RangeManager => decide (∃ en ∈ rm₁.ranges.entries,
        en.2.startSeq < 50 ∧ 50 ≤ en.2.endSeq ∧ en.2.acked = true) &&
      (Run.run ackStep rm₁ [ackFifty]).toOption.all fun (rm' : RangeManager) =>
        decide (∃ en ∈ rm'.ranges.entries, en.2.startSeq < 50 ∧ en.2.endSeq = 50 ∧
          en.2.dupackCount.val = 0)) (by decide +kernel)
  obtain ⟨hacked, hzero⟩ := Bool.and_eq_true_iff.mp hp
  refine ⟨rm₁, 0, { ByteRange.blank 0 100 with
    byteCount := 100, sentTstampPcap := [(⟨1, 0⟩, .pkt)] }, h,
    ⟨List.mem_singleton_self _, by decide, by decide, rfl, of_decide_eq_true hacked⟩, ?_⟩
  rintro ⟨rm', hrun, hcount⟩
  obtain ⟨en, hen, hlo, hends, hdup⟩ := Run.of_all_toOption hzero hrun
  have hone : en.2.dupackCount.val = 1 := hcount en hen hlo hends
  omega

end RangeManager

end AnalyseTCP
