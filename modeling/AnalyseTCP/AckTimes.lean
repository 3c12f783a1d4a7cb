import AnalyseTCP.AckPass
import AnalyseTCP.ByteCounts

/-!
# Acknowledged bytes and their times

A range that holds data is acknowledged exactly when its end is at or below the highest ACK, and it
should keep the time of the first ACK above each of its bytes.  The second part fails where an older
ACK cuts the range under the cursor.
-/

namespace AnalyseTCP

namespace RangeManager

/-! ## What an ACK leaves of a range -/

section Ranges

variable (seg : DataSeg) (r : ByteRange)

/-- `ackExact` changes no counter of the sender side, and no endpoint. -/
theorem ackExact_blind {α : Type} (f : ByteRange → α) (atCursor : Bool)
    (hwin : ∀ r w, f { r with tcpWindow := w } = f r)
    (htime : ∀ r t, f (ByteRange.insertAckTime r t) = f r)
    (hdup : ∀ r : ByteRange, f { r with dupackCount := r.dupackCount + 1 } = f r)
    (hsack : ∀ r, f (ByteRange.registerSacks r seg) = f r)
    (hack : ∀ r : ByteRange, ∀ w, f { r with ackCount := r.ackCount + 1, tcpWindow := w } = f r) :
    f (ackExact seg atCursor r) = f r := by
  unfold ackExact
  dsimp only
  rw [hack, apply_ite f, hsack, ite_self]
  by_cases hacked : r.acked = true
  · rw [if_neg (by rw [hacked]; decide)]
    cases atCursor
    · rw [if_neg Bool.false_ne_true]
    · rw [if_pos rfl, apply_ite f, hdup r, hwin r seg.window, ite_self]
  · rw [if_pos (by simpa using hacked)]
    by_cases hbytes : r.byteCount = 0
    · rw [if_pos hbytes]
      split
      · exact hwin r seg.window
      · rw [apply_ite f, htime, hwin r seg.window, ite_self]
    · rw [if_neg hbytes, htime, hwin r seg.window]

theorem ackExact_startSeq (b : Bool) : (ackExact seg b r).startSeq = r.startSeq :=
  ackExact_blind seg r _ b (fun _ _ => rfl) (fun _ _ => rfl) (fun _ => rfl) (fun _ => rfl)
    fun _ _ => rfl

theorem ackExact_endSeq (b : Bool) : (ackExact seg b r).endSeq = r.endSeq :=
  ackExact_blind seg r _ b (fun _ _ => rfl) (fun _ _ => rfl) (fun _ => rfl) (fun _ => rfl)
    fun _ _ => rfl

theorem ackExact_byteCount (b : Bool) : (ackExact seg b r).byteCount = r.byteCount :=
  ackExact_blind seg r _ b (fun _ _ => rfl) (fun _ _ => rfl) (fun _ => rfl) (fun _ => rfl)
    fun _ _ => rfl

theorem markAcked_startSeq : (markAcked seg r).startSeq = r.startSeq := by
  unfold markAcked
  split <;> rfl

theorem markAcked_byteCount : (markAcked seg r).byteCount = r.byteCount := by
  unfold markAcked
  split <;> rfl

theorem markAcked_acked : (markAcked seg r).acked = true := by
  unfold markAcked
  split
  · assumption
  · rfl

variable {r} in
theorem markAcked_ackTime_of_not (h : r.acked = false) :
    (markAcked seg r).ackTime = seg.tstampPcap := by
  unfold markAcked
  rw [if_neg (by rw [h]; decide)]
  rfl

variable {r} in
theorem markAcked_of_acked (h : r.acked = true) : markAcked seg r = r := by
  unfold markAcked
  rw [if_pos h]

variable {r} in
/-- A range with data is acknowledged by an exact ACK as by one that reaches past it. -/
theorem ackExact_data {α : Type} (f : ByteRange → α) (atCursor : Bool) (hbytes : r.byteCount ≠ 0)
    (hwin : ∀ r w, f { r with tcpWindow := w } = f r)
    (htime : ∀ (r : ByteRange) w t,
      f ({ r with tcpWindow := w }.insertAckTime t) = f (r.insertAckTime t))
    (hdup : ∀ r : ByteRange, f { r with dupackCount := r.dupackCount + 1 } = f r)
    (hsack : ∀ r, f (ByteRange.registerSacks r seg) = f r)
    (hack : ∀ r : ByteRange, ∀ w, f { r with ackCount := r.ackCount + 1, tcpWindow := w } = f r) :
    f (ackExact seg atCursor r) = f (markAcked seg r) := by
  unfold ackExact markAcked
  dsimp only
  rw [hack, apply_ite f, hsack, ite_self]
  by_cases hacked : r.acked = true
  · rw [if_neg (by rw [hacked]; decide), if_pos hacked]
    cases atCursor
    · rw [if_neg Bool.false_ne_true]
    · rw [if_pos rfl, apply_ite f, hdup r, hwin r seg.window, ite_self]
  · rw [if_pos (by simpa using hacked), if_neg hacked, if_neg hbytes, htime]

variable {r} in
theorem ackExact_times (b : Bool) (hbytes : r.byteCount ≠ 0) :
    (ackExact seg b r).acked = true ∧
      (ackExact seg b r).ackTime = (markAcked seg r).ackTime := by
  have hpair := ackExact_data seg (fun r => (r.acked, r.ackTime)) b hbytes (fun _ _ => rfl)
    (fun _ _ _ => rfl) (fun _ => rfl) (fun _ => rfl) fun _ _ => rfl
  have ⟨hacked, htime⟩ := Prod.mk.inj hpair
  exact ⟨hacked.trans (markAcked_acked seg r), htime⟩

end Ranges

/-! ## The entries after an ACK -/

section Entries

variable {seg : DataSeg} {c c' : Option ℕ} {rest rest' : List Entry}

theorem AckPass.wf (hpass : AckPass seg c rest c' rest') (hwf : WfEntries rest) :
    WfEntries rest' := by
  induction hpass with
  | done c => exact hwf
  | exact c key r rest hexact =>
      have ⟨⟨hkey, hr⟩, hrest⟩ := wfEntries_cons.mp hwf
      refine wfEntries_cons.mpr ⟨⟨?_, ?_⟩, hrest⟩
      · rw [ackExact_startSeq]
        exact hkey
      · exact hr.congr (ackExact_startSeq ..) (ackExact_endSeq ..) (ackExact_byteCount ..)
  | late => exact hwf
  | pass c c' key r rest rest' hend hpass ih =>
      have ⟨⟨hkey, hr⟩, hrest⟩ := wfEntries_cons.mp hwf
      refine wfEntries_cons.mpr ⟨⟨?_, ?_⟩, ih hrest⟩
      · rw [markAcked_startSeq]
        exact hkey
      · exact hr.congr (markAcked_startSeq ..) (markAcked_endSeq ..) (markAcked_byteCount ..)
  | split c key r rest hlo hhi =>
      have ⟨⟨hkey, hr⟩, hrest⟩ := wfEntries_cons.mp hwf
      refine wfEntries_cons.mpr ⟨⟨hkey, ?_⟩, wfEntries_cons.mpr ⟨⟨rfl, ?_⟩, hrest⟩⟩
      · exact (hr.head hlo.le hhi.le).congr rfl rfl rfl
      · exact hr.tail hlo.le hhi.le
  | old => exact hwf

/-- Every range afterwards lies inside one that was there before. -/
theorem AckPass.origin (hpass : AckPass seg c rest c' rest') {en : Entry} (hen : en ∈ rest') :
    ∃ old ∈ rest, old.1 ≤ en.1 ∨ seg.ack = en.1 ∧ old.2.startSeq < seg.ack := by
  induction hpass with
  | done c => cases hen
  | exact c key r rest hexact =>
      rcases List.mem_cons.mp hen with rfl | hen
      · exact ⟨_, List.mem_cons_self, .inl le_rfl⟩
      · exact ⟨en, List.mem_cons_of_mem _ hen, .inl le_rfl⟩
  | late => exact ⟨en, hen, .inl le_rfl⟩
  | pass c c' key r rest rest' hend hpass ih =>
      rcases List.mem_cons.mp hen with rfl | hen
      · exact ⟨_, List.mem_cons_self, .inl le_rfl⟩
      · obtain ⟨old, hold, hle⟩ := ih hen
        exact ⟨old, List.mem_cons_of_mem _ hold, hle⟩
  | split c key r rest hlo hhi =>
      rcases List.mem_cons.mp hen with rfl | hen
      · exact ⟨_, List.mem_cons_self, .inl le_rfl⟩
      rcases List.mem_cons.mp hen with rfl | hen
      · exact ⟨_, List.mem_cons_self, .inr ⟨rfl, hlo⟩⟩
      · exact ⟨en, List.mem_cons_of_mem _ hen, .inl le_rfl⟩
  | old => exact ⟨en, hen, .inl le_rfl⟩

/-- No range afterwards starts below all those before. -/
theorem AckPass.start_le (hpass : AckPass seg c rest c' rest') (hwf : WfEntries rest) {x : ℕ}
    (hx : ∀ en ∈ rest, x ≤ en.2.startSeq) : ∀ en ∈ rest', x ≤ en.2.startSeq := by
  intro en hen
  have hkey := (hpass.wf hwf en hen).1
  obtain ⟨old, hold, hle | ⟨hack, hlt⟩⟩ := hpass.origin hen
  · have := hx old hold
    have := (hwf old hold).1
    omega
  · have := hx old hold
    omega

theorem AckPass.separated (hpass : AckPass seg c rest c' rest') (hwf : WfEntries rest)
    (hsep : Separated rest) : Separated rest' := by
  induction hpass with
  | done c => exact hsep
  | exact c key r rest hexact =>
      have ⟨hhead, hrest⟩ := separated_cons.mp hsep
      refine separated_cons.mpr ⟨?_, hrest⟩
      rw [ackExact_endSeq]
      exact hhead
  | late => exact hsep
  | pass c c' key r rest rest' hend hpass ih =>
      have ⟨hhead, hrest⟩ := separated_cons.mp hsep
      have hwf' := (wfEntries_cons.mp hwf).2
      refine separated_cons.mpr ⟨?_, ih hwf' hrest⟩
      rw [markAcked_endSeq]
      exact hpass.start_le hwf' hhead
  | split c key r rest hlo hhi =>
      have ⟨hhead, hrest⟩ := separated_cons.mp hsep
      refine separated_cons.mpr ⟨?_, separated_cons.mpr ⟨hhead, hrest⟩⟩
      intro en hen
      rcases List.mem_cons.mp hen with rfl | hen
      · exact le_rfl
      · exact hhi.le.trans (hhead en hen)
  | old => exact hsep

theorem AckPass.ne_nil (hpass : AckPass seg c rest c' rest') (hne : rest ≠ []) : rest' ≠ [] := by
  cases hpass with
  | done c => exact hne
  | exact c key r rest hexact => exact List.cons_ne_nil _ _
  | late => exact hne
  | pass c c' key r rest rest' hend hpass => exact List.cons_ne_nil _ _
  | split c key r rest hlo hhi => exact List.cons_ne_nil _ _
  | old => exact hne

/-- The cursor afterwards is an entry, or stayed where it was. -/
theorem AckPass.cursor_mem (hpass : AckPass seg c rest c' rest') :
    c' = c ∧ (∀ x : ℕ, (∃ r, (x, r) ∈ rest) → ∃ r, (x, r) ∈ rest') ∨
      ∃ key r, c' = some key ∧ (key, r) ∈ rest' := by
  induction hpass with
  | done c => exact .inl ⟨rfl, fun _ h => h⟩
  | exact c key r rest hexact => exact .inr ⟨key, _, rfl, List.mem_cons_self⟩
  | late => exact .inl ⟨rfl, fun _ h => h⟩
  | pass c c' key r rest rest' hend hpass ih =>
      right
      rcases ih with ⟨hc, -⟩ | ⟨key', r', hc, hmem⟩
      · exact ⟨key, _, hc, List.mem_cons_self⟩
      · exact ⟨key', r', hc, List.mem_cons_of_mem _ hmem⟩
  | split c key r rest hlo hhi =>
      exact .inr ⟨seg.ack, _, rfl, List.mem_cons_of_mem _ List.mem_cons_self⟩
  | old => exact .inl ⟨rfl, fun _ h => h⟩

/-- A range with data is acknowledged if it ends at or below `top`, and otherwise starts at or
above it. -/
def Settled (top : ℕ) (r : ByteRange) : Prop :=
  0 < r.byteCount → (r.acked = true → r.endSeq ≤ top) ∧ (r.acked = false → top ≤ r.startSeq)

theorem Settled.mono {top ack : ℕ} {r : ByteRange} (h : Settled top r) (hack : ack ≤ r.startSeq) :
    Settled (max top ack) r := by
  intro hbytes
  have ⟨hacked, hnot⟩ := h hbytes
  exact ⟨fun h => (hacked h).trans (le_max_left ..), fun h => max_le (hnot h) hack⟩

/-- The ranges after one that the ACK covers exactly start at or above the ACK. -/
theorem ack_le_of_exact {key : ℕ} {r : ByteRange} (hwf : WfEntries ((key, r) :: rest))
    (hsep : Separated ((key, r) :: rest)) (hsorted : ((key, r) :: rest).Pairwise (·.1 < ·.1))
    (hack : seg.ack < 2 ^ 64) (hexact : AckedExactly seg r) :
    ∀ en ∈ rest, seg.ack ≤ en.2.startSeq := by
  intro en hen
  have hkey : key = r.startSeq := (wfEntries_cons.mp hwf).1.1
  have hr : r.Wf := (wfEntries_cons.mp hwf).1.2
  have hstart := (hwf en (List.mem_cons_of_mem _ hen)).1
  have hlt : key < en.1 := (List.pairwise_cons.mp hsorted).1 en hen
  rcases hexact with hend | ⟨hzero, hone⟩
  · rw [hend]
    exact (separated_cons.mp hsep).1 en hen
  · -- no other range starts where a range without data lies
    have hsize := hr.size
    unfold sub64 at hone
    omega

theorem AckPass.settled (hpass : AckPass seg c rest c' rest') (hwf : WfEntries rest)
    (hsep : Separated rest) (hsorted : rest.Pairwise (·.1 < ·.1)) (hack : seg.ack < 2 ^ 64)
    (htime : ∀ en ∈ rest, en.2.endSeq < seg.ack → SentBefore seg en.2) {top : ℕ}
    (h : ∀ en ∈ rest, Settled top en.2) : ∀ en ∈ rest', Settled (max top seg.ack) en.2 := by
  -- `acked` and the highest ACK agree in the ranges that are left; one case per way to stop
  induction hpass with
  | done c => exact fun en hen => nomatch hen
  | exact c key r rest hexact =>
      have ⟨hhead, hrest⟩ := List.forall_mem_cons.mp h
      refine List.forall_mem_cons.mpr ⟨?_, ?_⟩
      · intro hbytes
        rw [ackExact_byteCount] at hbytes
        have hacked := (ackExact_times seg (decide (c = some key)) hbytes.ne').1
        rw [hacked, ackExact_endSeq]
        refine ⟨fun _ => ?_, nofun⟩
        -- an ACK one behind the end is exact for a range without data only, and this one has bytes
        rcases hexact with hend | ⟨hzero, -⟩
        · exact hend.symm.le.trans (le_max_right ..)
        · omega
      · intro en hen
        exact (hrest en hen).mono (ack_le_of_exact hwf hsep hsorted hack hexact en hen)
  | late c key r rest hend hlate => exact absurd (htime (key, r) List.mem_cons_self hend) hlate
  | pass c c' key r rest rest' hend hpass ih =>
      have ⟨hhead, hrest⟩ := List.forall_mem_cons.mp h
      refine List.forall_mem_cons.mpr ⟨?_, ?_⟩
      · intro _
        rw [markAcked_acked, markAcked_endSeq]
        exact ⟨fun _ => hend.le.trans (le_max_right ..), nofun⟩
      · exact ih (wfEntries_cons.mp hwf).2 (separated_cons.mp hsep).2
          (List.pairwise_cons.mp hsorted).2 (fun en hen => htime en (List.mem_cons_of_mem _ hen))
          hrest
  | split c key r rest hlo hhi =>
      have ⟨hhead, hrest⟩ := List.forall_mem_cons.mp h
      have hr : r.Wf := (wfEntries_cons.mp hwf).1.2
      have hbytes : 0 < r.byteCount := by
        have := hr.size
        omega
      refine List.forall_mem_cons.mpr ⟨?_, List.forall_mem_cons.mpr ⟨?_, ?_⟩⟩
      · intro _
        exact ⟨fun _ => le_max_right .., nofun⟩
      · intro _
        -- the part behind the cut keeps the flag that the whole range had
        have ⟨hacked, hnot⟩ := hhead hbytes
        refine ⟨fun h => (hacked h).trans (le_max_left ..), fun h => ?_⟩
        exact max_le ((hnot h).trans hlo.le) le_rfl
      · intro en hen
        exact (hrest en hen).mono (hhi.le.trans ((separated_cons.mp hsep).1 en hen))
  | old c key r rest hold =>
      have hr : r.Wf := (wfEntries_cons.mp hwf).1.2
      intro en hen
      refine (h en hen).mono ?_
      rcases List.mem_cons.mp hen with rfl | hen
      · exact hold
      · exact hold.trans (hr.le.trans ((separated_cons.mp hsep).1 en hen))

/-- Whatever the loop leaves behind the cursor is acknowledged. -/
theorem AckPass.behind (hpass : AckPass seg c rest c' rest') (hwf : WfEntries rest)
    (hsep : Separated rest) (hsorted : rest.Pairwise (·.1 < ·.1))
    (hfrom : ∀ en ∈ rest, ∀ x, c = some x → x ≤ en.1) :
    ∀ en ∈ rest', ∀ x, c' = some x → en.1 < x → en.2.acked = true := by
  -- only a pass moves the cursor on, and it marks the range it leaves
  induction hpass with
  | done c => exact fun en hen => nomatch hen
  | exact c key r rest hexact =>
      intro en hen x hx hlt
      -- the cursor stands on the acknowledged range itself, so nothing here is behind it
      obtain rfl := Option.some.inj hx
      rcases List.mem_cons.mp hen with rfl | hen
      · exact absurd hlt (lt_irrefl _)
      · exact absurd hlt ((List.pairwise_cons.mp hsorted).1 en hen).not_gt
  | late =>
      intro en hen x hx hlt
      exact absurd hlt (hfrom en hen x hx).not_gt
  | pass c c' key r rest rest' hend hpass ih =>
      have ⟨hkeys, hsorted'⟩ := List.pairwise_cons.mp hsorted
      refine List.forall_mem_cons.mpr ⟨fun _ _ _ => markAcked_acked seg r, ?_⟩
      apply ih (wfEntries_cons.mp hwf).2 (separated_cons.mp hsep).2 hsorted'
      intro en hen x hx
      obtain rfl := Option.some.inj hx
      exact (hkeys en hen).le
  | split c key r rest hlo hhi =>
      intro en hen x hx hlt
      obtain rfl := Option.some.inj hx
      rcases List.mem_cons.mp hen with rfl | hen
      · rfl
      rcases List.mem_cons.mp hen with rfl | hen
      · exact absurd hlt (lt_irrefl _)
      · have := (separated_cons.mp hsep).1 en hen
        have := (hwf en (List.mem_cons_of_mem _ hen)).1
        exact absurd hlt (by simp only at *; omega)
  | old =>
      intro en hen x hx hlt
      exact absurd hlt (hfrom en hen x hx).not_gt

end Entries

/-! ## The backward scans count, nothing more -/

section Counted

variable {okey : Option ℕ} {l : List Entry}

/-- What holds of every entry and does not read `ack_count` survives the scan. -/
theorem forall_countAt {P : Entry → Prop} (hP : ∀ key r, P (key, r) → P (key, countAck r))
    (h : ∀ en ∈ l, P en) : ∀ en ∈ l.map (countAt okey), P en := by
  intro en hen
  obtain ⟨old, hold, rfl⟩ := List.mem_map.mp hen
  unfold countAt
  split
  · exact hP old.1 old.2 (h old hold)
  · exact h old hold

theorem countAt_blind {α : Type} (f : Entry → α) (hf : ∀ key r, f (key, countAck r) = f (key, r))
    (en : Entry) : f (countAt okey en) = f en := by
  unfold countAt
  split
  · exact hf en.1 en.2
  · rfl

theorem wfEntries_countAt (h : WfEntries l) : WfEntries (l.map (countAt okey)) :=
  forall_countAt (P := fun en => en.1 = en.2.startSeq ∧ en.2.Wf)
    (fun _ _ h => ⟨h.1, h.2.congr rfl rfl rfl⟩) h

theorem separated_countAt (h : Separated l) : Separated (l.map (countAt okey)) := by
  unfold Separated at *
  rw [List.pairwise_map]
  refine h.imp fun {a b} hab => ?_
  rw [countAt_blind (fun en => en.2.endSeq) (fun _ _ => rfl),
    countAt_blind (fun en => en.2.startSeq) (fun _ _ => rfl)]
  exact hab

end Counted

/-! ## Runs of ACKs -/

/-- `processAck` as a step; the result only says whether the ACK was recognised. -/
def ackStep (rm : RangeManager) (seg : DataSeg) : Except Abort RangeManager :=
  (rm.processAck seg).map Prod.fst

theorem exists_of_ackStep {rm rm' : RangeManager} {seg : DataSeg} (h : rm.ackStep seg = .ok rm') :
    ∃ ret, rm.processAck seg = .ok (rm', ret) := by
  unfold ackStep at h
  cases hack : rm.processAck seg with
  | error e =>
      rw [hack] at h
      cases h
  | ok out =>
      rw [hack] at h
      obtain rfl : out.1 = rm' := Except.ok.inj h
      exact ⟨out.2, rfl⟩

theorem ackStep_processed {rm rm' : RangeManager} {seg : DataSeg}
    (hwf : WfEntries rm.ranges.entries) (hsep : Separated rm.ranges.entries)
    (h : rm.ackStep seg = .ok rm') : ∃ pre rest' okey, Processed rm seg rm' pre rest' okey := by
  obtain ⟨ret, hprocess⟩ := exists_of_ackStep h
  exact processAck_processed hwf hsep hprocess

/-- The largest ACK number of a run. -/
def topAck (segs : List DataSeg) : ℕ := (segs.map DataSeg.ack).foldr max 0

theorem topAck_append (segs : List DataSeg) (seg : DataSeg) :
    topAck (segs ++ [seg]) = max (topAck segs) seg.ack := by
  induction segs with
  | nil => exact max_comm ..
  | cons s segs ih =>
      show max s.ack (topAck (segs ++ [seg])) = max (max s.ack (topAck segs)) seg.ack
      rw [ih, max_assoc]

/-- A map of sent ranges before the first ACK. -/
structure Unacked (rm : RangeManager) : Prop where
  nonempty : rm.ranges.entries ≠ []
  wf : WfEntries rm.ranges.entries
  sep : Separated rm.ranges.entries
  fresh : ∀ en ∈ rm.ranges.entries, en.2.acked = false
  start : rm.highestAckedByteRangeIt = none

/-- What every run of ACKs keeps, up to the highest number `top` so far. -/
structure AckInv (top : ℕ) (rm : RangeManager) : Prop where
  wf : WfEntries rm.ranges.entries
  sep : Separated rm.ranges.entries
  settled : ∀ en ∈ rm.ranges.entries, Settled top en.2
  cursor : ∀ c, rm.highestAckedByteRangeIt = some c → ∃ r, (c, r) ∈ rm.ranges.entries
  behind : ∀ en ∈ rm.ranges.entries, ∀ c, rm.highestAckedByteRangeIt = some c → en.1 < c →
    0 < en.2.byteCount → en.2.acked = true
  nonempty : rm.ranges.entries ≠ []

theorem Unacked.ackInv {rm : RangeManager} (h : rm.Unacked) : AckInv 0 rm where
  wf := h.wf
  sep := h.sep
  settled := by
    intro en hen _
    rw [h.fresh en hen]
    exact ⟨nofun, fun _ => Nat.zero_le _⟩
  cursor := by
    intro c hc
    rw [h.start] at hc
    cases hc
  behind := by
    intro en _ c hc
    rw [h.start] at hc
    cases hc
  nonempty := h.nonempty

theorem AckInv.resume_ne_nil {top : ℕ} {rm : RangeManager} (h : AckInv top rm) :
    rm.resume ≠ [] := by
  unfold resume
  cases hc : rm.highestAckedByteRangeIt with
  | none => exact h.nonempty
  | some c =>
      obtain ⟨r, hmem⟩ := h.cursor c hc
      obtain ⟨pre, post, hcut⟩ := List.append_of_mem hmem
      dsimp only
      rw [OrdMap.atLeast_of_cut hcut]
      exact List.cons_ne_nil _ _

/-- The ACK numbers are 64-bit values, captured after what they acknowledge was sent. -/
def AckValid (rm : RangeManager) (seg : DataSeg) : Prop := seg.ack < 2 ^ 64 ∧ AckOnTime rm seg

instance (rm : RangeManager) (seg : DataSeg) : Decidable (AckValid rm seg) :=
  inferInstanceAs (Decidable (_ ∧ _))

theorem AckInv.processed {top : ℕ} {rm rm' : RangeManager} {seg : DataSeg} {pre rest' : List Entry}
    {okey : Option ℕ} (hinv : AckInv top rm) (hvalid : AckValid rm seg)
    (hp : Processed rm seg rm' pre rest' okey) : AckInv (max top seg.ack) rm' := by
  have hwf := hinv.wf
  have hsep := hinv.sep
  have hsorted := rm.ranges.sorted
  rw [hp.cut] at hwf hsep hsorted
  obtain ⟨hwfpre, hwfrest⟩ := wfEntries_append.mp hwf
  obtain ⟨hseppre, hseprest, hacross⟩ := separated_append.mp hsep
  have hsorted := (List.pairwise_append.mp hsorted).2.1
  have hin : ∀ en ∈ rm.resume, en ∈ rm.ranges.entries := by
    intro en hen
    rw [hp.cut]
    exact List.mem_append_right _ hen
  have hinpre : ∀ en ∈ pre, en ∈ rm.ranges.entries := by
    intro en hen
    rw [hp.cut]
    exact List.mem_append_left _ hen
  -- the ranges behind the cursor were acknowledged before and stay as they are
  have hacked : ∀ en ∈ pre, 0 < en.2.byteCount → en.2.acked = true := by
    intro en hen hbytes
    obtain ⟨x, hx, hlt⟩ := hp.before en hen
    exact hinv.behind en (hinpre en hen) x hx hlt hbytes
  have hsettled : ∀ en ∈ pre ++ rest', Settled (max top seg.ack) en.2 := by
    refine List.forall_mem_append.mpr ⟨?_, ?_⟩
    · intro en hen hbytes
      have hold := hinv.settled en (hinpre en hen) hbytes
      refine ⟨fun h => (hold.1 h).trans (le_max_left ..), fun h => ?_⟩
      rw [hacked en hen hbytes] at h
      cases h
    · exact hp.pass.settled hwfrest hseprest hsorted hvalid.1
        (fun en hen => hvalid.2 en (hin en hen)) fun en hen => hinv.settled en (hin en hen)
  have hbehind : ∀ en ∈ pre ++ rest', ∀ x, rm'.highestAckedByteRangeIt = some x → en.1 < x →
      0 < en.2.byteCount → en.2.acked = true := by
    refine List.forall_mem_append.mpr ⟨fun en hen x _ _ => hacked en hen, ?_⟩
    intro en hen x hx hlt _
    exact hp.pass.behind hwfrest hseprest hsorted hp.from_cursor en hen x hx hlt
  constructor
  · rw [hp.entries]
    exact wfEntries_countAt (wfEntries_append.mpr ⟨hwfpre, hp.pass.wf hwfrest⟩)
  · rw [hp.entries]
    refine separated_countAt (separated_append.mpr
      ⟨hseppre, hp.pass.separated hwfrest hseprest, fun a ha => ?_⟩)
    exact hp.pass.start_le hwfrest (hacross a ha)
  · rw [hp.entries]
    exact forall_countAt (P := fun en => Settled (max top seg.ack) en.2) (fun _ _ h => h) hsettled
  · intro x hx
    -- the cursor is on a range of the map: the old one, or one that the pass has met
    have hmem : ∃ r, (x, r) ∈ pre ++ rest' := by
      rcases hp.pass.cursor_mem with ⟨hc, hkeep⟩ | ⟨key, r, hc, hr⟩
      · obtain ⟨r, hr⟩ := hinv.cursor x (hc ▸ hx)
        rw [hp.cut] at hr
        rcases List.mem_append.mp hr with hr | hr
        · exact ⟨r, List.mem_append_left _ hr⟩
        · obtain ⟨r', hr'⟩ := hkeep x ⟨r, hr⟩
          exact ⟨r', List.mem_append_right _ hr'⟩
      · obtain rfl := Option.some.inj (hc.symm.trans hx)
        exact ⟨r, List.mem_append_right _ hr⟩
    obtain ⟨r, hr⟩ := hmem
    rw [hp.entries]
    have hcounted := List.mem_map_of_mem (f := countAt okey) hr
    have hkey : (countAt okey (x, r)).1 = x := countAt_blind Prod.fst (fun _ _ => rfl) _
    cases hen : countAt okey (x, r) with
    | mk k r' =>
        rw [hen] at hcounted hkey
        exact ⟨r', hkey ▸ hcounted⟩
  · rw [hp.entries]
    intro en hen x hx
    exact forall_countAt (P := fun en => en.1 < x → 0 < en.2.byteCount → en.2.acked = true)
      (fun _ _ h => h) (fun en hen => hbehind en hen x hx) en hen
  · rw [hp.entries, ne_eq, List.map_eq_nil_iff, List.append_eq_nil_iff]
    exact fun h => hp.pass.ne_nil hinv.resume_ne_nil h.2

theorem ackStep_inv {top : ℕ} {rm rm' : RangeManager} {seg : DataSeg} (hinv : AckInv top rm)
    (hvalid : AckValid rm seg) (h : rm.ackStep seg = .ok rm') : AckInv (max top seg.ack) rm' := by
  obtain ⟨pre, rest', okey, hp⟩ := ackStep_processed hinv.wf hinv.sep h
  exact hinv.processed hvalid hp

theorem ackStep_ok {top : ℕ} {rm : RangeManager} {seg : DataSeg} (hinv : AckInv top rm)
    (hvalid : AckValid rm seg) (hscan : ScanInside rm seg) : ∃ rm', rm.ackStep seg = .ok rm' := by
  have hsent : ∀ en ∈ rm.ranges.entries, en.2.endSeq < seg.ack → en.2.sentTstampPcap ≠ [] :=
    fun en hen hlt => (hvalid.2 en hen hlt).ne_nil
  obtain ⟨out, hout⟩ := processAck_ok hinv.wf hinv.resume_ne_nil hsent hscan
  unfold ackStep
  rw [hout]
  exact ⟨out.1, rfl⟩

/-- Every run of ACKs in time whose backward scans stay inside the map returns, and then exactly
the data at or below the highest ACK is acknowledged. -/
theorem ackStep_run_acked_iff {rm : RangeManager} {segs : List DataSeg} (hinit : rm.Unacked)
    (hsteps : Run.Steps ackStep (fun rm seg => AckValid rm seg ∧ ScanInside rm seg) rm segs) :
    ∃ rm', Run.run ackStep rm segs = .ok rm' ∧
      ∀ en ∈ rm'.ranges.entries, 0 < en.2.byteCount →
        (en.2.acked = true ↔ en.2.endSeq ≤ topAck segs) := by
  have hrun : ∃ rm', Run.run ackStep rm segs = .ok rm' ∧ AckInv (topAck ([] ++ segs)) rm' := by
    have hstart : AckInv (topAck []) rm := hinit.ackInv
    apply Run.exists_ok (I := fun rm d => AckInv (topAck d) rm) (d := []) _ hstart hsteps
    intro rm seg d hinv hok
    obtain ⟨rm', hstep⟩ := ackStep_ok hinv hok.1 hok.2
    rw [topAck_append]
    exact ⟨rm', hstep, ackStep_inv hinv hok.1 hstep⟩
  obtain ⟨rm', hrun, hinv⟩ := hrun
  refine ⟨rm', hrun, fun en hen hbytes => ?_⟩
  have hsettled := hinv.settled en hen hbytes
  refine ⟨hsettled.1, fun hle => ?_⟩
  by_contra hnot
  have htop : topAck segs ≤ en.2.startSeq := hsettled.2 (by simpa using hnot)
  have hsize := (hinv.wf en hen).2.size
  omega

/-! ## The first ACK of each byte -/

/-- The first processed ACK above the byte. -/
def firstAck (segs : List DataSeg) (b : ℕ) : Option DataSeg := segs.find? fun s => decide (b < s.ack)

theorem le_topAck {segs : List DataSeg} {seg : DataSeg} (h : seg ∈ segs) : seg.ack ≤ topAck segs := by
  induction segs with
  | nil => cases h
  | cons s segs ih =>
      show seg.ack ≤ max s.ack (topAck segs)
      rcases List.mem_cons.mp h with rfl | h
      · exact le_max_left ..
      · exact (ih h).trans (le_max_right ..)

/-- The range carries the time of the first ACK above each of its bytes. -/
def Timed (segs : List DataSeg) (r : ByteRange) : Prop :=
  0 < r.byteCount → r.acked = true →
    ∀ b, r.Holds b → (firstAck segs b).map DataSeg.tstampPcap = some r.ackTime

section Timed

variable {segs : List DataSeg} {seg : DataSeg} {r r' : ByteRange}

theorem firstAck_append_of_some {b : ℕ} {t : Timeval}
    (h : (firstAck segs b).map DataSeg.tstampPcap = some t) :
    (firstAck (segs ++ [seg]) b).map DataSeg.tstampPcap = some t := by
  obtain ⟨s, hs, ht⟩ := Option.map_eq_some_iff.mp h
  unfold firstAck at *
  rw [List.find?_append, hs]
  exact congrArg some ht

/-- A later ACK does not change which was the first. -/
theorem Timed.later (h : Timed segs r) (hacked : r'.acked = r.acked) (htime : r'.ackTime = r.ackTime)
    (hbytes : 0 < r'.byteCount → 0 < r.byteCount) (hhold : ∀ b, r'.Holds b → r.Holds b) :
    Timed (segs ++ [seg]) r' := by
  intro hpos hack b hb
  rw [htime]
  exact firstAck_append_of_some (h (hbytes hpos) (hacked ▸ hack) b (hhold b hb))

/-- The ACK reaches every byte of `r'`, a part of `r`. -/
theorem Timed.acked (h : Timed segs r) (hset : Settled (topAck segs) r) (hbytes : 0 < r.byteCount)
    (htime : r'.ackTime = (markAcked seg r).ackTime)
    (hhold : ∀ b, r'.Holds b → r.Holds b ∧ b < seg.ack) : Timed (segs ++ [seg]) r' := by
  intro _ _ b hb
  obtain ⟨hb, hlt⟩ := hhold b hb
  rw [htime]
  by_cases hacked : r.acked = true
  · rw [markAcked_of_acked seg hacked]
    exact firstAck_append_of_some (h hbytes hacked b hb)
  · have hacked : r.acked = false := by simpa using hacked
    have htop := (hset hbytes).2 hacked
    have hnone : segs.find? (fun s => decide (b < s.ack)) = none := by
      rw [List.find?_eq_none]
      intro s hs
      have := le_topAck hs
      have := hb.1
      simp only [decide_eq_true_eq]
      omega
    rw [markAcked_ackTime_of_not seg hacked]
    unfold firstAck
    rw [List.find?_append, hnone, Option.none_or, List.find?_cons_of_pos (by simpa using hlt)]
    rfl

end Timed

/-- The ACK does not cut a range that another ACK has already given a different time. -/
def NotRewritten (rm : RangeManager) (seg : DataSeg) : Prop :=
  ∀ en ∈ rm.resume, en.2.acked = true → en.2.startSeq < seg.ack → seg.ack < en.2.endSeq →
    en.2.ackTime = seg.tstampPcap

instance (rm : RangeManager) (seg : DataSeg) : Decidable (NotRewritten rm seg) :=
  inferInstanceAs (Decidable (∀ en ∈ rm.resume, _))

theorem AckPass.timed {seg : DataSeg} {c c' : Option ℕ} {rest rest' : List Entry}
    {segs : List DataSeg} (hpass : AckPass seg c rest c' rest') (hwf : WfEntries rest)
    (hset : ∀ en ∈ rest, Settled (topAck segs) en.2)
    (hkeep : ∀ en ∈ rest, en.2.acked = true → en.2.startSeq < seg.ack → seg.ack < en.2.endSeq →
      en.2.ackTime = seg.tstampPcap)
    (h : ∀ en ∈ rest, Timed segs en.2) : ∀ en ∈ rest', Timed (segs ++ [seg]) en.2 := by
  have hlater : ∀ r, Timed segs r → Timed (segs ++ [seg]) r :=
    fun r h => h.later rfl rfl id fun _ => id
  -- a range acknowledged only now takes the time of this ACK, the first past its bytes
  induction hpass with
  | done c => exact fun en hen => nomatch hen
  | exact c key r rest hexact =>
      have ⟨hhead, hrest⟩ := List.forall_mem_cons.mp h
      refine List.forall_mem_cons.mpr ⟨?_, fun en hen => hlater _ (hrest en hen)⟩
      intro hpos
      have hbytes : 0 < r.byteCount := by
        rw [ackExact_byteCount] at hpos
        exact hpos
      refine hhead.acked (hset (key, r) List.mem_cons_self) hbytes
        (ackExact_times seg _ hbytes.ne').2 ?_ hpos
      intro b hb
      unfold ByteRange.Holds at hb
      rw [ackExact_startSeq, ackExact_endSeq] at hb
      refine ⟨hb, ?_⟩
      rcases hexact with hend | ⟨hzero, -⟩
      · exact hend ▸ hb.2
      · omega
  | late => exact fun en hen => hlater _ (h en hen)
  | pass c c' key r rest rest' hend hpass ih =>
      have ⟨hhead, hrest⟩ := List.forall_mem_cons.mp h
      refine List.forall_mem_cons.mpr ⟨?_, ?_⟩
      · intro hpos
        have hbytes : 0 < r.byteCount := by
          rw [markAcked_byteCount] at hpos
          exact hpos
        refine hhead.acked (hset (key, r) List.mem_cons_self) hbytes rfl ?_ hpos
        intro b hb
        unfold ByteRange.Holds at hb
        rw [markAcked_startSeq, markAcked_endSeq] at hb
        exact ⟨hb, hb.2.trans hend⟩
      · exact ih (wfEntries_cons.mp hwf).2 (fun en hen => hset en (List.mem_cons_of_mem _ hen))
          (fun en hen => hkeep en (List.mem_cons_of_mem _ hen)) hrest
  | split c key r rest hlo hhi =>
      have ⟨hhead, hrest⟩ := List.forall_mem_cons.mp h
      have hr : r.Wf := (wfEntries_cons.mp hwf).1.2
      have hbytes : 0 < r.byteCount := by
        have := hr.size
        omega
      refine List.forall_mem_cons.mpr ⟨?_, List.forall_mem_cons.mpr ⟨?_, ?_⟩⟩
      · refine hhead.acked (hset (key, r) List.mem_cons_self) hbytes ?_ ?_
        · -- `ackTime` is written in every cut; acknowledged bytes were promised this very time
          by_cases hacked : r.acked = true
          · rw [markAcked_of_acked seg hacked]
            exact (hkeep (key, r) List.mem_cons_self hacked hlo hhi).symm
          · rw [markAcked_ackTime_of_not seg (by simpa using hacked)]
            rfl
        · intro b hb
          have hlt : b < seg.ack := hb.2
          exact ⟨⟨hb.1, hlt.trans hhi⟩, hlt⟩
      · refine hhead.later rfl rfl (fun _ => hbytes) ?_
        intro b hb
        have hge : seg.ack ≤ b := hb.1
        exact ⟨hlo.le.trans hge, hb.2⟩
      · exact fun en hen => hlater _ (hrest en hen)
  | old => exact fun en hen => hlater _ (h en hen)

theorem AckPass.covered {seg : DataSeg} {c c' : Option ℕ} {rest rest' : List Entry} {b : ℕ}
    (hpass : AckPass seg c rest c' rest') (h : Covered rest b) : Covered rest' b := by
  induction hpass with
  | done c => exact h
  | exact c key r rest hexact =>
      rw [covered_cons] at h ⊢
      unfold ByteRange.Holds
      rw [ackExact_startSeq, ackExact_endSeq]
      exact h
  | late => exact h
  | pass c c' key r rest rest' hend hpass ih =>
      rw [covered_cons] at h ⊢
      unfold ByteRange.Holds
      rw [markAcked_startSeq, markAcked_endSeq]
      exact h.imp_right ih
  | split c key r rest hlo hhi =>
      rw [covered_cons] at h
      rw [covered_cons, covered_cons]
      rcases h with hb | hrest
      · by_cases hlt : b < seg.ack
        · exact .inl ⟨hb.1, hlt⟩
        · exact .inr (.inl ⟨not_lt.mp hlt, hb.2⟩)
      · exact .inr (.inr hrest)
  | old => exact h

/-- What a run of ACKs keeps as long as no time is rewritten. -/
structure TimedInv (start : RangeManager) (segs : List DataSeg) (rm : RangeManager) : Prop where
  inv : AckInv (topAck segs) rm
  timed : ∀ en ∈ rm.ranges.entries, Timed segs en.2
  covered : ∀ b, Covered start.ranges.entries b → Covered rm.ranges.entries b

theorem ackStep_timed {start rm rm' : RangeManager} {segs : List DataSeg} {seg : DataSeg}
    (h : TimedInv start segs rm) (hvalid : AckValid rm seg) (hkeep : NotRewritten rm seg)
    (hstep : rm.ackStep seg = .ok rm') : TimedInv start (segs ++ [seg]) rm' := by
  have hinv := ackStep_inv h.inv hvalid hstep
  obtain ⟨pre, rest', okey, hp⟩ := ackStep_processed h.inv.wf h.inv.sep hstep
  have hmem : ∀ en ∈ rm.resume, en ∈ rm.ranges.entries := by
    intro en hen
    rw [hp.cut]
    exact List.mem_append_right _ hen
  refine ⟨by rw [topAck_append]; exact hinv, ?_, ?_⟩
  · rw [hp.entries]
    apply forall_countAt (P := fun en => Timed (segs ++ [seg]) en.2) (fun _ _ h => h)
    refine List.forall_mem_append.mpr ⟨fun en hen => ?_, ?_⟩
    · have hen' : en ∈ rm.ranges.entries := by
        rw [hp.cut]
        exact List.mem_append_left _ hen
      exact (h.timed en hen').later rfl rfl id fun _ => id
    · exact hp.pass.timed (fun en hen => h.inv.wf en (hmem en hen))
        (fun en hen => h.inv.settled en (hmem en hen)) hkeep
        fun en hen => h.timed en (hmem en hen)
  · intro b hb
    have hb := h.covered b hb
    rw [hp.cut, covered_append] at hb
    have hcov : Covered (pre ++ rest') b := covered_append.mpr (hb.imp_right hp.pass.covered)
    obtain ⟨en, hen, hhold⟩ := hcov
    rw [hp.entries]
    refine ⟨countAt okey en, List.mem_map_of_mem hen, ?_⟩
    rw [countAt_blind (fun en => en.2.Holds b) (fun _ _ => rfl)]
    exact hhold

/-- As long as no ACK cuts an acknowledged range, every byte keeps the time of the first ACK above
it, in every state a run of ACKs returns; and it returns if the backward scans end. -/
theorem ackStep_run_first_times {rm : RangeManager} {segs : List DataSeg} (hinit : rm.Unacked)
    (hsteps : Run.Steps ackStep (fun rm seg => AckValid rm seg ∧ NotRewritten rm seg) rm segs) :
    (∀ rm', Run.run ackStep rm segs = .ok rm' →
      ∀ b, Covered rm.ranges.entries b → ∀ seg, firstAck segs b = some seg →
        ∃ en ∈ rm'.ranges.entries, en.2.Holds b ∧ en.2.acked = true ∧
          en.2.ackTime = seg.tstampPcap) ∧
    (Run.Steps ackStep ScanInside rm segs → ∃ rm', Run.run ackStep rm segs = .ok rm') := by
  have hstart : TimedInv rm [] rm := by
    refine ⟨hinit.ackInv, ?_, fun _ => id⟩
    intro en hen _ hacked
    rw [hinit.fresh en hen] at hacked
    cases hacked
  constructor
  · intro rm' hrun b hb seg hseg
    have hinv : TimedInv rm ([] ++ segs) rm' :=
      Run.invariant (I := fun rm' d => TimedInv rm d rm')
        (fun _ _ _ _ h hok hstep => ackStep_timed h hok.1 hok.2 hstep) hstart hsteps hrun
    rw [List.nil_append] at hinv
    obtain ⟨en, hen, hhold⟩ := hinv.covered b hb
    have hbytes : 0 < en.2.byteCount := by
      have hsize := (hinv.inv.wf en hen).2.size
      have := hhold.1
      have := hhold.2
      omega
    have hlt : b < seg.ack := by simpa using List.find?_some hseg
    -- the highest ACK lies above `b`, so the range that holds `b` cannot be unacknowledged
    have hacked : en.2.acked = true := by
      by_contra hnot
      have htop := (hinv.inv.settled en hen hbytes).2 (by simpa using hnot)
      have := le_topAck (List.mem_of_find?_eq_some hseg)
      have := hhold.1
      omega
    have htime := hinv.timed en hen hbytes hacked b hhold
    rw [hseg] at htime
    exact ⟨en, hen, hhold, hacked, (Option.some.inj htime).symm⟩
  · intro hscan
    have hrun : ∃ rm', Run.run ackStep rm segs = .ok rm' ∧ AckInv (topAck ([] ++ segs)) rm' := by
      have hstart : AckInv (topAck []) rm := hinit.ackInv
      apply Run.exists_ok (I := fun rm d => AckInv (topAck d) rm) (d := []) _ hstart
        (hsteps.and hscan)
      intro rm seg d hinv hok
      obtain ⟨rm', hstep⟩ := ackStep_ok hinv hok.1.1 hok.2
      rw [topAck_append]
      exact ⟨rm', hstep, ackStep_inv hinv hok.1.1 hstep⟩
    obtain ⟨rm', hrun, -⟩ := hrun
    exact ⟨rm', hrun⟩

/-- One segment of 100 bytes, sent at second 1. -/
def hundredBytes : RangeManager :=
  { new 0 with
    ranges := ⟨[(0, { ByteRange.blank 0 100 with
      byteCount := 100, sentTstampPcap := [(⟨1, 0⟩, .pkt)] })], by simp⟩
    lastSeq := 100 }

theorem hundredBytes_unacked : hundredBytes.Unacked := by
  refine ⟨by decide, ?_, ?_, by decide, rfl⟩
  · exact wfEntries_cons.mpr ⟨⟨rfl, ⟨rfl, by decide⟩⟩, wfEntries_nil⟩
  · exact List.pairwise_singleton ..

/-- Half of the bytes, all of them, and the first half again. -/
def rising : List DataSeg :=
  [{ ack := 50, tstampPcap := ⟨2, 0⟩ }, { ack := 100, tstampPcap := ⟨3, 0⟩ },
    { ack := 50, tstampPcap := ⟨4, 0⟩ }]

theorem ackStep_run_acked_iff_rising :
    ∃ rm', Run.run ackStep hundredBytes rising = .ok rm' ∧
      ∀ en ∈ rm'.ranges.entries, 0 < en.2.byteCount →
        (en.2.acked = true ↔ en.2.endSeq ≤ topAck rising) :=
  ackStep_run_acked_iff hundredBytes_unacked (by decide)

theorem ackStep_run_first_times_rising :
    Covered hundredBytes.ranges.entries 10 ∧
      firstAck rising 10 = some { ack := 50, tstampPcap := ⟨2, 0⟩ } ∧
      ∀ rm', Run.run ackStep hundredBytes rising = .ok rm' →
        ∃ en ∈ rm'.ranges.entries, en.2.Holds 10 ∧ en.2.acked = true ∧
          en.2.ackTime = ⟨2, 0⟩ := by
  have hb : Covered hundredBytes.ranges.entries 10 :=
    ⟨_, List.mem_cons_self, by decide⟩
  refine ⟨hb, rfl, fun rm' hrun => ?_⟩
  exact (ackStep_run_first_times hundredBytes_unacked (by decide)).1 rm' hrun 10 hb _ rfl

/-- All bytes at second 2, then a reordered ACK for half of them at second 3. -/
def reordered : List DataSeg :=
  [{ ack := 100, tstampPcap := ⟨2, 0⟩ }, { ack := 50, tstampPcap := ⟨3, 0⟩ }]

theorem ackStep_rewrites_time_of_reordered :
    ¬∀ rm segs rm', rm.Unacked → Run.Steps ackStep AckValid rm segs →
      (segs.Pairwise fun a b => b.tstampPcap.before a.tstampPcap = false) →
      Run.run ackStep rm segs = .ok rm' →
      ∀ b, Covered rm.ranges.entries b → ∀ seg, firstAck segs b = some seg →
        ∃ en ∈ rm'.ranges.entries, en.2.Holds b ∧ en.2.acked = true ∧
          en.2.ackTime = seg.tstampPcap := by
  intro h
  have hrun : (Run.run ackStep hundredBytes reordered).toOption.any (fun rm =>
      !decide (∃ en ∈ rm.ranges.entries, en.2.Holds 10 ∧ en.2.acked = true ∧
        en.2.ackTime = ⟨2, 0⟩)) = true := by decide
  cases hrm : Run.run ackStep hundredBytes reordered with
  | error e =>
      rw [hrm] at hrun
      cases hrun
  | ok rm =>
      rw [hrm] at hrun
      have hb : Covered hundredBytes.ranges.entries 10 := ⟨_, List.mem_cons_self, by decide⟩
      have hen := h hundredBytes reordered rm hundredBytes_unacked (by decide) (by decide) hrm 10 hb
        _ rfl
      simp [Except.toOption, hen] at hrun

end RangeManager

end AnalyseTCP
