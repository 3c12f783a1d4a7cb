import AnalyseTCP.Disjointness
import AnalyseTCP.SentCounts

/-!
# `lastSeq` and the end of the stream

`validateContent` expects the last range to end at `lastSeq` or one below it.  On a map without
overlaps, each call of `insertSentRange` keeps that under a condition that can be read off the
packet: a range behind a gap does not move `lastSeq`, and a packet without payload moves it to
itself even when it is old.
-/

namespace AnalyseTCP

/-- The largest end of a range. -/
def maxEnd (l : List Entry) : ℕ := (l.map fun en => en.2.endSeq).foldr max 0

theorem le_maxEnd {l : List Entry} {en : Entry} (hen : en ∈ l) : en.2.endSeq ≤ maxEnd l := by
  induction l with
  | nil => cases hen
  | cons d ds ih =>
      show en.2.endSeq ≤ max d.2.endSeq (maxEnd ds)
      rcases List.mem_cons.mp hen with rfl | hen
      · exact le_max_left ..
      · exact (ih hen).trans (le_max_right ..)

theorem maxEnd_le {l : List Entry} {n : ℕ} (h : ∀ en ∈ l, en.2.endSeq ≤ n) : maxEnd l ≤ n := by
  induction l with
  | nil => exact Nat.zero_le n
  | cons d ds ih =>
      show max d.2.endSeq (maxEnd ds) ≤ n
      exact max_le (h d List.mem_cons_self) (ih fun en hen => h en (List.mem_cons_of_mem d hen))

theorem maxEnd_append (l₁ l₂ : List Entry) : maxEnd (l₁ ++ l₂) = max (maxEnd l₁) (maxEnd l₂) := by
  induction l₁ with
  | nil => exact (Nat.zero_max _).symm
  | cons d ds ih =>
      show max d.2.endSeq (maxEnd (ds ++ l₂)) = max (max d.2.endSeq (maxEnd ds)) (maxEnd l₂)
      rw [ih, max_assoc]

theorem maxEnd_cons (en : Entry) (l : List Entry) :
    maxEnd (en :: l) = max en.2.endSeq (maxEnd l) := rfl

theorem maxEnd_nil : maxEnd [] = 0 := rfl

namespace RangeManager

/-! ## Where the ranges end after an insertion -/

section Pass

variable {lastSeq : ℕ} {itype : InsertType} {seg : DataSeg} {level s e : ℕ}
  {pre post old new : List Entry} {next : Option ℕ}

/-- A pass keeps every end it finds; the new ones are the segment's end or lie below others. -/
theorem Pass.maxEnd_bounds (hpass : Pass lastSeq itype seg level s e pre post old new next)
    (hlt : s < e) : maxEnd old ≤ maxEnd new ∧ maxEnd new ≤ max (maxEnd old) e := by
  -- endpoints only: every case is the comparison of a few numbers
  cases hpass with
  | fresh | missing | whole | front | span | reuse | back | middle | beyond =>
      simp [maxEnd_cons, maxEnd_nil]
      try omega

/-- The last pass over sent data leaves a range that ends where the data ends, or after it. -/
theorem Pass.end_le_maxEnd (hpass : Pass lastSeq itype seg level s e pre post old new next)
    (hitype : itype = .sent) (hnext : next = none) : e ≤ maxEnd new := by
  cases hpass with
  | missing hrecv => exact absurd (hitype.symm.trans hrecv) nofun
  | fresh | whole | front | back | middle =>
      simp [maxEnd_cons, maxEnd_nil]
      try omega
  | span | beyond => cases hnext
  | reuse r c hitype hempty hlo hhi =>
      by_cases hce : c < e
      · rw [if_pos hce] at hnext
        cases hnext
      · simp [maxEnd_cons, maxEnd_nil]
        omega

end Pass

/-- The ends of the ranges while `[s, e)` is inserted into a map whose largest end was `m`. -/
def EndsBetween (m e : ℕ) (l : List Entry) : Prop := m ≤ maxEnd l ∧ maxEnd l ≤ max m e

theorem passKeeps_ends {lastSeq e m : ℕ} {seg : DataSeg} :
    PassKeeps lastSeq .sent seg e (fun l _ _ => EndsBetween m e l)
      (fun l => maxEnd l = max m e) := by
  intro s level pre old new post next hready hinv hpass
  have hbounds := hpass.maxEnd_bounds hready.lt
  have hends : EndsBetween m e (pre ++ new ++ post) := by
    unfold EndsBetween at *
    simp only [maxEnd_append] at *
    omega
  refine ⟨fun hnext => ?_, fun _ _ => hends⟩
  have hlast := hpass.end_le_maxEnd rfl hnext
  unfold EndsBetween at hends
  simp only [maxEnd_append] at *
  omega

/-- After new or old data, the largest end is at least the data's. -/
theorem insertSentRange_maxEnd_data {rm rm' : RangeManager} {sd : SendData} (hinv : rm.Apart)
    (hsd : Sized sd) (hsize : sd.data.payloadSize ≠ 0) (hok : KeepsApart rm sd)
    (h : rm.insertSentRange sd = .ok rm') :
    maxEnd rm'.ranges.entries = max (maxEnd rm.ranges.entries) sd.data.endSeq ∧
      rm'.lastSeq = newLastSeq sd rm.lastSeq := by
  have hready := hinv.ready hsd hsize hok
  obtain ⟨rm₁, ret, h₁, rfl⟩ := insertSentRange_cases h
  have hins := insertLoop_inserted (by simp) passKeeps_ends hready ⟨le_rfl, le_max_left ..⟩ h₁
  exact ⟨hins.post, by rw [hins.frame.lastSeq]⟩

theorem EmptyPass.maxEnd_eq {seg : DataSeg} {rdb : Bool} {q : ℕ} {l l' : List Entry}
    (h : EmptyPass seg rdb q l l') (hwf : WfEntries l) :
    maxEnd l' = max (maxEnd l) q := by
  cases h with
  | fresh hpre hpost =>
      simp only [maxEnd_append, maxEnd_cons, emptyRange_endSeq]
      omega
  | @found pre post r =>
      have hr : q = r.startSeq ∧ r.Wf := hwf (q, r) (by simp)
      have := hr.2.le
      simp only [maxEnd_append, maxEnd_cons, recordEmpty_endSeq]
      omega

/-! ## Each call -/

/-- The condition that `validateContent` checks, for the largest end. -/
def Tracks (rm : RangeManager) : Prop :=
  maxEnd rm.ranges.entries ≤ rm.lastSeq ∧ rm.lastSeq ≤ maxEnd rm.ranges.entries + 1

instance (rm : RangeManager) : Decidable rm.Tracks := inferInstanceAs (Decidable (_ ∧ _))

/-- The packet does not lie behind a gap, and does not pull `lastSeq` below the ranges. -/
def MovesLastSeq (rm : RangeManager) (sd : SendData) : Prop :=
  if sd.data.payloadSize = 0 ∧ sd.data.rst = false then
    ∀ en ∈ rm.ranges.entries, en.2.endSeq ≤ sd.data.seq + sd.data.syn.toNat
  else sd.data.seq ≤ rm.lastSeq

instance (rm : RangeManager) (sd : SendData) : Decidable (MovesLastSeq rm sd) := by
  unfold MovesLastSeq
  infer_instance

theorem insertSentRange_tracks_data {rm rm' : RangeManager} {sd : SendData} (hinv : rm.Apart)
    (htracks : rm.Tracks) (hsd : Sized sd) (hsize : sd.data.payloadSize ≠ 0)
    (hok : KeepsApart rm sd) (h : rm.insertSentRange sd = .ok rm') :
    rm'.Tracks ↔ MovesLastSeq rm sd := by
  obtain ⟨hmax, hlast⟩ := insertSentRange_maxEnd_data hinv hsd hsize hok h
  have hend := hsd.size
  unfold Tracks at *
  unfold MovesLastSeq
  rw [if_neg fun h => hsize h.1, hmax, hlast]
  unfold newLastSeq
  rw [if_neg hsize]
  split_ifs <;> omega

/-- Where a packet without payload is registered lies at most one below it. -/
theorem le_emptySeq_succ {rm : RangeManager} {seg : DataSeg} {s : ℕ} (hs : s < 2 ^ 64) :
    s ≤ rm.emptySeq seg s + 1 := by
  unfold emptySeq
  split
  · unfold sub64
    omega
  · omega

theorem insertSentRange_tracks_empty {rm rm' : RangeManager} {sd : SendData} (hinv : rm.Apart)
    (htracks : rm.Tracks) (hsd : Sized sd) (hseq : sd.data.seq < 2 ^ 64)
    (hsize : sd.data.payloadSize = 0) (h : rm.insertSentRange sd = .ok rm') :
    rm'.Tracks ↔ MovesLastSeq rm sd := by
  have hend : sd.data.endSeq = sd.data.seq := by simpa [hsize] using hsd.size
  obtain ⟨rm₁, h₁, hlast, hpass⟩ := insertSentRange_empty rm hend
  obtain rfl := Except.ok.inj (h₁.symm.trans h)
  have hmax := hpass.maxEnd_eq hinv.1
  have hq : sd.data.seq ≤ rm.emptySeq sd.data sd.data.seq + 1 := le_emptySeq_succ hseq
  -- the range lies at the number of the packet, or the pure ACK is booked on the range one below
  have hqmax : rm.emptySeq sd.data sd.data.seq = sd.data.seq ∨
      sd.data.noFlags = true ∧ rm.emptySeq sd.data sd.data.seq ≤ maxEnd rm.ranges.entries := by
    by_cases hprev : sd.data.noFlags ∧ (rm.ranges.find? (sub64 sd.data.seq 1)).isSome
    · right
      refine ⟨hprev.1, ?_⟩
      obtain ⟨r, hr⟩ := Option.isSome_iff_exists.mp hprev.2
      have hmem := OrdMap.find?_eq_some_iff.mp hr
      have hq : rm.emptySeq sd.data sd.data.seq = sub64 sd.data.seq 1 := if_pos hprev
      have hwf : sub64 sd.data.seq 1 = r.startSeq ∧ r.Wf := hinv.1 (sub64 sd.data.seq 1, r) hmem
      have hle : r.endSeq ≤ maxEnd rm.ranges.entries := le_maxEnd hmem
      have := hwf.2.le
      omega
    · exact .inl (if_neg hprev)
  unfold Tracks at *
  unfold MovesLastSeq
  rw [hmax, hlast]
  unfold newLastSeq
  rw [if_pos hsize, hend]
  by_cases hrst : sd.data.rst = true
  · -- a RST leaves `lastSeq` alone and is not taken for a pure ACK
    have hflags : sd.data.noFlags = false := by
      unfold DataSeg.noFlags
      rw [hrst]
      simp
    rw [if_pos hrst, if_neg fun h => Bool.false_ne_true (h.2.symm.trans hrst)]
    rcases hqmax with hq' | ⟨hno, -⟩
    · omega
    · exact absurd (hflags.symm.trans hno) Bool.false_ne_true
  · have hrst' : sd.data.rst = false := by simpa using hrst
    rw [if_neg hrst, if_pos ⟨hsize, hrst'⟩]
    have hall : (∀ en ∈ rm.ranges.entries, en.2.endSeq ≤ sd.data.seq + sd.data.syn.toNat) ↔
        maxEnd rm.ranges.entries ≤ sd.data.seq + sd.data.syn.toNat :=
      ⟨maxEnd_le, fun h en hen => (le_maxEnd hen).trans h⟩
    rw [hall]
    have hsyn : sd.data.syn.toNat ≤ 1 := Bool.toNat_le _
    rcases hqmax with hq' | ⟨hno, hle⟩
    · omega
    · have hsyn0 : sd.data.syn.toNat = 0 := by
        rw [(flags_of_noFlags hno).1]
        rfl
      omega

theorem insertSentRange_tracks_iff {rm rm' : RangeManager} {sd : SendData} (hinv : rm.Apart)
    (htracks : rm.Tracks) (hsd : Sized sd) (hseq : sd.data.seq < 2 ^ 64) (hok : KeepsApart rm sd)
    (h : rm.insertSentRange sd = .ok rm') : rm'.Tracks ↔ MovesLastSeq rm sd := by
  by_cases hsize : sd.data.payloadSize = 0
  · exact insertSentRange_tracks_empty hinv htracks hsd hseq hsize h
  · exact insertSentRange_tracks_data hinv htracks hsd hsize hok h

/-! ## Runs -/

/-- The check holds after the call. -/
def TracksAfter (rm : RangeManager) (sd : SendData) : Prop :=
  ∀ rm', rm.insertSentRange sd = .ok rm' → rm'.Tracks

theorem steps_tracks_iff {rm rm' : RangeManager} {sds : List SendData} (hinv : rm.Apart)
    (htracks : rm.Tracks) (hsds : ∀ sd ∈ sds, Sized sd ∧ sd.data.seq < 2 ^ 64)
    (hsteps : Run.Steps insertSentRange KeepsApart rm sds)
    (hrun : Run.run insertSentRange rm sds = .ok rm') :
    Run.Steps insertSentRange TracksAfter rm sds ↔
      Run.Steps insertSentRange MovesLastSeq rm sds := by
  induction sds generalizing rm with
  | nil => exact Iff.rfl
  | cons sd sds ih =>
      obtain ⟨rm₁, hstep, hrun⟩ := Run.exists_of_run_cons hrun
      have ⟨hsd, hsds⟩ := List.forall_mem_cons.mp hsds
      have hiff := insertSentRange_tracks_iff hinv htracks hsd.1 hsd.2 hsteps.1 hstep
      have hafter : TracksAfter rm sd ↔ rm₁.Tracks := by
        refine ⟨fun h => h rm₁ hstep, fun h rm₂ hrm₂ => ?_⟩
        obtain rfl := Except.ok.inj (hstep.symm.trans hrm₂)
        exact h
      have hinv₁ := insertSentRange_apart hinv hsd.1 hsteps.1 hstep
      rw [Run.Steps, Run.Steps, hafter, hiff]
      refine and_congr_right fun hmoves => ?_
      have hrest := ih hinv₁ (hiff.mpr hmoves) hsds (hsteps.2 rm₁ hstep) hrun
      constructor
      · intro h rm₂ hrm₂
        obtain rfl := Except.ok.inj (hstep.symm.trans hrm₂)
        exact hrest.mp (h rm₁ hstep)
      · intro h rm₂ hrm₂
        obtain rfl := Except.ok.inj (hstep.symm.trans hrm₂)
        exact hrest.mpr (h rm₁ hstep)

/-- Ten bytes, and ten more behind a gap of ten. -/
def missingSegment : List SendData :=
  [{ data := { seq := 0, endSeq := 10, payloadSize := 10 } },
    { data := { seq := 20, endSeq := 30, payloadSize := 10 } }]

/-- Twenty bytes in two segments, and a pure ACK that was delayed between them. -/
def delayedAck : List SendData :=
  [{ data := { seq := 0, endSeq := 10, payloadSize := 10 } },
    { data := { seq := 10, endSeq := 20, payloadSize := 10 } },
    { data := { seq := 10, endSeq := 10 } }]

end RangeManager

end AnalyseTCP
