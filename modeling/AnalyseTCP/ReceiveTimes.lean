import AnalyseTCP.Refinement
import AnalyseTCP.LossAgreement

/-!
# First receive times

`increase_received` stores the times of a received segment only while `data_received_count` reads 0,
so a range should keep the times of the first segment that covered its bytes.  A split copies the
count and the TCP timestamp to the tail but not the capture time; and a segment is given up at the
first byte that no range holds, so that ranges behind a gap miss it.
-/

namespace AnalyseTCP

namespace RangeManager

/-- `cov x` are the segments that covered the byte `x`, in their order. -/
structure FirstTimes (cov : ℕ → List SendData) (r : ByteRange) : Prop where
  fits : r.dataReceivedCount.Fits
  count : ∀ x, r.Holds x → r.dataReceivedCount.total = (cov x).length
  first : ∀ x, r.Holds x → ∀ sd ∈ (cov x).head?,
    r.receivedTstampPcap = some sd.data.tstampPcap ∧ r.receivedTstampTcp = sd.data.tstampTcp

/-- What `increase_received` reads and writes. -/
def recvTimes (r : ByteRange) : Counter 8 × Option Timeval × ℕ :=
  (r.dataReceivedCount, r.receivedTstampPcap, r.receivedTstampTcp)

section Times

variable {cov cov' : ℕ → List SendData} {r r' : ByteRange} {sd : SendData}

/-- Part of a range with the same times, when its bytes were covered by the same segments. -/
theorem FirstTimes.part (h : FirstTimes cov r) (hsub : ∀ x, r'.Holds x → r.Holds x)
    (htimes : recvTimes r' = recvTimes r) (hcov : ∀ x, r'.Holds x → cov' x = cov x) :
    FirstTimes cov' r' := by
  obtain ⟨hcount, hrest⟩ := Prod.mk.inj htimes
  obtain ⟨hpcap, htcp⟩ := Prod.mk.inj hrest
  refine ⟨hcount ▸ h.fits, fun x hx => ?_, fun x hx sd hsd => ?_⟩
  · rw [hcount, hcov x hx]
    exact h.count x (hsub x hx)
  · rw [hcov x hx] at hsd
    rw [hpcap, htcp]
    exact h.first x (hsub x hx) sd hsd

theorem FirstTimes.congr (h : FirstTimes cov r) (hcov : ∀ x, r.Holds x → cov' x = cov x) :
    FirstTimes cov' r :=
  h.part (fun _ hx => hx) rfl hcov

theorem FirstTimes.head (h : FirstTimes cov r) {c : ℕ} (hc : c ≤ r.endSeq)
    (hcov : ∀ x, x < c → r.Holds x → cov' x = cov x) : FirstTimes cov' (r.head c) := by
  refine h.part (fun x hx => ⟨hx.1, hx.2.trans_le hc⟩) rfl fun x hx => ?_
  exact hcov x hx.2 ⟨hx.1, hx.2.trans_le hc⟩

/-- Any piece of a range that was not received yet. -/
theorem FirstTimes.piece (h : FirstTimes cov r) (hnone : r.dataReceivedCount.val = 0)
    (hcount : r'.dataReceivedCount = r.dataReceivedCount) (hsub : ∀ x, r'.Holds x → r.Holds x) :
    FirstTimes cov r' := by
  have htotal : r.dataReceivedCount.total = 0 := by
    rw [← Counter.val_of_fits h.fits]
    exact hnone
  refine ⟨hcount ▸ h.fits, fun x hx => hcount ▸ h.count x (hsub x hx), fun x hx sd hsd => ?_⟩
  have hnil : cov x = [] := by
    apply List.eq_nil_of_length_eq_zero
    rw [← h.count x (hsub x hx)]
    exact htotal
  rw [hnil] at hsd
  cases hsd

/-- Only the first copy sets the times. -/
theorem recvTimes_recordRecv (seg : DataSeg) (level : ℕ) (r : ByteRange) :
    recvTimes (recordRecv seg level r) =
      if r.dataReceivedCount.val = 0 then
        (r.dataReceivedCount + 1, some seg.tstampPcap, seg.tstampTcp)
      else (r.dataReceivedCount + 1, r.receivedTstampPcap, r.receivedTstampTcp) := by
  have hcount : ∀ (r : ByteRange) c, recvTimes { r with packetReceivedCount := c } = recvTimes r :=
    fun _ _ => rfl
  have hrecv : recvTimes (recordRecv seg level r) =
      recvTimes (r.increaseReceived seg.tstampTcp seg.tstampPcap seg.inSequence) := by
    unfold recordRecv
    dsimp only
    split
    · rw [hcount]
    · rfl
  rw [hrecv]
  unfold ByteRange.increaseReceived
  split <;> rfl

/-- One more segment covers all bytes of the range. -/
theorem FirstTimes.record (h : FirstTimes cov r) (level : ℕ)
    (hroom : r.dataReceivedCount.val ≠ 255)
    (hcov : ∀ x, r.Holds x → cov' x = cov x ++ [sd]) :
    FirstTimes cov' (recordRecv (receivedSeg sd) level r) := by
  have hval := Counter.val_of_fits h.fits
  have hfits : r.dataReceivedCount.total < 2 ^ 8 := h.fits
  have htimes := recvTimes_recordRecv (receivedSeg sd) level r
  have hcount : (recordRecv (receivedSeg sd) level r).dataReceivedCount =
      r.dataReceivedCount + 1 := by
    have := congrArg Prod.fst htimes
    split at this
    · exact this
    · exact this
  have hholds : ∀ x, (recordRecv (receivedSeg sd) level r).Holds x ↔ r.Holds x := by
    intro x
    unfold ByteRange.Holds
    rw [recordRecv_startSeq, recordRecv_endSeq]
  refine ⟨?_, fun x hx => ?_, fun x hx sd' hsd' => ?_⟩
  · show (recordRecv (receivedSeg sd) level r).dataReceivedCount.total < 2 ^ 8
    rw [hcount, Counter.total_add]
    omega
  · rw [hholds] at hx
    rw [hcount, Counter.total_add, hcov x hx, List.length_append, h.count x hx]
    rfl
  · rw [hholds] at hx
    rw [hcov x hx] at hsd'
    by_cases hzero : r.dataReceivedCount.val = 0
    · -- the first copy
      have hnil : cov x = [] := by
        apply List.eq_nil_of_length_eq_zero
        rw [← h.count x hx, ← hval]
        exact hzero
      rw [hnil] at hsd'
      obtain rfl : sd = sd' := Option.some.inj hsd'
      rw [if_pos hzero] at htimes
      obtain ⟨-, htimes⟩ := Prod.mk.inj htimes
      exact Prod.mk.inj htimes
    · rw [if_neg hzero] at htimes
      obtain ⟨-, htimes⟩ := Prod.mk.inj htimes
      obtain ⟨hpcap, htcp⟩ := Prod.mk.inj htimes
      rw [hpcap, htcp]
      apply h.first x hx
      have hne : cov x ≠ [] := by
        intro hnil
        apply hzero
        rw [hval, h.count x hx, hnil]
        rfl
      rwa [List.head?_append_of_ne_nil _ hne] at hsd'

end Times

/-! ## One segment -/

/-- The segments that covered `x`: those before `sd`, and `sd` up to `t`. -/
def coveredUpTo (sds : List SendData) (sd : SendData) (t x : ℕ) : List SendData :=
  sds.filter (SendData.carries x) ++ if sd.data.seq ≤ x ∧ x < t then [sd] else []

theorem coveredUpTo_of_mem {sds : List SendData} {sd : SendData} {s t x : ℕ}
    (hs : sd.data.seq ≤ s) (hlo : s ≤ x) (hhi : x < t) :
    coveredUpTo sds sd t x = coveredUpTo sds sd s x ++ [sd] := by
  unfold coveredUpTo
  rw [if_pos ⟨hs.trans hlo, hhi⟩, if_neg (by omega), List.append_nil]

theorem coveredUpTo_of_not {sds : List SendData} {sd : SendData} {s t x : ℕ}
    (hst : s ≤ t) (h : ¬(s ≤ x ∧ x < t)) :
    coveredUpTo sds sd t x = coveredUpTo sds sd s x := by
  unfold coveredUpTo
  congr 1
  have hiff : (sd.data.seq ≤ x ∧ x < t) ↔ (sd.data.seq ≤ x ∧ x < s) := by omega
  simp only [hiff]

/-- The segment cuts no range that was already received, no range it covers has been received 255
times, and it is not given up in front of a range that it covers. -/
structure KeepsTimes (lastSeq : ℕ) (l : List Entry) (s e : ℕ) : Prop where
  cutStart : ∀ en ∈ l, en.2.Inside s → en.2.dataReceivedCount.val = 0
  cutEnd : ∀ en ∈ l, en.2.Inside e → en.2.dataReceivedCount.val = 0
  room : ∀ en ∈ l, s < en.2.endSeq → en.2.startSeq < e → en.2.dataReceivedCount.val ≠ 255
  inside : ∀ en ∈ l, en.1 < s → s < en.2.endSeq → s < lastSeq
  noSkip : NoSkip l s e

instance (lastSeq : ℕ) (l : List Entry) (s e : ℕ) : Decidable (KeepsTimes lastSeq l s e) :=
  decidable_of_iff ((∀ en ∈ l, en.2.Inside s → en.2.dataReceivedCount.val = 0) ∧
      (∀ en ∈ l, en.2.Inside e → en.2.dataReceivedCount.val = 0) ∧
      (∀ en ∈ l, s < en.2.endSeq → en.2.startSeq < e → en.2.dataReceivedCount.val ≠ 255) ∧
      (∀ en ∈ l, en.1 < s → s < en.2.endSeq → s < lastSeq) ∧ NoSkip l s e)
    ⟨fun ⟨h₁, h₂, h₃, h₄, h₅⟩ => ⟨h₁, h₂, h₃, h₄, h₅⟩, fun ⟨h₁, h₂, h₃, h₄, h₅⟩ => ⟨h₁, h₂, h₃, h₄, h₅⟩⟩

section Pass

variable {lastSeq : ℕ} {sds : List SendData} {sd : SendData} {level s e : ℕ}
  {pre post old new : List Entry} {next : Option ℕ}

/-- The bytes that a pass handles lie in the range it starts in, and in no other; a segment that is
given up reaches into no range. -/
theorem Pass.not_holds_outside
    (hpass : Pass lastSeq .recv (receivedSeg sd) level s e pre post old new next)
    (hwf : WfEntries (pre ++ old ++ post)) (hsep : Separated (pre ++ old ++ post))
    (hok : KeepsTimes lastSeq (pre ++ old ++ post) s e) {en : Entry} (hen : en ∈ pre ++ post)
    {x : ℕ} (hx : en.2.Holds x) : ¬(s ≤ x ∧ x < next.getD e) := by
  rintro ⟨hlo, hhi⟩
  have hx₁ : en.2.startSeq ≤ x := hx.1
  have hx₂ : x < en.2.endSeq := hx.2
  -- all other passes handle bytes of the one range they start in
  have hone : ∀ key r, old = [(key, r)] → key ≤ s → next.getD e ≤ r.endSeq → False := by
    rintro key r rfl hkey hend
    obtain ⟨-, hpre, hpost⟩ := separated_around hsep
    have hstart : key = r.startSeq := (hwf (key, r) (by simp)).1
    rcases List.mem_append.mp hen with hen | hen
    · have hle : en.2.endSeq ≤ r.startSeq := hpre en hen
      omega
    · have hle : r.endSeq ≤ en.2.startSeq := hpost en hen
      omega
  cases hpass with
  | fresh hitype => cases hitype
  | reuse r c hitype => cases hitype
  | whole r hend => exact hone s r rfl le_rfl hend.ge
  | front r hend => exact hone s r rfl le_rfl hend.le
  | span r => exact hone s r rfl le_rfl le_rfl
  | back key r hkey _ hend => exact hone key r rfl hkey.le hend.ge
  | middle key r hkey hend => exact hone key r rfl hkey.le hend.le
  | beyond key r hkey => exact hone key r rfl hkey.le le_rfl
  | missing _ hpre hpost hgap =>
      have hkey : en.1 = en.2.startSeq := (hwf en (by simpa using hen)).1
      have hfree : ∀ o ∈ pre ++ post, o.1 ≠ s := by
        intro o ho
        rcases List.mem_append.mp ho with ho | ho
        · exact (hpre o ho).ne
        · exact (hpost o ho).ne'
      have hnot : ∀ o ∈ pre ++ post, ¬o.2.Holds s := by
        intro o ho hhold
        have hokey : o.1 = o.2.startSeq := (hwf o (by simpa using ho)).1
        have hstart : o.2.startSeq ≤ s := hhold.1
        have hlow : o.1 < s := lt_of_le_of_ne (hokey ▸ hstart) (hfree o ho)
        exact hgap (hok.inside o (by simpa using ho) hlow hhold.2) o ho hhold
      have hheld : ¬Held (pre ++ [] ++ post) s := by
        rintro ⟨o, ho, hkey | hhold⟩
        · exact hfree o (by simpa using ho) hkey
        · exact hnot o (by simpa using ho) hhold
      have hlt : s < e := hlo.trans_lt hhi
      have hskip := hok.noSkip s le_rfl hlt (.inl rfl) hheld en (by simpa using hen)
      have hhi' : x < e := hhi
      apply hnot en hen
      exact ⟨by omega, by omega⟩

/-- The ranges that a pass makes have their first times. -/
theorem Pass.firstTimes (hpass : Pass lastSeq .recv (receivedSeg sd) level s e pre post old new next)
    (hwf : WfEntries (pre ++ old ++ post)) (hlt : s < e) (hs : sd.data.seq ≤ s)
    (hok : KeepsTimes lastSeq (pre ++ old ++ post) s e)
    (htimes : ∀ en ∈ old, FirstTimes (coveredUpTo sds sd s) en.2) :
    ∀ en ∈ new, FirstTimes (coveredUpTo sds sd (next.getD e)) en.2 := by
  have hmem : ∀ en ∈ old, en ∈ pre ++ old ++ post := fun en hen =>
    List.mem_append_left _ (List.mem_append_right _ hen)
  have hnext : s ≤ next.getD e := by
    cases next with
    | none => exact hlt.le
    | some s' => exact (hpass.next_bounds rfl).1.le
  have hfew : ∀ r : ByteRange, r.dataReceivedCount.val = 0 → r.dataReceivedCount.val ≠ 255 := by
    intro r hzero
    omega
  -- what is left in front of the segment keeps its bytes and times
  have hbefore : ∀ key r, (key, r) ∈ old → s ≤ r.endSeq →
      FirstTimes (coveredUpTo sds sd (next.getD e)) (r.head s) := by
    intro key r hin hle
    refine (htimes _ hin).head hle fun x hx _ => coveredUpTo_of_not hnext ?_
    omega
  cases hpass with
  | fresh hitype => cases hitype
  | reuse r c hitype => cases hitype
  | missing => exact fun en hen => absurd hen List.not_mem_nil
  | whole r hend =>
      have hin := List.mem_singleton_self (s, r)
      have hr : s = r.startSeq := (hwf _ (hmem _ hin)).1
      rw [List.forall_mem_singleton]
      refine (htimes _ hin).record level (hok.room _ (hmem _ hin) ?_ ?_) fun x hx => ?_
      · show s < r.endSeq
        omega
      · show r.startSeq < e
        omega
      · have hx₁ : r.startSeq ≤ x := hx.1
        have hx₂ : x < r.endSeq := hx.2
        exact coveredUpTo_of_mem hs (by omega) (show x < e by omega)
  | span r hbytes hend =>
      have hin := List.mem_singleton_self (s, r)
      have hr : s = r.startSeq := (hwf _ (hmem _ hin)).1
      rw [List.forall_mem_singleton]
      refine (htimes _ hin).record level (hok.room _ (hmem _ hin) hbytes ?_) fun x hx => ?_
      · show r.startSeq < e
        omega
      · have hx₁ : r.startSeq ≤ x := hx.1
        exact coveredUpTo_of_mem hs (by omega) hx.2
  | front r hend =>
      have hin := List.mem_singleton_self (s, r)
      have hr : s = r.startSeq := (hwf _ (hmem _ hin)).1
      have hnone : r.dataReceivedCount.val = 0 :=
        hok.cutEnd _ (hmem _ hin) ⟨show r.startSeq < e by omega, hend⟩
      have hhead : FirstTimes (coveredUpTo sds sd s) (r.head e) :=
        (htimes _ hin).head hend.le fun _ _ _ => rfl
      have htail : FirstTimes (coveredUpTo sds sd s) (r.tail e) :=
        (htimes _ hin).piece hnone rfl fun x hx => by
          have hx₁ : e ≤ x := hx.1
          exact ⟨show r.startSeq ≤ x by omega, hx.2⟩
      simp only [List.forall_mem_cons]
      refine ⟨?_, ?_, fun en hen => absurd hen List.not_mem_nil⟩
      · refine hhead.record level (hfew (r.head e) hnone) fun x hx => ?_
        · have hx₁ : r.startSeq ≤ x := hx.1
          exact coveredUpTo_of_mem hs (by omega) hx.2
      · refine htail.congr fun x hx => coveredUpTo_of_not hlt.le ?_
        have hx₁ : e ≤ x := hx.1
        show ¬(s ≤ x ∧ x < e)
        omega
  | back key r hkey hlo hend =>
      have hin := List.mem_singleton_self (key, r)
      have hr : key = r.startSeq := (hwf _ (hmem _ hin)).1
      have hnone : r.dataReceivedCount.val = 0 :=
        hok.cutStart _ (hmem _ hin) ⟨show r.startSeq < s by omega, hlo⟩
      have hpiece : FirstTimes (coveredUpTo sds sd s) (finSet (receivedSeg sd) (r.tail s)) := by
        refine (htimes _ hin).piece hnone (finSet_blind _ _ fun _ _ => rfl) fun x hx => ?_
        unfold ByteRange.Holds at hx ⊢
        rw [finSet_startSeq, finSet_endSeq, ByteRange.tail_startSeq, ByteRange.tail_endSeq] at hx
        show r.startSeq ≤ x ∧ x < r.endSeq
        omega
      simp only [List.forall_mem_cons]
      refine ⟨hbefore key r hin hlo.le, ?_, fun en hen => absurd hen List.not_mem_nil⟩
      refine hpiece.record level ?_ fun x hx => ?_
      · rw [finSet_blind (receivedSeg sd) (r.tail s) (f := fun r => r.dataReceivedCount.val)
          fun _ _ => rfl]
        exact hfew r hnone
      · unfold ByteRange.Holds at hx
        rw [finSet_startSeq, finSet_endSeq] at hx
        have hx₂ : x < r.endSeq := hx.2
        exact coveredUpTo_of_mem hs hx.1 (show x < e by omega)
  | beyond key r hkey hlo hend =>
      have hin := List.mem_singleton_self (key, r)
      have hr : key = r.startSeq := (hwf _ (hmem _ hin)).1
      have hnone : r.dataReceivedCount.val = 0 :=
        hok.cutStart _ (hmem _ hin) ⟨show r.startSeq < s by omega, hlo⟩
      have hpiece : FirstTimes (coveredUpTo sds sd s) (r.tail s) := by
        refine (htimes _ hin).piece hnone rfl fun x hx => ?_
        have hx₁ : s ≤ x := hx.1
        exact ⟨show r.startSeq ≤ x by omega, hx.2⟩
      simp only [List.forall_mem_cons]
      refine ⟨hbefore key r hin hlo.le, ?_, fun en hen => absurd hen List.not_mem_nil⟩
      exact hpiece.record level (hfew r hnone) fun x hx => coveredUpTo_of_mem hs hx.1 hx.2
  | middle key r hkey hend =>
      have hin := List.mem_singleton_self (key, r)
      have hr : key = r.startSeq := (hwf _ (hmem _ hin)).1
      have hnone : r.dataReceivedCount.val = 0 :=
        hok.cutStart _ (hmem _ hin) ⟨show r.startSeq < s by omega, hlt.trans hend⟩
      have hpiece : FirstTimes (coveredUpTo sds sd s)
          (finSet (receivedSeg sd) ((r.tail s).head e)) := by
        refine (htimes _ hin).piece hnone (finSet_blind _ _ fun _ _ => rfl) fun x hx => ?_
        unfold ByteRange.Holds at hx ⊢
        rw [finSet_startSeq, finSet_endSeq, ByteRange.head_startSeq, ByteRange.head_endSeq,
          ByteRange.tail_startSeq] at hx
        show r.startSeq ≤ x ∧ x < r.endSeq
        omega
      have hrest : FirstTimes (coveredUpTo sds sd s) ((r.tail s).tail e) := by
        refine (htimes _ hin).piece hnone rfl fun x hx => ?_
        have hx₁ : e ≤ x := hx.1
        exact ⟨show r.startSeq ≤ x by omega, hx.2⟩
      simp only [List.forall_mem_cons]
      refine ⟨hbefore key r hin (hlt.trans hend).le, ?_, ?_,
        fun en hen => absurd hen List.not_mem_nil⟩
      · refine hpiece.record level ?_ fun x hx => ?_
        · rw [finSet_blind (receivedSeg sd) ((r.tail s).head e)
            (f := fun r => r.dataReceivedCount.val) fun _ _ => rfl]
          exact hfew r hnone
        · unfold ByteRange.Holds at hx
          rw [finSet_startSeq, finSet_endSeq] at hx
          exact coveredUpTo_of_mem hs hx.1 hx.2
      · refine hrest.congr fun x hx => coveredUpTo_of_not hlt.le ?_
        have hx₁ : e ≤ x := hx.1
        show ¬(s ≤ x ∧ x < e)
        omega

/-- A pass leaves the next one nothing to cut but what it found. -/
theorem Pass.keepsTimes (hpass : Pass lastSeq .recv (receivedSeg sd) level s e pre post old new next)
    (hwf : WfEntries (pre ++ old ++ post)) (hsep : Separated (pre ++ old ++ post))
    (hok : KeepsTimes lastSeq (pre ++ old ++ post) s e) {s' : ℕ} (hnext : next = some s') :
    KeepsTimes lastSeq (pre ++ new ++ post) s' e := by
  have hcont := hpass.continues hwf hsep hnext
  obtain ⟨hlo, hhi⟩ := hpass.next_bounds hnext
  -- an entry either ends at or below `s'`, or it starts there and was there before
  have hcases : ∀ en ∈ pre ++ new ++ post, en.2.endSeq ≤ s' ∨
      en ∈ pre ++ old ++ post ∧ s' ≤ en.1 ∧ s' ≤ en.2.startSeq := by
    intro en hen
    rcases List.mem_append.mp hen with hen | hen
    · rcases List.mem_append.mp hen with hen | hen
      · have := (hcont.pre_le en hen).2
        exact .inl (by omega)
      · exact .inl (hcont.new_le en hen).2
    · have hmem : en ∈ pre ++ old ++ post := List.mem_append_right _ hen
      have hkey := (hwf en hmem).1
      have hle := hcont.le_post en hen
      exact .inr ⟨hmem, hle, by omega⟩
  refine ⟨fun en hen hin => ?_, fun en hen hin => ?_, fun en hen hend hstart => ?_,
    fun en hen hkey hend => ?_, hcont.noSkip hlo hok.noSkip⟩
  · have hin₁ : en.2.startSeq < s' := hin.1
    have hin₂ : s' < en.2.endSeq := hin.2
    rcases hcases en hen with hle | ⟨-, -, hle⟩
    · omega
    · omega
  · have hin₂ : e < en.2.endSeq := hin.2
    rcases hcases en hen with hle | ⟨hmem, -, -⟩
    · omega
    · exact hok.cutEnd en hmem hin
  · rcases hcases en hen with hle | ⟨hmem, -, -⟩
    · omega
    · exact hok.room en hmem (hlo.trans hend) hstart
  · rcases hcases en hen with hle | ⟨-, hle, -⟩
    · omega
    · omega

end Pass

/-- What the passes over one segment keep. -/
structure KeepingTimes (lastSeq : ℕ) (sds : List SendData) (sd : SendData) (l : List Entry) (s : ℕ) :
    Prop where
  times : ∀ en ∈ l, FirstTimes (coveredUpTo sds sd s) en.2
  start : sd.data.seq ≤ s
  keeps : KeepsTimes lastSeq l s sd.data.endSeq

theorem recvKeeps_times (lastSeq : ℕ) (sds : List SendData) (sd : SendData) :
    RecvKeeps lastSeq (receivedSeg sd) sd.data.endSeq (KeepingTimes lastSeq sds sd)
      (fun l => ∀ en ∈ l, FirstTimes (coveredUpTo sds sd sd.data.endSeq) en.2) := by
  intro s level pre old new post next hwf hsep hlt hinv hpass
  obtain ⟨htimes, hs, hok⟩ := hinv
  have hnew := hpass.firstTimes hwf hlt hs hok fun en hen =>
    htimes en (List.mem_append_left _ (List.mem_append_right _ hen))
  have hle : s ≤ next.getD sd.data.endSeq := by
    cases next with
    | none => exact hlt.le
    | some s' => exact (hpass.next_bounds rfl).1.le
  -- the other ranges hold no byte of this pass, so what covers them has not changed
  have hout : ∀ en ∈ pre ++ post,
      FirstTimes (coveredUpTo sds sd (next.getD sd.data.endSeq)) en.2 := by
    intro en hen
    have hold : en ∈ pre ++ old ++ post := by
      rcases List.mem_append.mp hen with hen | hen
      · exact List.mem_append_left _ (List.mem_append_left _ hen)
      · exact List.mem_append_right _ hen
    refine (htimes en hold).congr fun x hx => coveredUpTo_of_not hle ?_
    exact hpass.not_holds_outside hwf hsep hok hen hx
  have hall : ∀ en ∈ pre ++ new ++ post,
      FirstTimes (coveredUpTo sds sd (next.getD sd.data.endSeq)) en.2 := by
    intro en hen
    rcases List.mem_append.mp hen with hen | hen
    · rcases List.mem_append.mp hen with hen | hen
      · exact hout en (List.mem_append_left _ hen)
      · exact hnew en hen
    · exact hout en (List.mem_append_right _ hen)
  constructor
  · rintro rfl
    exact hall
  · rintro s' rfl
    have hlo := (hpass.next_bounds rfl).1
    exact ⟨hall, hs.trans hlo.le, hpass.keepsTimes hwf hsep hok rfl⟩

/-! ## Whole receiver traces -/

/-- The condition of one step: what the segment meets in the map. -/
def ReceivesClean (rm : RangeManager) (sd : SendData) : Prop :=
  KeepsTimes rm.lastSeq rm.ranges.entries sd.data.seq sd.data.endSeq

instance (rm : RangeManager) (sd : SendData) : Decidable (ReceivesClean rm sd) :=
  inferInstanceAs (Decidable (KeepsTimes _ _ _ _))

/-- The ranges after the segments `sds`. -/
structure TimedBy (rm : RangeManager) (sds : List SendData) : Prop where
  apart : rm.Apart
  times : ∀ en ∈ rm.ranges.entries, FirstTimes (fun x => sds.filter (SendData.carries x)) en.2

theorem insertReceivedRange_timed {rm rm' : RangeManager} {sds : List SendData} {sd : SendData}
    (hinv : rm.TimedBy sds) (hlt : sd.data.seq < sd.data.endSeq) (hok : ReceivesClean rm sd)
    (h : rm.insertReceivedRange sd = .ok rm') : rm'.TimedBy (sds ++ [sd]) := by
  obtain ⟨⟨rm₁, ret⟩, hins, hrm⟩ := Run.exists_of_bind_ok h
  obtain rfl : rm₁ = rm' := Except.ok.inj hrm
  have hstart : KeepingTimes rm.lastSeq sds sd rm.ranges.entries sd.data.seq := by
    refine ⟨fun en hen => (hinv.times en hen).congr fun x _ => ?_, le_rfl, hok⟩
    unfold coveredUpTo
    rw [if_neg (by omega), List.append_nil]
  obtain ⟨hapart, htimes⟩ :=
    insertLoop_recv (recvKeeps_times rm.lastSeq sds sd) hinv.apart hlt hstart hins
  refine ⟨hapart, fun en hen => (htimes en hen).congr fun x _ => ?_⟩
  show (sds ++ [sd]).filter (SendData.carries x) = coveredUpTo sds sd sd.data.endSeq x
  unfold coveredUpTo
  rw [List.filter_append]
  congr 1
  by_cases hx : sd.data.seq ≤ x ∧ x < sd.data.endSeq
  · rw [if_pos hx, List.filter_cons_of_pos (SendData.carries_iff.mpr hx), List.filter_nil]
  · rw [if_neg hx, List.filter_cons_of_neg fun hc => hx (SendData.carries_iff.mp hc),
      List.filter_nil]

/-- In every receiver trace whose segments cut no range that was already received, cover none for the
256th time and are not given up in front of a range, every received range has the times of the first
segment that covered its bytes. -/
theorem insertReceivedRange_run_firstTimes {rm rm' : RangeManager} {sds : List SendData}
    (hwf : rm.WellFormed) (hnone : ∀ en ∈ rm.ranges.entries, en.2.dataReceivedCount.total = 0)
    (hdata : ∀ sd ∈ sds, sd.data.seq < sd.data.endSeq)
    (hsteps : Run.Steps insertReceivedRange ReceivesClean rm sds)
    (hrun : Run.run insertReceivedRange rm sds = .ok rm') :
    ∀ en ∈ rm'.ranges.entries, 0 < en.2.dataReceivedCount.val → ∀ x, en.2.Holds x →
      ∃ sd, sds.find? (SendData.carries x) = some sd ∧
        en.2.receivedTstampPcap = some sd.data.tstampPcap ∧
        en.2.receivedTstampTcp = sd.data.tstampTcp := by
  have hstart : rm.TimedBy [] := by
    refine ⟨hwf.apart, fun en hen => ⟨?_, fun x _ => hnone en hen, fun x _ sd hsd => (nomatch hsd)⟩⟩
    show en.2.dataReceivedCount.total < 2 ^ 8
    rw [hnone en hen]
    decide
  have hinv : rm'.TimedBy sds :=
    Run.invariant (I := fun rm sds => TimedBy rm sds) (d := [])
      (fun _ _ _ _ hinv hok hstep => insertReceivedRange_timed hinv hok.2 hok.1 hstep) hstart
      (hsteps.and_forall hdata) hrun
  intro en hen hcount x hx
  obtain ⟨hfits, hlen, hfirst⟩ := hinv.times en hen
  have hne : sds.filter (SendData.carries x) ≠ [] := by
    intro hnil
    have hzero : en.2.dataReceivedCount.total = 0 := by
      rw [hlen x hx, hnil]
      rfl
    rw [Counter.val_of_fits hfits, hzero] at hcount
    exact lt_irrefl 0 hcount
  obtain ⟨sd, rest, hcov⟩ := List.exists_cons_of_ne_nil hne
  have hhead : sd ∈ (sds.filter (SendData.carries x)).head? := by
    rw [hcov]
    rfl
  refine ⟨sd, ?_, hfirst x hx sd hhead⟩
  rw [← List.head?_filter]
  exact hhead

/-- Data received at second `t`. -/
def receivedAt (t : ℤ) (seq endSeq tstampTcp : ℕ) : SendData :=
  { data :=
      { seq := seq, endSeq := endSeq, payloadSize := endSeq - seq, tstampPcap := ⟨t, 0⟩
        tstampTcp := tstampTcp } }

/-- The last six bytes, the first four, and all ten again. -/
def cutOnce : List SendData := [receivedAt 1 4 10 7, receivedAt 2 0 4 8, receivedAt 3 0 10 9]

theorem insertReceivedRange_run_firstTimes_once :
    ∃ rm', Run.run insertReceivedRange tenBytes cutOnce = .ok rm' ∧
      (rm'.ranges.entries.map fun en => (en.1, en.2.dataReceivedCount.val)) = [(0, 2), (4, 2)] ∧
      ∀ en ∈ rm'.ranges.entries, 0 < en.2.dataReceivedCount.val → ∀ x, en.2.Holds x →
        ∃ sd, cutOnce.find? (SendData.carries x) = some sd ∧
          en.2.receivedTstampPcap = some sd.data.tstampPcap ∧
          en.2.receivedTstampTcp = sd.data.tstampTcp := by
  obtain ⟨rm', hrun, hcounts⟩ := Run.exists_of_any_toOption
    (x := Run.run insertReceivedRange tenBytes cutOnce)
    (p := fun rm' => decide ((rm'.ranges.entries.map fun en =>
      (en.1, en.2.dataReceivedCount.val)) = [(0, 2), (4, 2)])) (by decide)
  refine ⟨rm', hrun, of_decide_eq_true hcounts, ?_⟩
  exact insertReceivedRange_run_firstTimes tenBytes_wellFormed (by decide) (by decide) (by decide)
    hrun

/-- All ten bytes, and the last five again. -/
def cutAfterwards : List SendData := [receivedAt 1 0 10 7, receivedAt 2 5 10 8]

theorem insertReceivedRange_loses_capture_time :
    (Run.run insertReceivedRange tenBytes cutAfterwards).toOption.map
        (fun rm' => rm'.ranges.entries.map fun en =>
          (en.1, en.2.dataReceivedCount.val, en.2.receivedTstampPcap, en.2.receivedTstampTcp)) =
      some [(0, 1, some ⟨1, 0⟩, 7), (5, 2, none, 7)] ∧
    ¬∀ rm', Run.run insertReceivedRange tenBytes cutAfterwards = .ok rm' →
      ∀ en ∈ rm'.ranges.entries, 0 < en.2.dataReceivedCount.val → ∀ x, en.2.Holds x →
        ∃ sd, cutAfterwards.find? (SendData.carries x) = some sd ∧
          en.2.receivedTstampPcap = some sd.data.tstampPcap ∧
          en.2.receivedTstampTcp = sd.data.tstampTcp := by
  refine ⟨by decide, fun h => ?_⟩
  obtain ⟨rm', hrun, htail⟩ := Run.exists_of_any_toOption
    (x := Run.run insertReceivedRange tenBytes cutAfterwards)
    (p := fun rm' => rm'.ranges.entries.any fun en =>
      decide (0 < en.2.dataReceivedCount.val ∧ en.2.Holds 5 ∧ en.2.receivedTstampPcap = none))
    (by decide)
  obtain ⟨en, hen, htail⟩ := List.any_eq_true.mp htail
  obtain ⟨hcount, hholds, hnone⟩ := of_decide_eq_true htail
  obtain ⟨sd, -, hpcap, -⟩ := h rm' hrun en hen hcount 5 hholds
  rw [hnone] at hpcap
  cases hpcap

end RangeManager

end AnalyseTCP
