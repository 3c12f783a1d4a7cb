import AnalyseTCP.InsertAdvance
import AnalyseTCP.BundleHits

/-!
# The assertions on the send path

Of all that a call of `insertByteRange` for sent data can raise, only the exception about the
recursion level is left once a range starts at 0: the search for old data then has a range to begin
with, a range that contains the data starts before it, and every cut lies inside its range.  The
ranges need not be disjoint.
-/

namespace AnalyseTCP

namespace RangeManager

/-- Sizes that the byte counts can hold, and no data on a SYN. -/
structure Sendable (sd : SendData) : Prop where
  sized : Sized sd
  noSynData : sd.data.payloadSize ≠ 0 → sd.data.syn = false

instance (sd : SendData) : Decidable (Sendable sd) :=
  decidable_of_iff (Sized sd ∧ (sd.data.payloadSize ≠ 0 → sd.data.syn = false))
    ⟨fun h => ⟨h.1, h.2⟩, fun h => ⟨h.sized, h.noSynData⟩⟩

/-- Some range starts at 0, where the first packet was. -/
def StartsAtZero (rm : RangeManager) : Prop := ∃ en ∈ rm.ranges.entries, en.1 = 0

section Body

variable {rm : RangeManager} {seg : DataSeg} {level s e : ℕ}

theorem insertNotFound_sent_ok (hwf : WfEntries rm.ranges.entries)
    (hzero : s < rm.lastSeq → rm.StartsAtZero) (hfree : rm.ranges.find? s = none) (hlt : s < e)
    (hsize : e - s < 2 ^ 16 - 1) (hsyn : seg.syn = false) :
    ∃ out, rm.insertNotFound s e .sent seg level = .ok out := by
  have hnew : ∃ out, rm.insertNew s e .sent seg = .ok out :=
    insertNew_ok hlt (fun _ => hsize) fun _ => hsyn
  unfold insertNotFound
  by_cases hlast : s < rm.lastSeq
  · rw [if_pos hlast]
    cases hw : rm.searchWindow s e with
    | nil =>
        -- `lowIt == highIt` would put the range at 0 behind the data
        obtain ⟨en, hen, hkey⟩ := hzero hlast
        have habove := (searchWindow_eq_nil_iff hlt).mp hw en hen
        omega
    | cons w ws =>
        dsimp only
        rw [← hw]
        split
        · next key r hfind =>
          have hover := (find?_searchWindow_iff (fun en hen _ => hwf en hen) hfree hlt).mp hfind
          obtain ⟨hlo, hr⟩ := hover.startSeq_lt fun en hen _ => hwf en hen
          have hsent : ¬InsertType.sent = .sojourn := by simp
          rw [if_neg hsent]
          rcases lt_trichotomy e r.endSeq with hin | hend | hout
          · exact ⟨_, splitExisting_middle hr hlo hlt hin⟩
          · exact ⟨_, splitExisting_back hr hlo hover.hi hend⟩
          · exact ⟨_, splitExisting_beyond hr hlo hover.hi hout⟩
        · exact hnew
  · rw [if_neg hlast]
    exact hnew

/-- A call for sent data returns, calls itself again or finds the recursion level too high. -/
theorem insertBody_sent_error {err : Abort} (hwf : WfEntries rm.ranges.entries)
    (hzero : s < rm.lastSeq → rm.StartsAtZero) (hlt : s < e) (hsize : e - s < 2 ^ 16 - 1)
    (hsyn : seg.syn = false) (h : rm.insertBody s e .sent seg level = .error err) :
    recursionLevel < level ∧ err = .recurseLevel s e .sent := by
  have hsent : InsertType.sent ≠ .sojourn := by simp
  unfold insertBody at h
  rw [if_neg hlt.ne] at h
  split at h
  · next hfree =>
    obtain ⟨out, hout⟩ := insertNotFound_sent_ok hwf hzero hfree hlt hsize hsyn
    rw [hout] at h
    cases h
  next r hfind =>
  have hmem : (s, r) ∈ rm.ranges.entries := OrdMap.find?_eq_some_iff.mp hfind
  have hr : s = r.startSeq ∧ r.Wf := hwf _ hmem
  by_cases hlevel : level ≤ recursionLevel
  · obtain ⟨out, hout⟩ := insertFound_ok hwf hmem hlt (fun _ => hsize) hsent
      (fun _ => hlevel) (fun h => by cases h) fun h => by cases h
    rw [hout] at h
    cases h
  · refine ⟨not_le.mp hlevel, ?_⟩
    rcases lt_or_ge r.endSeq e with hout | hin
    · by_cases hempty : r.endSeq = s
      · obtain ⟨pre, post, hcut⟩ := List.append_of_mem hmem
        rw [insertFound_reuse hwf hcut hlt hempty,
          insertOnEmpty_eq seg hwf hcut hlt hsize hempty] at h
        cases h
      · have hbytes : r.byteCount ≠ 0 := by
          have := hr.2.size
          omega
        -- the only abort left: past the end of a range with bytes, too deep in the recursion
        rw [insertFound_span_sent hout hbytes, if_pos (not_le.mp hlevel)] at h
        exact (Except.error.inj h).symm
    · -- such a call is the last one at any level
      have hnot : r.endSeq < e → level ≤ recursionLevel := fun hout => absurd hin hout.not_ge
      obtain ⟨out, hout⟩ := insertFound_ok hwf hmem hlt (fun _ => hsize) hsent hnot
        (fun h => by cases h) fun h => by cases h
      rw [hout] at h
      cases h

end Body

section Insert

variable {rm rm' : RangeManager} {sd : SendData}

/-- The ranges that the packet overlaps. -/
def overlapCount (rm : RangeManager) (sd : SendData) : ℕ :=
  rm.ranges.entries.countP fun en => decide (Overlaps sd.data.seq sd.data.endSeq en)

/-- Inserting a packet fails only for too many overlapped ranges. -/
theorem insertSentRange_error {err : Abort} (hwf : WfEntries rm.ranges.entries)
    (hzero : sd.data.seq < rm.lastSeq → rm.StartsAtZero) (hsd : Sendable sd)
    (h : rm.insertSentRange sd = .error err) :
    1500 < rm.overlapCount sd ∧ ∃ s, err = .recurseLevel s sd.data.endSeq .sent := by
  have hend := hsd.sized.size
  have hbound := hsd.sized.bound
  have hins : rm.insertByteRange sd.data.seq sd.data.endSeq .sent sd.data 0 = .error err := by
    cases hres : rm.insertByteRange sd.data.seq sd.data.endSeq .sent sd.data 0 with
    | ok out =>
        rw [insertSentRange_of_ok hres] at h
        cases h
    | error err' =>
        rcases Run.of_bind_error h with h | ⟨_, hok, -⟩
        · rw [← hres, h]
        · rw [hres] at hok
          cases hok
  by_cases hempty : sd.data.payloadSize = 0
  · -- a packet without payload always goes in
    have hseq : sd.data.endSeq = sd.data.seq := by omega
    obtain ⟨rm₁, hrm₁, -⟩ := insertByteRange_empty rm sd.data.seq sd.data
    rw [hseq, hrm₁] at hins
    cases hins
  · have hlt : sd.data.seq < sd.data.endSeq := by omega
    -- sent data takes over a range without bytes where received data would stall
    have hstall : ¬Stalls rm .sent sd.data sd.data.seq sd.data.endSeq := fun h => h.1 rfl
    obtain ⟨rm₁, s₁, level, hvisits, hcalled, hbody⟩ := insertByteRange_error hwf hlt hstall hins
    have hkeeps := pieceKeeps_true rm.ranges .sent sd.data sd.data.endSeq
    obtain ⟨hlo, hhi, hwf₁, -⟩ := hvisits.forall hkeeps (.refl _) hlt trivial (by omega) hwf
      fun _ _ => trivial
    have hzero₁ : s₁ < rm₁.lastSeq → rm₁.StartsAtZero := by
      intro hlast
      rw [hcalled.trail.frame.lastSeq] at hlast
      obtain ⟨en, hen, hkey⟩ := hzero (hlo.trans_lt hlast)
      obtain ⟨d, hd, hdkey⟩ := hcalled.trail.kept en hen
      exact ⟨d, hd, hdkey.trans hkey⟩
    obtain ⟨hlevel, rfl⟩ :=
      insertBody_sent_error hwf₁ hzero₁ hhi (by omega) (hsd.noSynData hempty) hbody
    exact ⟨hlevel.trans_le hcalled.level_le, s₁, rfl⟩

theorem insertSentRange_wf (hwf : WfEntries rm.ranges.entries) (hsized : Sized sd)
    (h : rm.insertSentRange sd = .ok rm') : WfEntries rm'.ranges.entries :=
  have hev : SenderEvent.Sized (.sent sd) := hsized
  senderStep_wf hwf hev h

theorem insertSentRange_startsAtZero (hwf : WfEntries rm.ranges.entries) (hsized : Sized sd)
    (hzero : rm.StartsAtZero) (h : rm.insertSentRange sd = .ok rm') : rm'.StartsAtZero := by
  have hend := hsized.size
  have hbound := hsized.bound
  have hsent : InsertType.sent ≠ .sojourn := by simp
  obtain ⟨rm₁, ret, hins, rfl⟩ := insertSentRange_cases h
  have hkeys := insertByteRange_keysKept hwf (by omega) (fun _ => by omega) hsent hins
  obtain ⟨en, hen, hkey⟩ := hzero
  obtain ⟨d, hd, hdkey⟩ := hkeys en hen
  exact ⟨d, hd, hdkey.trans hkey⟩

/-- The first packet at 0 makes the first range. -/
theorem insertSentRange_first {firstSeq : ℕ} (hfirst : sd.data.seq = 0) (hsized : Sized sd)
    (h : (new firstSeq).insertSentRange sd = .ok rm') : rm'.StartsAtZero := by
  have hend := hsized.size
  have hbound := hsized.bound
  obtain ⟨rm₁, ret, hins, rfl⟩ := insertSentRange_cases h
  rw [hfirst] at hins hend
  by_cases hempty : sd.data.payloadSize = 0
  · have hseq : sd.data.endSeq = 0 := by omega
    obtain ⟨rm₂, hrm₂, -, hpass⟩ := insertByteRange_empty (new firstSeq) 0 sd.data
    rw [hseq, hrm₂] at hins
    obtain ⟨rfl, -⟩ := Prod.mk.inj (Except.ok.inj hins)
    have hq : (new firstSeq).emptySeq sd.data 0 = 0 := if_neg fun h => by cases h.2
    have hentries := EmptyPass.of_nil hpass
    rw [hq] at hentries
    refine ⟨(0, emptyRange sd.data (thisIsRdbData sd.data 0) 0), ?_, rfl⟩
    show _ ∈ rm₂.ranges.entries
    rw [hentries]
    exact List.mem_singleton_self _
  · have hlt : 0 < sd.data.endSeq := by omega
    unfold insertByteRange at hins
    rw [insertLoop] at hins
    have hbody : (new firstSeq).insertBody 0 sd.data.endSeq .sent sd.data 0 =
        (new firstSeq).insertNew 0 sd.data.endSeq .sent sd.data := by
      unfold insertBody
      rw [if_neg hlt.ne]
      exact if_neg (lt_irrefl 0)
    rw [hbody] at hins
    split at hins
    · cases hins
    · next hnew =>
      obtain ⟨rfl, -⟩ := Prod.mk.inj (Except.ok.inj hins)
      obtain ⟨r, -, hnew⟩ := Run.exists_of_bind_ok hnew
      obtain ⟨rfl, -⟩ := Outcome.done.inj (Except.ok.inj hnew)
      exact ⟨(0, r), List.mem_singleton_self _, rfl⟩
    · next hnew => exact absurd hnew (insertNew_ne_again _ _ _ _ _ _ _)

end Insert

theorem insertSentRange_returns {rm : RangeManager} {sd : SendData}
    (hwf : WfEntries rm.ranges.entries) (hzero : sd.data.seq < rm.lastSeq → rm.StartsAtZero)
    (hsd : Sendable sd) (hcount : rm.overlapCount sd ≤ 1500) :
    ∃ rm', rm.insertSentRange sd = .ok rm' := by
  cases hres : rm.insertSentRange sd with
  | ok rm' => exact ⟨rm', rfl⟩
  | error err =>
      obtain ⟨hmany, -⟩ := insertSentRange_error hwf hzero hsd hres
      omega

/-- No assertion of the send path fails in any run that begins at 0: it stops only at a packet that
overlaps more than 1500 ranges, and every map it comes to is well formed. -/
theorem insertSentRange_run_safe (firstSeq : ℕ) {sd : SendData} {sds : List SendData}
    (hfirst : sd.data.seq = 0) (hsend : ∀ d ∈ sd :: sds, Sendable d) :
    (∀ err, Run.run insertSentRange (new firstSeq) (sd :: sds) = .error err →
      ∃ s e, err = .recurseLevel s e .sent) ∧
    (∀ rm, Run.run insertSentRange (new firstSeq) (sd :: sds) = .ok rm →
      WfEntries rm.ranges.entries) ∧
    (Run.Steps insertSentRange (fun rm d => rm.overlapCount d ≤ 1500) (new firstSeq) (sd :: sds) →
      ∃ rm, Run.run insertSentRange (new firstSeq) (sd :: sds) = .ok rm) := by
  have hnew : WfEntries (new firstSeq).ranges.entries := wfEntries_nil
  have hzero : sd.data.seq < (new firstSeq).lastSeq → (new firstSeq).StartsAtZero :=
    fun h => absurd h (Nat.not_lt_zero _)
  obtain ⟨hsd, hsds⟩ := List.forall_mem_cons.mp hsend
  refine ⟨fun err hrun => ?_, fun rm hrun => ?_, fun hsteps => ?_⟩
  · rw [Run.run] at hrun
    split at hrun
    · next rm₁ hstep =>
      have hinv : WfEntries rm₁.ranges.entries ∧ rm₁.StartsAtZero :=
        ⟨insertSentRange_wf hnew hsd.sized hstep, insertSentRange_first hfirst hsd.sized hstep⟩
      apply Run.error_of_run (I := fun rm => WfEntries rm.ranges.entries ∧ rm.StartsAtZero)
        (P := Sendable) (fun rm d rm' hinv hd hstep => ?_) (fun rm d err hinv hd hstep => ?_) hinv
        hsds hrun
      · exact ⟨insertSentRange_wf hinv.1 hd.sized hstep,
          insertSentRange_startsAtZero hinv.1 hd.sized hinv.2 hstep⟩
      · obtain ⟨-, s, hs⟩ := insertSentRange_error hinv.1 (fun _ => hinv.2) hd hstep
        exact ⟨s, _, hs⟩
    · next err' hstep =>
      obtain ⟨-, s, hs⟩ := insertSentRange_error hnew hzero hsd hstep
      rw [← Except.error.inj hrun]
      exact ⟨s, _, hs⟩
  · have hsteps : Run.Steps insertSentRange (fun _ _ => True) (new firstSeq) (sd :: sds) :=
      Run.steps_true _ _
    have hall := hsteps.and_forall hsend
    exact Run.invariant (I := fun rm _ => WfEntries rm.ranges.entries) (d := [])
      (fun _ _ _ _ hinv hok hstep => insertSentRange_wf hinv hok.2.sized hstep) hnew hall hrun
  · -- the first packet makes the range at 0, which no later one takes away
    obtain ⟨rm₁, hstep⟩ := insertSentRange_returns hnew hzero hsd hsteps.1
    have hinv : WfEntries rm₁.ranges.entries ∧ rm₁.StartsAtZero :=
      ⟨insertSentRange_wf hnew hsd.sized hstep, insertSentRange_first hfirst hsd.sized hstep⟩
    have hrest := (hsteps.2 rm₁ hstep).and_forall hsds
    obtain ⟨rm, hrun, -⟩ := Run.exists_ok
      (I := fun rm _ => WfEntries rm.ranges.entries ∧ rm.StartsAtZero) (d := [])
      (fun rm d _ hinv hok => by
        obtain ⟨rm', hstep⟩ := insertSentRange_returns hinv.1 (fun _ => hinv.2) hok.2 hok.1
        exact ⟨rm', hstep, insertSentRange_wf hinv.1 hok.2.sized hstep,
          insertSentRange_startsAtZero hinv.1 hok.2.sized hinv.2 hstep⟩) hinv hrest
    exact ⟨rm, (Run.run_cons_ok hstep).trans hrun⟩

/-- Data with a gap, data across the range behind it, and a pure ACK. -/
def crossingTrace : List SendData :=
  [{ data := { seq := 0, endSeq := 4, payloadSize := 4 } },
    { data := { seq := 8, endSeq := 12, payloadSize := 4 } },
    { data := { seq := 2, endSeq := 10, payloadSize := 8 } },
    { data := { seq := 12, endSeq := 12 } }]

theorem insertSentRange_run_safe_crossing :
    ∃ rm, Run.run insertSentRange (new 0) crossingTrace = .ok rm ∧ WfEntries rm.ranges.entries := by
  have hsend : ∀ sd ∈ crossingTrace, Sendable sd := by decide
  have hsafe := insertSentRange_run_safe 0 rfl hsend
  obtain ⟨rm, hrun⟩ := hsafe.2.2 (by decide +kernel)
  exact ⟨rm, hrun, hsafe.2.1 rm hrun⟩

end RangeManager

end AnalyseTCP
