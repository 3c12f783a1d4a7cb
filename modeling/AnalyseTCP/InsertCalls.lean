import AnalyseTCP.OldData
import AnalyseTCP.Receipts
import AnalyseTCP.SentFrame

/-!
# One call of `insertByteRange` on any map

Whether the ranges overlap or not: when a call for data calls itself again and what it has done to
the map by then, and which exceptions it can raise.
-/

namespace AnalyseTCP

namespace ByteRange

/-- The index of the last packet on the range is unset or within the send times. -/
def Indexed (r : ByteRange) : Prop :=
  r.sentDataPktPcapIndex = -1 ∨
    0 ≤ r.sentDataPktPcapIndex ∧ r.sentDataPktPcapIndex < r.sentTstampPcap.length

instance (r : ByteRange) : Decidable r.Indexed := inferInstanceAs (Decidable (_ ∨ _))

theorem addSegmentEnteredKernelTime_ok {r : ByteRange} (h : r.Indexed) (seq : ℕ) (tv : Timeval) :
    ∃ r', r.addSegmentEnteredKernelTime seq tv = .ok r' := by
  unfold addSegmentEnteredKernelTime
  by_cases hunset : r.sentDataPktPcapIndex = -1
  · rw [if_pos hunset]
    exact ⟨_, rfl⟩
  obtain ⟨hlo, hhi⟩ := h.resolve_left hunset
  have hlt : r.sentDataPktPcapIndex.toNat < r.sentTstampPcap.length := by omega
  rw [if_neg hunset, if_neg hlo.not_gt, List.getElem?_eq_getElem hlt]
  dsimp only
  split
  · exact ⟨_, rfl⟩
  · exact ⟨_, rfl⟩

theorem indexed_of_addSegmentEnteredKernelTime {r r' : ByteRange} {seq : ℕ} {tv : Timeval}
    (h : r.addSegmentEnteredKernelTime seq tv = .ok r') : r.Indexed := by
  unfold addSegmentEnteredKernelTime at h
  split at h
  · next hunset => exact .inl hunset
  split at h
  · cases h
  next hlo =>
  split at h
  · cases h
  next sent _ hget =>
  have hlt := (List.getElem?_eq_some_iff.mp hget).1
  exact .inr ⟨not_lt.mp hlo, by omega⟩

theorem updateByteCount_error {r : ByteRange} {err : Abort} (h : r.updateByteCount = .error err) :
    err = .byteCount := by
  unfold updateByteCount at h
  split at h
  · cases h
  · exact (Except.error.inj h).symm

theorem new_error {start stop : ℕ} {err : Abort} (h : new start stop = .error err) :
    err = .byteCount := by
  rcases Run.of_bind_error h with h | ⟨_, _, h⟩
  · exact updateByteCount_error h
  · cases h

theorem splitEnd_error {r : ByteRange} {start stop : ℕ} {err : Abort}
    (h : r.splitEnd start stop = .error err) : err = .byteCount := by
  rcases Run.of_bind_error h with h | ⟨_, _, h⟩
  · exact new_error h
  rcases Run.of_bind_error h with h | ⟨_, _, h⟩
  · exact updateByteCount_error h
  · cases h

theorem addSegmentEnteredKernelTime_error {r : ByteRange} {seq : ℕ} {tv : Timeval} {err : Abort}
    (h : r.addSegmentEnteredKernelTime seq tv = .error err) : err = .outOfRange := by
  unfold addSegmentEnteredKernelTime at h
  split at h
  · cases h
  split at h
  · exact (Except.error.inj h).symm
  split at h
  · exact (Except.error.inj h).symm
  split at h
  · cases h
  · cases h

end ByteRange

namespace RangeManager

section Body

variable {rm : RangeManager} {itype : InsertType} {seg : DataSeg} {level s e key : ℕ}
  {r : ByteRange}

/-! ## The calls that call again -/

/-- Data from `s` up to `e` that starts with the range `r` comes to the recursive call. -/
def CallsPast (rm : RangeManager) (itype : InsertType) (seg : DataSeg) (level s e : ℕ)
    (r : ByteRange) : Prop :=
  level ≤ recursionLevel ∧ r.endSeq < e ∧
    match itype with
    | .sent => s < r.endSeq
    | .recv => e ≠ add32 rm.firstSeq 1 ∧ assertedTstamp r seg.tstampTcp ≠ 0
    | .sojourn => r.Indexed ∧ ∃ en ∈ rm.ranges.entries, s < en.1

/-- `r` is the last range that starts below `s`, it reaches over `s`, and none starts there. -/
structure Straddles (rm : RangeManager) (s key : ℕ) (r : ByteRange) : Prop where
  mem : (key, r) ∈ rm.ranges.entries
  lo : key < s
  hi : s < r.endSeq
  last : ∀ en ∈ rm.ranges.entries, en.1 ≤ s → en.1 ≤ key

/-- What a call did that calls itself again at the last argument. -/
inductive CallsAgain (rm : RangeManager) (itype : InsertType) (seg : DataSeg) (level s e : ℕ) :
    RangeManager → ℕ → Prop
  | span (r v : ByteRange) (hmem : (s, r) ∈ rm.ranges.entries)
      (hpast : CallsPast rm itype seg level s e r) (hend : v.endSeq = r.endSeq) :
      CallsAgain rm itype seg level s e
        { rm with ranges := rm.ranges.modify s fun _ => v } r.endSeq
  | reuse (r v : ByteRange) (hitype : itype = .sent) (hmem : (s, r) ∈ rm.ranges.entries)
      (hempty : r.endSeq = s) (hlo : s < v.endSeq) (hhi : v.endSeq < e) :
      CallsAgain rm itype seg level s e
        { rm with ranges := rm.ranges.modify s fun _ => v } v.endSeq
  | split (key : ℕ) (r v w : ByteRange) (hlast : s < rm.lastSeq) (hover : Straddles rm s key r)
      (hend : r.endSeq < e) (hv : v.endSeq = s) (hw : w.endSeq = r.endSeq) :
      CallsAgain rm itype seg level s e
        { rm with ranges := (rm.ranges.modify key fun _ => v).insert s w } r.endSeq
  | inside (key : ℕ) (r : ByteRange) (hlast : s < rm.lastSeq) (hover : Straddles rm s key r)
      (hend : r.endSeq < e) : CallsAgain rm itype seg level s e rm r.endSeq

/-- The ranges that reach to `s` or behind it are well formed. -/
def WfFrom (l : List Entry) (s : ℕ) : Prop :=
  ∀ en ∈ l, s < en.2.endSeq ∨ s ≤ en.1 → en.1 = en.2.startSeq ∧ en.2.Wf

theorem Straddles.free (h : Straddles rm s key r) : rm.ranges.find? s = none := by
  rw [OrdMap.find?_eq_none_iff]
  intro en hen hes
  have hle := h.last en hen hes.le
  have hlo := h.lo
  omega

theorem Straddles.startSeq_lt (h : Straddles rm s key r) (hwf : WfFrom rm.ranges.entries s) :
    r.startSeq < s ∧ r.Wf := by
  have hr : key = r.startSeq ∧ r.Wf := hwf _ h.mem (.inl h.hi)
  have hlo := h.lo
  exact ⟨by omega, hr.2⟩

/-- The search for the data at `s` finds the range that straddles `s`, and no other. -/
theorem find?_searchWindow_iff (hwf : WfFrom rm.ranges.entries s) (hfree : rm.ranges.find? s = none)
    (hlt : s < e) :
    ((rm.searchWindow s e).find? fun en =>
        decide (en.2.startSeq ≤ s) && decide (s < en.2.endSeq)) = some (key, r) ↔
      Straddles rm s key r := by
  have hnot : ∀ en ∈ rm.ranges.entries, en.1 ≠ s := OrdMap.find?_eq_none_iff.mp hfree
  -- the ranges from `s` on start behind it
  have hafter : ∀ en ∈ (rm.ranges.atLeast s).takeWhile fun en => decide (en.1 ≤ e),
      ¬(decide (en.2.startSeq ≤ s) && decide (s < en.2.endSeq)) = true := by
    intro en hen h
    have hmem := (List.takeWhile_prefix _).subset hen
    have hge := OrdMap.le_of_mem_atLeast hmem
    have hmem' : en ∈ rm.ranges.entries := by
      rw [← rm.ranges.below_append_atLeast s]
      exact List.mem_append_right _ hmem
    have hstart := (hwf en hmem' (.inr hge)).1
    have hne := hnot en hmem'
    rw [Bool.and_eq_true, decide_eq_true_eq, decide_eq_true_eq] at h
    omega
  have hstraddles : Straddles rm s key r ↔
      (rm.ranges.below s).getLast? = some (key, r) ∧ s < r.endSeq := by
    rw [OrdMap.getLast?_below_iff]
    constructor
    · intro h
      exact ⟨⟨h.mem, h.lo, fun d hd hds => h.last d hd hds.le⟩, h.hi⟩
    · rintro ⟨⟨hmem, hlo, hlast⟩, hhi⟩
      exact ⟨hmem, hlo, hhi, fun d hd hds => hlast d hd (lt_of_le_of_ne hds (hnot d hd))⟩
  rw [hstraddles]
  unfold searchWindow
  cases hbelow : (rm.ranges.below s).getLast? with
  | none =>
      rw [Option.toList_none, List.nil_append, List.find?_eq_none.mpr hafter]
      exact ⟨fun h => (nomatch h), fun h => (nomatch h.1)⟩
  | some d =>
      have hd := OrdMap.getLast?_below_iff.mp hbelow
      have hde : d.1 ≤ e := by omega
      rw [Option.toList_some, List.singleton_append, List.takeWhile_cons_of_pos (by simpa using hde),
        List.find?_cons, Option.some_inj]
      by_cases hhi : s < d.2.endSeq
      · have hstart := (hwf d hd.1 (.inl hhi)).1
        have hle : d.2.startSeq ≤ s := by omega
        rw [decide_eq_true hle, decide_eq_true hhi]
        show some d = some (key, r) ↔ _
        rw [Option.some_inj]
        constructor
        · rintro rfl
          exact ⟨rfl, hhi⟩
        · exact fun h => h.1
      · rw [decide_eq_false hhi, Bool.and_false]
        show List.find? _ _ = some (key, r) ↔ _
        rw [List.find?_eq_none.mpr hafter]
        constructor
        · exact fun h => nomatch h
        · rintro ⟨rfl, h⟩
          exact absurd h hhi

theorem insertNew_ne_again (rm rm' : RangeManager) (s e s' : ℕ) (itype : InsertType)
    (seg : DataSeg) : rm.insertNew s e itype seg ≠ .ok (.again rm' s') := by
  intro h
  cases itype with
  | sent =>
      obtain ⟨_, _, h⟩ := Run.exists_of_bind_ok h
      cases h
  | recv => cases h
  | sojourn => cases h

variable {rm' : RangeManager} {s' : ℕ}

theorem splitExisting_callsAgain (hwf : WfFrom rm.ranges.entries s) (hlt : s < e)
    (hlast : s < rm.lastSeq) (hover : Straddles rm s key r)
    (h : rm.splitExisting s e itype seg level key r = .ok (.again rm' s')) :
    CallsAgain rm itype seg level s e rm' s' := by
  obtain ⟨hlo, hr⟩ := hover.startSeq_lt hwf
  have hhi := hover.hi
  rcases lt_trichotomy e r.endSeq with hin | hend | hout
  · rw [splitExisting_middle hr hlo hlt hin] at h
    cases h
  · rw [splitExisting_back hr hlo hhi hend] at h
    cases h
  · rw [splitExisting_beyond hr hlo hhi hout] at h
    cases h
    apply CallsAgain.split key r _ _ hlast hover hout
    · rfl
    · rw [recordSplit_endSeq, ByteRange.tail_endSeq]

theorem sojournInside_callsAgain (hwf : WfFrom rm.ranges.entries s) (hlast : s < rm.lastSeq)
    (hover : Straddles rm s key r)
    (h : rm.sojournInside s e seg key r = .ok (.again rm' s')) :
    CallsAgain rm itype seg level s e rm' s' := by
  obtain ⟨hlo, hr⟩ := hover.startSeq_lt hwf
  unfold sojournInside at h
  split at h
  · cases h
  split at h
  · cases h
  split at h
  · obtain ⟨_, _, h⟩ := Run.exists_of_bind_ok h
    cases h
  split at h
  · obtain ⟨_, _, h⟩ := Run.exists_of_bind_ok h
    cases h
  next hne hnot =>
  cases h
  exact .inside key r hlast hover (by omega)

theorem insertNotFound_callsAgain (hwf : WfFrom rm.ranges.entries s)
    (hfree : rm.ranges.find? s = none) (hlt : s < e)
    (h : rm.insertNotFound s e itype seg level = .ok (.again rm' s')) :
    CallsAgain rm itype seg level s e rm' s' := by
  unfold insertNotFound at h
  split at h
  · next hlast =>
    split at h
    · cases h
    next w ws hw =>
    rw [← hw] at h
    split at h
    · next key r hfind =>
        have hover := (find?_searchWindow_iff hwf hfree hlt).mp hfind
        split at h
        · exact sojournInside_callsAgain hwf hlast hover h
        · exact splitExisting_callsAgain hwf hlt hlast hover h
    · exact absurd h (insertNew_ne_again _ _ _ _ _ _ _)
  · exact absurd h (insertNew_ne_again _ _ _ _ _ _ _)

theorem insertFound_span_sojourn (hout : r.endSeq < e) :
    rm.insertFound s e .sojourn seg level r =
      r.addSegmentEnteredKernelTime r.endSeq seg.tstampPcap >>= fun v =>
        if (rm.ranges.next? s).isNone then
          .ok (.done { rm with ranges := rm.ranges.modify s fun _ => v } false)
        else if recursionLevel < level then .error (.recurseLevel s e .sojourn)
        else .ok (.again { rm with ranges := rm.ranges.modify s fun _ => v } r.endSeq) := by
  unfold insertFound
  rw [if_neg (fun h => nomatch h.2.1), if_pos hout]
  rfl

theorem insertWithin_ne_again (rm rm' : RangeManager) (s e s' : ℕ) (itype : InsertType)
    (seg : DataSeg) (level : ℕ) (r : ByteRange) :
    rm.insertWithin s e itype seg level r ≠ .ok (.again rm' s') := by
  intro h
  unfold insertWithin at h
  cases itype with
  | sojourn =>
      obtain ⟨_, _, h⟩ := Run.exists_of_bind_ok h
      cases h
  | sent | recv =>
      dsimp only at h
      split at h
      · cases h
      · obtain ⟨_, _, h⟩ := Run.exists_of_bind_ok h
        cases h

theorem isNone_next?_iff {m : OrdMap ℕ ByteRange} :
    (m.next? s).isNone = true ↔ ∀ en ∈ m.entries, ¬s < en.1 := by
  unfold OrdMap.next?
  rw [Option.isNone_iff_eq_none, List.find?_eq_none]
  simp only [decide_eq_true_eq]

theorem insertOnEmpty_callsAgain (hwf : WfFrom rm.ranges.entries s)
    (hmem : (s, r) ∈ rm.ranges.entries) (hempty : r.endSeq = s)
    (h : rm.insertOnEmpty s e seg r = .ok (.again rm' s')) :
    CallsAgain rm .sent seg level s e rm' s' := by
  unfold insertOnEmpty at h
  cases hnext : rm.ranges.next? s with
  | none =>
      rw [hnext] at h
      obtain ⟨_, _, h⟩ := Run.exists_of_bind_ok h
      cases h
  | some next =>
      have hkey : s < next.1 := by simpa using List.find?_some hnext
      have hnmem : next ∈ rm.ranges.entries := List.mem_of_find?_eq_some hnext
      have hstart : next.1 = next.2.startSeq := (hwf next hnmem (.inr hkey.le)).1
      have hne : r.endSeq ≠ next.2.startSeq := by omega
      rw [hnext] at h
      dsimp only at h
      rw [if_pos hne] at h
      obtain ⟨br, hbr, h⟩ := Run.exists_of_bind_ok h
      -- the range ends where it was extended to
      have hend : (payloadSet br).endSeq = min next.2.startSeq e := by
        obtain ⟨v, hv, hbr⟩ := Run.exists_of_bind_ok hbr
        rw [← Except.ok.inj hbr]
        unfold ByteRange.updateByteCount at hv
        split at hv
        · rw [← Except.ok.inj hv]
          rfl
        · cases hv
      split at h
      · next hlt =>
          cases h
          exact .reuse r (payloadSet br) rfl hmem hempty (by omega) hlt
      · cases h

/-- Every recursive call is one of these. -/
theorem insertBody_callsAgain (hwf : WfFrom rm.ranges.entries s) (hlt : s < e)
    (h : rm.insertBody s e itype seg level = .ok (.again rm' s')) :
    CallsAgain rm itype seg level s e rm' s' := by
  unfold insertBody at h
  rw [if_neg hlt.ne] at h
  split at h
  · next hfree => exact insertNotFound_callsAgain hwf hfree hlt h
  next r hfind =>
  have hmem : (s, r) ∈ rm.ranges.entries := OrdMap.find?_eq_some_iff.mp hfind
  have hr : s = r.startSeq ∧ r.Wf := hwf _ hmem (.inr le_rfl)
  -- only data that reaches past the range at its start can call again
  by_cases hout : r.endSeq < e
  · cases itype with
    | sent =>
        -- a range without data first takes the bytes up to the next range
        by_cases hbytes : r.byteCount = 0
        · have hempty : r.endSeq = s := by
            have := hr.2.size
            omega
          unfold insertFound at h
          rw [if_neg (fun h => nomatch h.2.1), if_pos hout] at h
          unfold insertSpanning at h
          dsimp only at h
          rw [if_pos hbytes] at h
          exact insertOnEmpty_callsAgain hwf hmem hempty h
        · rw [insertFound_span_sent hout hbytes] at h
          split at h
          · cases h
          next hlevel =>
          have hlong : s < r.endSeq := by
            have := hr.2.size
            omega
          cases h
          apply CallsAgain.span r _ hmem ⟨not_lt.mp hlevel, hout, hlong⟩
          rw [recordFound_endSeq]
    | recv =>
        by_cases hack : e = add32 rm.firstSeq 1
        · unfold insertFound at h
          rw [if_pos ⟨hout.ne, rfl, hack⟩] at h
          cases h
        rw [insertFound_span_recv hack hout, assertedTstamp_recordRecv] at h
        split at h
        · cases h
        next hstamp =>
        split at h
        · cases h
        next hlevel =>
        have hpast : CallsPast rm .recv seg level s e r := ⟨not_lt.mp hlevel, hout, hack, hstamp⟩
        cases h
        apply CallsAgain.span r _ hmem hpast
        rw [recordFound_endSeq]
    | sojourn =>
        rw [insertFound_span_sojourn hout] at h
        obtain ⟨v, hv, h⟩ := Run.exists_of_bind_ok h
        split at h
        · cases h
        next hnext =>
        split at h
        · cases h
        next hlevel =>
        rw [isNone_next?_iff] at hnext
        push Not at hnext
        have hindexed := ByteRange.indexed_of_addSegmentEnteredKernelTime hv
        have hpast : CallsPast rm .sojourn seg level s e r :=
          ⟨not_lt.mp hlevel, hout, hindexed, hnext⟩
        cases h
        apply CallsAgain.span r v hmem hpast
        exact addSegmentEnteredKernelTime_blind (fun _ _ => rfl) hv
  · unfold insertFound at h
    rw [if_neg hout] at h
    split at h
    · cases h
    · exact absurd h (insertWithin_ne_again _ _ _ _ _ _ _ _ _)

/-- Data that comes to the recursive call on the range at its start makes that call. -/
theorem insertBody_span (hwf : WfFrom rm.ranges.entries s) (hmem : (s, r) ∈ rm.ranges.entries)
    (hpast : CallsPast rm itype seg level s e r) :
    ∃ rm', rm.insertBody s e itype seg level = .ok (.again rm' r.endSeq) := by
  obtain ⟨hlevel, hout, hcase⟩ := hpast
  have hr : s = r.startSeq ∧ r.Wf := hwf _ hmem (.inr le_rfl)
  have hle := hr.2.le
  have hlt : s < e := by omega
  unfold insertBody
  rw [if_neg hlt.ne, OrdMap.find?_eq_some_iff.mpr hmem]
  dsimp only
  cases itype with
  | sent =>
      have hlong : s < r.endSeq := hcase
      have hbytes : r.byteCount ≠ 0 := by
        have := hr.2.size
        omega
      rw [insertFound_span_sent hout hbytes, if_neg hlevel.not_gt]
      exact ⟨_, rfl⟩
  | recv =>
      obtain ⟨hack, hstamp⟩ := hcase
      rw [insertFound_span_recv hack hout, assertedTstamp_recordRecv, if_neg hstamp,
        if_neg hlevel.not_gt]
      exact ⟨_, rfl⟩
  | sojourn =>
      obtain ⟨hindexed, hnext⟩ := hcase
      obtain ⟨v, hv⟩ := ByteRange.addSegmentEnteredKernelTime_ok hindexed r.endSeq seg.tstampPcap
      have hsome : ¬(rm.ranges.next? s).isNone = true := by
        rw [isNone_next?_iff]
        push Not
        exact hnext
      rw [insertFound_span_sojourn hout, hv, Run.ok_bind, if_neg hsome, if_neg hlevel.not_gt]
      exact ⟨_, rfl⟩

/-- Data that starts inside a range and reaches past it goes on behind the range. -/
theorem insertBody_inside (hwf : WfFrom rm.ranges.entries s) (hlast : s < rm.lastSeq)
    (hover : Straddles rm s key r) (hout : r.endSeq < e) :
    ∃ rm', rm.insertBody s e itype seg level = .ok (.again rm' r.endSeq) := by
  obtain ⟨hlo, hr⟩ := hover.startSeq_lt hwf
  have hhi := hover.hi
  have hlt : s < e := by omega
  have hfind := (find?_searchWindow_iff hwf hover.free hlt).mpr hover
  unfold insertBody
  rw [if_neg hlt.ne, hover.free]
  dsimp only
  unfold insertNotFound
  rw [if_pos hlast]
  cases hw : rm.searchWindow s e with
  | nil =>
      rw [hw] at hfind
      cases hfind
  | cons w ws =>
      rw [hw] at hfind
      dsimp only
      rw [hfind]
      dsimp only
      split
      · have hboth : ¬(s = r.startSeq ∧ e = r.endSeq) := by omega
        unfold sojournInside
        rw [if_neg hboth, if_neg hlo.ne', if_neg hout.ne', if_neg hout.not_gt]
        exact ⟨_, rfl⟩
      · exact ⟨_, splitExisting_beyond hr hlo hhi hout⟩

/-! ## The exceptions of one call -/

/-- An abort that a call at this level can raise. -/
def RaisedAt (level : ℕ) : Abort → Prop
  | .recurseLevel _ _ _ => recursionLevel < level
  | .outOfFuel => False
  | _ => True

variable {err : Abort}

theorem insertNew_error (h : rm.insertNew s e itype seg = .error err) : RaisedAt level err := by
  cases itype with
  | recv | sojourn => cases h
  | sent =>
      rcases Run.of_bind_error h with h | ⟨_, _, h⟩
      · rcases Run.of_bind_error h with h | ⟨_, _, h⟩
        · rw [ByteRange.new_error h]
          trivial
        · dsimp only at h
          split at h
          · rw [← Except.error.inj h]
            trivial
          · cases h
      · cases h

theorem splitExisting_error (h : rm.splitExisting s e itype seg level key r = .error err) :
    RaisedAt level err := by
  unfold splitExisting at h
  split at h
  · rw [← Except.error.inj h]
    trivial
  split at h
  · rcases Run.of_bind_error h with h | ⟨_, _, h⟩
    · rw [ByteRange.splitEnd_error h]
      trivial
    · cases h
  split at h
  · rcases Run.of_bind_error h with h | ⟨_, _, h⟩
    · rw [ByteRange.splitEnd_error h]
      trivial
    · cases h
  split at h
  · rcases Run.of_bind_error h with h | ⟨_, _, h⟩
    · rw [ByteRange.splitEnd_error h]
      trivial
    · rcases Run.of_bind_error h with h | ⟨_, _, h⟩
      · rw [ByteRange.splitEnd_error h]
        trivial
      · cases h
  · rcases Run.of_bind_error h with h | ⟨_, _, h⟩
    · rw [ByteRange.splitEnd_error h]
      trivial
    · cases h

theorem sojournInside_error (h : rm.sojournInside s e seg key r = .error err) :
    RaisedAt level err := by
  unfold sojournInside at h
  split at h
  · rw [← Except.error.inj h]
    trivial
  split at h
  · rw [← Except.error.inj h]
    trivial
  split at h
  · rcases Run.of_bind_error h with h | ⟨_, _, h⟩
    · rw [ByteRange.addSegmentEnteredKernelTime_error h]
      trivial
    · cases h
  split at h
  · rcases Run.of_bind_error h with h | ⟨_, _, h⟩
    · rw [ByteRange.addSegmentEnteredKernelTime_error h]
      trivial
    · cases h
  · cases h

theorem insertNotFound_error (h : rm.insertNotFound s e itype seg level = .error err) :
    RaisedAt level err := by
  unfold insertNotFound at h
  split at h
  · split at h
    · rw [← Except.error.inj h]
      trivial
    split at h
    · split at h
      · exact sojournInside_error h
      · exact splitExisting_error h
    · exact insertNew_error h
  · exact insertNew_error h

theorem reuseEmpty_error {c : ℕ} (h : reuseEmpty s seg c r = .error err) : RaisedAt level err := by
  rcases Run.of_bind_error h with h | ⟨_, _, h⟩
  · rw [ByteRange.updateByteCount_error h]
    trivial
  · cases h

theorem insertOnEmpty_error (h : rm.insertOnEmpty s e seg r = .error err) : RaisedAt level err := by
  unfold insertOnEmpty at h
  dsimp only at h
  split at h
  · rcases Run.of_bind_error h with h | ⟨_, _, h⟩
    · exact reuseEmpty_error h
    · cases h
  split at h
  · rcases Run.of_bind_error h with h | ⟨_, _, h⟩
    · exact reuseEmpty_error h
    · cases h
  · rcases Run.of_bind_error h with h | ⟨_, _, h⟩
    · exact reuseEmpty_error h
    · cases h

theorem spanRest_error (h : rm.spanRest s e itype level s' = .error err) : RaisedAt level err := by
  unfold spanRest at h
  split at h
  · next hlevel =>
    rw [← Except.error.inj h]
    exact hlevel
  · cases h

theorem insertSpanning_error (h : rm.insertSpanning s e itype seg level r = .error err) :
    RaisedAt level err := by
  unfold insertSpanning at h
  cases itype with
  | sent =>
      dsimp only at h
      split at h
      · exact insertOnEmpty_error h
      · exact spanRest_error h
  | recv =>
      dsimp only at h
      split at h
      · rw [← Except.error.inj h]
        trivial
      · exact spanRest_error h
  | sojourn =>
      rcases Run.of_bind_error h with h | ⟨_, _, h⟩
      · rw [ByteRange.addSegmentEnteredKernelTime_error h]
        trivial
      · dsimp only at h
        split at h
        · cases h
        · exact spanRest_error h

theorem insertWithin_error (h : rm.insertWithin s e itype seg level r = .error err) :
    RaisedAt level err := by
  unfold insertWithin at h
  cases itype with
  | sojourn =>
      rcases Run.of_bind_error h with h | ⟨_, _, h⟩
      · rw [ByteRange.addSegmentEnteredKernelTime_error h]
        trivial
      · cases h
  | sent | recv =>
      dsimp only at h
      split at h
      · cases h
      rcases Run.of_bind_error h with h | ⟨_, _, h⟩
      · rw [ByteRange.splitEnd_error h]
        trivial
      · cases h

theorem insertBody_error (h : rm.insertBody s e itype seg level = .error err) :
    RaisedAt level err := by
  unfold insertBody at h
  split at h
  · unfold insertEmpty at h
    dsimp only at h
    split at h
    · rw [newEmptyRange_eq] at h
      cases h
    · cases h
  split at h
  · exact insertNotFound_error h
  unfold insertFound at h
  split at h
  · rw [← Except.error.inj h]
    trivial
  split at h
  · exact insertSpanning_error h
  · exact insertWithin_error h

end Body

end RangeManager

end AnalyseTCP
