import AnalyseTCP.PureAcks
import AnalyseTCP.Refinement

/-!
# What receiving leaves alone

`insertByteRange` takes sent data, received data and sojourn entries through the same branches.  For
received data and sojourn entries the counters of the sent packets should not move.  Two branches do
not ask for the type: a packet without payload at which no range starts makes a range and counts a
send, and the piece that is split off for a segment with FIN is marked with it.
-/

namespace AnalyseTCP

namespace RangeManager

theorem addSegmentEnteredKernelTime_blind {α : Type} {f : ByteRange → α} {r r' : ByteRange}
    {seq : ℕ} {tv : Timeval}
    (hf : ∀ (r : ByteRange) ts, f { r with sojournTime := true, sojournTstamps := ts } = f r)
    (h : r.addSegmentEnteredKernelTime seq tv = .ok r') : f r' = f r := by
  unfold ByteRange.addSegmentEnteredKernelTime at h
  split at h
  · rw [Except.ok.inj h]
  split at h
  · cases h
  split at h
  · cases h
  split at h
  · rw [Except.ok.inj h]
  · rw [← Except.ok.inj h]
    exact hf r _

/-- The counters of sent packets and flags, as the program reads them. -/
def sentFields : List (ByteRange → ℕ) :=
  [fun r => r.packetSentCount.val, fun r => r.packetRetransCount.val, fun r => r.ackedSent.val,
    fun r => r.syn.val, fun r => r.fin.val, fun r => r.rst.val]

/-! ## Marks of received data and sojourn entries -/

/-- A field that only sent packets change and that a split does not copy. -/
structure OfSent (f : ByteRange → ℕ) : Prop where
  head : ∀ (r : ByteRange) c, f (r.head c) = f r
  tail : ∀ (r : ByteRange) c, f (r.tail c) = 0
  increaseReceived : ∀ (r : ByteRange) t tv b, f (r.increaseReceived t tv b) = f r
  packetReceivedCount : ∀ (r : ByteRange) c, f { r with packetReceivedCount := c } = f r
  sojourn : ∀ (r : ByteRange) ts, f { r with sojournTime := true, sojournTstamps := ts } = f r

theorem ofSent_sentFields : ∀ f ∈ sentFields, OfSent f := by
  unfold sentFields
  simp only [List.forall_mem_cons]
  refine ⟨?_, ?_, ?_, ?_, ?_, ?_, fun _ h => (nomatch h)⟩ <;>
  · refine ⟨fun _ _ => rfl, fun _ _ => rfl, fun r _ _ _ => ?_, fun _ _ => rfl, fun _ _ => rfl⟩
    unfold ByteRange.increaseReceived
    split <;> rfl

namespace OfSent

variable {f : ByteRange → ℕ} (hf : OfSent f) (seg : DataSeg) (level : ℕ) (r : ByteRange)

include hf

theorem recordRecv : f (recordRecv seg level r) = f r := by
  unfold RangeManager.recordRecv
  dsimp only
  split
  · rw [hf.packetReceivedCount, hf.increaseReceived]
  · exact hf.increaseReceived r _ _ _

theorem recordEmpty (rdb : Bool) (itype : InsertType) (hitype : itype ≠ .sent) :
    f (recordEmpty seg itype level rdb r) = f r := by
  cases itype with
  | sent => exact absurd rfl hitype
  | sojourn => rfl
  | recv =>
      unfold RangeManager.recordEmpty
      dsimp only
      split_ifs
      · rw [hf.packetReceivedCount, hf.increaseReceived]
      · rw [hf.packetReceivedCount]
      · rw [hf.increaseReceived]
      · rfl

end OfSent

/-- Every entry has what its key had in `m`; a key that was free has nothing. -/
def SameAs (m : OrdMap ℕ ByteRange) (l : List Entry) : Prop :=
  ∀ f ∈ sentFields, ∀ en ∈ l, f en.2 = m.valueAt f en.1

theorem sameAs_self (m : OrdMap ℕ ByteRange) : SameAs m m.entries :=
  fun f _ _ hen => (OrdMap.valueAt_of_mem f hen).symm

/-! ## Received data -/

/-- A received segment with FIN is recorded on a piece that is split off where no range starts: at
the start of the segment or, where ranges overlap, at the end of one. -/
def SplitsForFin (l : List Entry) (lastSeq s e : ℕ) : Prop :=
  ∃ o ∈ l, ∃ p ∈ s :: l.map fun d => d.2.endSeq,
    s ≤ p ∧ p < e ∧ p < lastSeq ∧ (∀ d ∈ l, d.1 ≠ p) ∧ o.2.startSeq < p ∧ e ≤ o.2.endSeq

instance (l : List Entry) (lastSeq s e : ℕ) : Decidable (SplitsForFin l lastSeq s e) :=
  inferInstanceAs (Decidable (∃ o ∈ l, ∃ p ∈ s :: l.map fun d => d.2.endSeq,
    s ≤ p ∧ p < e ∧ p < lastSeq ∧ (∀ d ∈ l, d.1 ≠ p) ∧ o.2.startSeq < p ∧ e ≤ o.2.endSeq))

section Data

variable {rm rm' : RangeManager} {m : OrdMap ℕ ByteRange} {seg : DataSeg} {lastSeq s₀ s e level : ℕ}
  {out : Outcome} {ret : Bool}

/-- Between two passes: where the next one starts, and where the ranges ahead come from. -/
structure Untouched (m : OrdMap ℕ ByteRange) (s₀ : ℕ) (l : List Entry) (s : ℕ) : Prop where
  wf : WfEntries l
  keys : ∀ o ∈ m.entries, ∃ d ∈ l, d.1 = o.1
  same : SameAs m l
  start : s₀ ≤ s
  place : s = s₀ ∨ (∃ o ∈ m.entries, o.2.endSeq = s) ∨ ∃ d ∈ l, d.1 = s
  ahead : ∀ en ∈ l, s < en.2.endSeq →
    ∃ o ∈ m.entries, o.2.endSeq = en.2.endSeq ∧ o.2.startSeq ≤ en.2.startSeq

/-- What a piece has, unless it is split off for a FIN. -/
theorem Piece.sameAs {next : Option ℕ} {l : List Entry} {en : Entry} {f : ByteRange → ℕ}
    (h : Piece l .recv seg level s e next en) (hf : OfSent f)
    (hold : ∀ en ∈ l, f en.2 = m.valueAt f en.1)
    (hkeys : ∀ o ∈ m.entries, ∃ d ∈ l, d.1 = o.1)
    (hfin : ∀ r, (∃ key, (key, r) ∈ l ∧ key < s) → (∀ o ∈ l, o.1 ≠ s) → e ≤ r.endSeq →
      seg.fin = false) : f en.2 = m.valueAt f en.1 := by
  have hfree : ∀ k, (∀ o ∈ l, o.1 ≠ k) → m.valueAt f k = 0 := by
    intro k hfree
    apply OrdMap.valueAt_of_free
    exact OrdMap.free_of_kept hkeys hfree
  have hunset : seg.fin = false → ∀ r, finSet seg r = r := by
    intro hnot r
    unfold finSet
    rw [if_neg (by rw [hnot]; exact Bool.false_ne_true)]
  -- a received segment adds nothing to what was sent, and a part cut off starts with none of it
  cases h with
  | fresh hitype => cases hitype
  | reuse r c _ hitype => cases hitype
  | whole r hmem => exact (hf.recordRecv seg level r).trans (hold _ hmem)
  | front r hmem =>
      exact ((hf.recordRecv seg level (r.head e)).trans (hf.head r e)).trans (hold _ hmem)
  | frontRest r _ _ hrest => exact (hf.tail r e).trans (hfree e hrest).symm
  | span r hmem => exact (hf.recordRecv seg level r).trans (hold _ hmem)
  | cutHead key r _ _ hmem => exact (hf.head r s).trans (hold (key, r) hmem)
  | back key r hnew hmem hkey _ hend =>
      have hnot := hfin r ⟨key, hmem, hkey⟩ hnew hend.ge
      rw [hunset hnot, hfree s hnew]
      exact (hf.recordRecv seg level _).trans (hf.tail r s)
  | middle key r hnew hmem hkey hend =>
      have hnot := hfin r ⟨key, hmem, hkey⟩ hnew hend.le
      rw [hunset hnot, hfree s hnew]
      exact ((hf.recordRecv seg level _).trans (hf.head _ e)).trans (hf.tail r s)
  | middleRest key r _ _ _ _ hrest => exact (hf.tail _ e).trans (hfree e hrest).symm
  | beyond key r hnew =>
      rw [hfree s hnew]
      exact (hf.recordRecv seg level _).trans (hf.tail r s)

/-- In a pass that goes on at `s'`, a piece ends at or below `s'`. -/
theorem Piece.end_le_next {next : Option ℕ} {s' : ℕ} {l : List Entry} {en : Entry}
    (h : Piece l .recv seg level s e next en) (hnext : next = some s') (hlo : s < s') :
    en.2.endSeq ≤ s' := by
  cases h with
  | reuse r c _ hitype => cases hitype
  | cutHead key r => exact hlo.le
  | span r =>
      obtain rfl := Option.some.inj hnext
      exact (recordFound_endSeq _ _ _ _ _).le
  | beyond key r =>
      obtain rfl := Option.some.inj hnext
      exact (recordSplit_endSeq _ _ _ _ _).le
  | _ => cases hnext

theorem insertBody_untouched (hinv : Untouched m s₀ rm.ranges.entries s) (hlt : s < e)
    (hbytes : ∀ en ∈ rm.ranges.entries, en.1 = s → en.2.endSeq ≠ s)
    (hok : seg.fin = true → ¬SplitsForFin m.entries rm.lastSeq s₀ e)
    (h : rm.insertBody s e .recv seg level = .ok out) :
    OnlyRanges rm out.rm ∧ OrdMap.KeysKept m out.rm.ranges ∧ WfEntries out.rm.ranges.entries ∧
      SameAs m out.rm.ranges.entries ∧
      ∀ s', out.next = some s' → s' < e ∧ Untouched m s₀ out.rm.ranges.entries s' := by
  have hrecv : InsertType.recv ≠ .sojourn := by simp
  have hmade := insertBody_madeOf hinv.wf hlt (fun h => by cases h) hrecv (fun _ => hbytes) h
  have hkeys : OrdMap.KeysKept m out.rm.ranges := by
    intro o ho
    obtain ⟨d, hd, hdo⟩ := hinv.keys o ho
    obtain ⟨c, hc, hcd⟩ := hmade.keys d hd
    exact ⟨c, hc, hcd.trans hdo⟩
  have hwf : WfEntries out.rm.ranges.entries := by
    intro en hen
    rcases hmade.entries en hen with hen | hpiece
    · exact hinv.wf en hen
    · exact hpiece.wf hinv.wf hlt
  -- a piece split off at `s` up to `e` lies inside a range of `m`, where `m` has no key
  have hfin : s < rm.lastSeq → ∀ r, (∃ key, (key, r) ∈ rm.ranges.entries ∧ key < s) →
      (∀ o ∈ rm.ranges.entries, o.1 ≠ s) → e ≤ r.endSeq → seg.fin = false := by
    rintro hlast r ⟨key, hmem, hkey⟩ hfree hend
    by_contra hset
    have hstart : key = r.startSeq := (hinv.wf _ hmem).1
    obtain ⟨o, ho, hoend, hostart⟩ := hinv.ahead _ hmem (hlt.trans_le hend)
    have hplace : s ∈ s₀ :: m.entries.map fun d => d.2.endSeq := by
      rcases hinv.place with rfl | ⟨d, hd, rfl⟩ | ⟨d, hd, hds⟩
      · exact List.mem_cons_self
      · exact List.mem_cons_of_mem _ (List.mem_map_of_mem hd)
      · exact absurd hds (hfree d hd)
    have hnew : ∀ d ∈ m.entries, d.1 ≠ s := by
      intro d hd hds
      obtain ⟨c, hc, hcd⟩ := hinv.keys d hd
      exact hfree c hc (hcd.trans hds)
    have hlow : o.2.startSeq < s := by
      have : o.2.startSeq ≤ r.startSeq := hostart
      omega
    have hhigh : e ≤ o.2.endSeq := hend.trans hoend.ge
    apply hok (Bool.eq_true_of_not_eq_false hset)
    exact ⟨o, ho, s, hplace, hinv.start, hlt, hlast, hnew, hlow, hhigh⟩
  have hsame : SameAs m out.rm.ranges.entries := by
    intro f hf en hen
    rcases hmade.entries en hen with hen | hpiece
    · exact hinv.same f hf en hen
    have hsent := ofSent_sentFields f hf
    cases hfind : rm.ranges.find? s with
    | none =>
        rcases hmade.last rfl hfind with hkept | hlast
        · rw [hkept] at hen
          exact hinv.same f hf en hen
        · exact hpiece.sameAs hsent (hinv.same f hf) hinv.keys (hfin hlast)
    | some r =>
        have hmem : (s, r) ∈ rm.ranges.entries := OrdMap.find?_eq_some_iff.mp hfind
        exact hpiece.sameAs hsent (hinv.same f hf) hinv.keys
          fun _ _ hfree _ => absurd rfl (hfree _ hmem)
  refine ⟨hmade.frame, hkeys, hwf, hsame, fun s' hs' => ?_⟩
  obtain ⟨hlo, hhi⟩ := hmade.bounds s' hs'
  refine ⟨hhi, hwf, hkeys, hsame, hinv.start.trans hlo.le, ?_, fun en hen hahead => ?_⟩
  · rcases hmade.stop s' hs' with ⟨o, ho, rfl⟩ | ⟨o, ho, rfl⟩
    · obtain ⟨p, hp, hpo, -⟩ := hinv.ahead o ho hlo
      exact .inr (.inl ⟨p, hp, hpo⟩)
    · obtain ⟨d, hd, hdo⟩ := hmade.keys o ho
      exact .inr (.inr ⟨d, hd, hdo⟩)
  · rcases hmade.entries en hen with hen | hpiece
    · exact hinv.ahead en hen (hlo.trans hahead)
    · exact absurd (hpiece.end_le_next hs' hlo) hahead.not_ge

theorem OnlyRanges.pureAcks {rm rm' : RangeManager} (h : OnlyRanges rm rm') :
    rm'.analysedSentPureAckCount = rm.analysedSentPureAckCount := by
  unfold OnlyRanges at h
  rw [h]

/-- What an insertion leaves as it was: the counters of the sent packets at every key, and with them
their sums. -/
structure SentKept (rm rm' : RangeManager) : Prop where
  wf : WfEntries rm'.ranges.entries
  keys : OrdMap.KeysKept rm.ranges rm'.ranges
  same : SameAs rm.ranges rm'.ranges.entries
  pureAcks : rm'.analysedSentPureAckCount = rm.analysedSentPureAckCount

theorem SentKept.sum {f : ByteRange → ℕ} (h : SentKept rm rm') (hf : f ∈ sentFields) :
    (rm'.ranges.entries.map fun en => f en.2).sum = (rm.ranges.entries.map fun en => f en.2).sum :=
  OrdMap.sum_of_keysKept h.keys (h.same f hf)

theorem insertLoop_untouched {fuel : ℕ} (hinv : Untouched m s₀ rm.ranges.entries s) (hlt : s < e)
    (hok : seg.fin = true → ¬SplitsForFin m.entries rm.lastSeq s₀ e)
    (h : insertLoop e .recv seg fuel rm s level = .ok (rm', ret)) :
    OrdMap.KeysKept m rm'.ranges ∧ WfEntries rm'.ranges.entries ∧ SameAs m rm'.ranges.entries ∧
      rm'.analysedSentPureAckCount = rm.analysedSentPureAckCount := by
  induction fuel generalizing rm s level with
  | zero => cases h
  | succ fuel ih =>
      have hbytes : ∀ en ∈ rm.ranges.entries, en.1 = s → en.2.endSeq ≠ s := by
        rintro ⟨key, r⟩ hen rfl hempty
        exact insertLoop_stuck (OrdMap.find?_eq_some_iff.mpr hen) hempty hlt h
      rw [insertLoop] at h
      split at h
      · cases h
      · next hbody =>
          obtain ⟨rfl, rfl⟩ := Prod.mk.inj (Except.ok.inj h)
          obtain ⟨hframe, hkeys, hwf, hsame, -⟩ := insertBody_untouched hinv hlt hbytes hok hbody
          exact ⟨hkeys, hwf, hsame, OnlyRanges.pureAcks hframe⟩
      · next rm₁ s₁ hbody =>
          obtain ⟨hframe, -, -, -, hagain⟩ := insertBody_untouched hinv hlt hbytes hok hbody
          obtain ⟨hhi, hinv'⟩ := hagain s₁ rfl
          rw [← OnlyRanges.lastSeq hframe] at hok
          obtain ⟨hkeys, hwf, hsame, hacks⟩ := ih hinv' hhi hok h
          exact ⟨hkeys, hwf, hsame, hacks.trans (OnlyRanges.pureAcks hframe)⟩

theorem insertByteRange_recv_sentKept (hwf : WfEntries rm.ranges.entries) (hlt : s < e)
    (hok : seg.fin = true → ¬SplitsForFin rm.ranges.entries rm.lastSeq s e)
    (h : rm.insertByteRange s e .recv seg level = .ok (rm', ret)) : SentKept rm rm' := by
  have hinv : Untouched rm.ranges s rm.ranges.entries s := by
    refine ⟨hwf, fun o ho => ⟨o, ho, rfl⟩, sameAs_self _, le_rfl, .inl rfl, fun en hen _ => ?_⟩
    exact ⟨en, hen, rfl, le_rfl⟩
  obtain ⟨hkeys, hwf', hsame, hacks⟩ := insertLoop_untouched hinv hlt hok h
  exact ⟨hwf', hkeys, hsame, hacks⟩

/-! ## Sojourn entries -/

/-- A pass over a sojourn entry writes its time into one range, or nothing. -/
structure TimeWritten (rm : RangeManager) (seg : DataSeg) (e : ℕ) (out : Outcome) : Prop where
  bound : ∀ s', out.next = some s' → s' < e
  ranges : out.rm = rm ∨ ∃ key r r' q, (key, r) ∈ rm.ranges.entries ∧
    r.addSegmentEnteredKernelTime q seg.tstampPcap = .ok r' ∧
    out.rm = { rm with ranges := rm.ranges.modify key fun _ => r' }

theorem sojournInside_timeWritten {key : ℕ} {r : ByteRange} (hmem : (key, r) ∈ rm.ranges.entries)
    (h : rm.sojournInside s e seg key r = .ok out) : TimeWritten rm seg e out := by
  unfold sojournInside at h
  dsimp only at h
  split at h
  · cases h
  split at h
  · cases h
  split at h
  · obtain ⟨r', hadd, h⟩ := Run.exists_of_bind_ok h
    obtain rfl := Except.ok.inj h
    exact ⟨fun _ hs => (nomatch hs), .inr ⟨key, r, r', _, hmem, hadd, rfl⟩⟩
  split at h
  · obtain ⟨r', hadd, h⟩ := Run.exists_of_bind_ok h
    obtain rfl := Except.ok.inj h
    exact ⟨fun _ hs => (nomatch hs), .inr ⟨key, r, r', _, hmem, hadd, rfl⟩⟩
  · obtain rfl := Except.ok.inj h
    refine ⟨fun s' hs => ?_, .inl rfl⟩
    obtain rfl := Option.some.inj hs
    omega

theorem insertNotFound_timeWritten (h : rm.insertNotFound s e .sojourn seg level = .ok out) :
    TimeWritten rm seg e out := by
  have hnothing : .done rm true = out → TimeWritten rm seg e out := by
    rintro rfl
    exact ⟨fun _ hs => (nomatch hs), .inl rfl⟩
  unfold insertNotFound at h
  split at h
  · split at h
    · cases h
    · next w ws hw =>
        rw [← hw] at h
        split at h
        · next key r hfind =>
            have hmem := mem_entries_of_mem_searchWindow (List.mem_of_find?_eq_some hfind)
            rw [if_pos rfl] at h
            exact sojournInside_timeWritten hmem h
        · exact hnothing (Except.ok.inj h)
  · exact hnothing (Except.ok.inj h)

theorem insertFound_timeWritten {r : ByteRange} (hmem : (s, r) ∈ rm.ranges.entries)
    (h : rm.insertFound s e .sojourn seg level r = .ok out) : TimeWritten rm seg e out := by
  unfold insertFound at h
  rw [if_neg (fun hack => by cases hack.2.1)] at h
  split at h
  · next hend =>
      unfold insertSpanning at h
      obtain ⟨r', hadd, h⟩ := Run.exists_of_bind_ok h
      split at h
      · obtain rfl := Except.ok.inj h
        exact ⟨fun _ hs => (nomatch hs), .inr ⟨s, r, r', _, hmem, hadd, rfl⟩⟩
      · unfold spanRest at h
        split at h
        · cases h
        · obtain rfl := Except.ok.inj h
          refine ⟨fun s' hs => ?_, .inr ⟨s, r, r', _, hmem, hadd, rfl⟩⟩
          obtain rfl := Option.some.inj hs
          exact hend
  · unfold insertWithin at h
    obtain ⟨r', hadd, h⟩ := Run.exists_of_bind_ok h
    obtain rfl := Except.ok.inj h
    exact ⟨fun _ hs => (nomatch hs), .inr ⟨s, r, r', _, hmem, hadd, rfl⟩⟩

theorem insertBody_timeWritten (hne : s ≠ e) (h : rm.insertBody s e .sojourn seg level = .ok out) :
    TimeWritten rm seg e out := by
  unfold insertBody at h
  rw [if_neg hne] at h
  split at h
  · exact insertNotFound_timeWritten h
  · next r hfind => exact insertFound_timeWritten (OrdMap.find?_eq_some_iff.mp hfind) h

theorem TimeWritten.sentKept (h : TimeWritten rm seg e out) (hwf : WfEntries rm.ranges.entries) :
    SentKept rm out.rm := by
  have hsame := sameAs_self rm.ranges
  rcases h.ranges with hrm | ⟨key, r, r', q, hmem, hadd, hrm⟩
  · rw [hrm]
    exact ⟨hwf, .refl _, hsame, rfl⟩
  · rw [hrm]
    refine ⟨fun en hen => ?_, OrdMap.keysKept_modify _ _ _, fun f hf en hen => ?_, rfl⟩
    · rcases mem_modify_const hen with hen | rfl
      · exact hwf en hen
      · have hr : key = r.startSeq ∧ r.Wf := hwf _ hmem
        have hstart : r'.startSeq = r.startSeq :=
          addSegmentEnteredKernelTime_blind (fun _ _ => rfl) hadd
        have hend : r'.endSeq = r.endSeq :=
          addSegmentEnteredKernelTime_blind (fun _ _ => rfl) hadd
        have hbytes : r'.byteCount = r.byteCount :=
          addSegmentEnteredKernelTime_blind (fun _ _ => rfl) hadd
        exact ⟨hr.1.trans hstart.symm, hr.2.congr hstart hend hbytes⟩
    · rcases mem_modify_const hen with hen | rfl
      · exact hsame f hf en hen
      · have hkept : f r' = f r :=
          addSegmentEnteredKernelTime_blind (ofSent_sentFields f hf).sojourn hadd
        exact hkept.trans (hsame f hf _ hmem)

theorem SentKept.refl (hwf : WfEntries rm.ranges.entries) : SentKept rm rm :=
  ⟨hwf, .refl _, sameAs_self _, rfl⟩

theorem SentKept.trans {rm'' : RangeManager} (h : SentKept rm rm') (h' : SentKept rm' rm'') :
    SentKept rm rm'' := by
  refine ⟨h'.wf, h.keys.trans h'.keys, fun f hf en hen => ?_, h'.pureAcks.trans h.pureAcks⟩
  rw [h'.same f hf en hen]
  by_cases hfree : ∀ o ∈ rm'.ranges.entries, o.1 ≠ en.1
  · rw [OrdMap.valueAt_of_free f hfree]
    symm
    apply OrdMap.valueAt_of_free
    exact OrdMap.free_of_kept h.keys hfree
  · push Not at hfree
    obtain ⟨⟨key, r⟩, ho, rfl⟩ := hfree
    rw [OrdMap.valueAt_of_mem f ho]
    exact h.same f hf _ ho

theorem insertLoop_sojourn_sentKept {fuel : ℕ} (hne : s ≠ e) (hwf : WfEntries rm.ranges.entries)
    (h : insertLoop e .sojourn seg fuel rm s level = .ok (rm', ret)) : SentKept rm rm' := by
  induction fuel generalizing rm s level with
  | zero => cases h
  | succ fuel ih =>
      rw [insertLoop] at h
      split at h
      · cases h
      · next hbody =>
          obtain ⟨rfl, rfl⟩ := Prod.mk.inj (Except.ok.inj h)
          have hstep := insertBody_timeWritten hne hbody
          exact hstep.sentKept hwf
      · next rm₁ s₁ hbody =>
          have hstep := insertBody_timeWritten hne hbody
          have hkept : SentKept rm rm₁ := hstep.sentKept hwf
          have hlt : s₁ < e := hstep.bound s₁ rfl
          exact hkept.trans (ih hlt.ne hkept.wf h)

/-! ## Packets without payload -/

/-- A packet without payload leaves the counters alone if a range starts where it is registered. -/
theorem insertByteRange_empty_sentKept {itype : InsertType} (hitype : itype ≠ .sent)
    (hwf : WfEntries rm.ranges.entries)
    (hfound : (rm.ranges.find? (rm.emptySeq seg s)).isSome)
    (h : rm.insertByteRange s s itype seg level = .ok (rm', ret)) : SentKept rm rm' := by
  obtain ⟨r, hfind⟩ := Option.isSome_iff_exists.mp hfound
  unfold insertByteRange at h
  rw [insertLoop] at h
  unfold insertBody insertEmpty at h
  rw [if_pos rfl] at h
  dsimp only at h
  rw [hfind] at h
  obtain ⟨rfl, -⟩ := Prod.mk.inj (Except.ok.inj h)
  refine ⟨fun en hen => ?_, OrdMap.keysKept_modify _ _ _, fun f hf en hen => ?_, ?_⟩
  · rcases OrdMap.mem_modify hen with hen | ⟨r, hr, rfl⟩
    · exact hwf en hen
    · have hr' : _ = r.startSeq ∧ r.Wf := hwf _ hr
      simpa [ByteRange.wf_iff] using hr'
  · rcases OrdMap.mem_modify hen with hen | ⟨r, hr, rfl⟩
    · exact sameAs_self rm.ranges f hf en hen
    · have hsent := ofSent_sentFields f hf
      have hkept := hsent.recordEmpty seg level r (thisIsRdbData seg s) itype hitype
      exact hkept.trans (sameAs_self rm.ranges f hf _ hr)
  · show rm.analysedSentPureAckCount + (if itype = .sent then 1 else 0) = _
    rw [if_neg hitype, Nat.add_zero]

end Data

/-! ## Whole traces -/

/-- What is read after the sender trace: a packet of the receiver trace, or a sojourn entry. -/
inductive Observed
  | received (sd : SendData)
  | sojourn (seg : DataSeg)

def observe (rm : RangeManager) : Observed → Except Abort RangeManager
  | .received sd => rm.insertReceivedRange sd
  | .sojourn seg => do
      let (rm, _) ← rm.insertByteRange seg.seq seg.endSeq .sojourn seg 0
      return rm

def Observed.seg : Observed → DataSeg
  | .received sd => receivedSeg sd
  | .sojourn seg => seg

def Observed.itype : Observed → InsertType
  | .received _ => .recv
  | .sojourn _ => .sojourn

/-- A packet without payload is registered on a range that is there, and a received segment with FIN
splits no range for it. -/
def KeepsSent (rm : RangeManager) (ob : Observed) : Prop :=
  if ob.seg.seq = ob.seg.endSeq then (rm.ranges.find? (rm.emptySeq ob.seg ob.seg.seq)).isSome = true
  else ob.itype = .recv → ob.seg.fin = true →
    ¬SplitsForFin rm.ranges.entries rm.lastSeq ob.seg.seq ob.seg.endSeq

instance (rm : RangeManager) (ob : Observed) : Decidable (KeepsSent rm ob) :=
  inferInstanceAs (Decidable (ite _ _ _))

theorem observe_sentKept {rm rm' : RangeManager} {ob : Observed} (hwf : WfEntries rm.ranges.entries)
    (hle : ob.seg.seq ≤ ob.seg.endSeq) (hok : KeepsSent rm ob) (h : observe rm ob = .ok rm') :
    SentKept rm rm' := by
  have hins : ∃ ret,
      rm.insertByteRange ob.seg.seq ob.seg.endSeq ob.itype ob.seg 0 = .ok (rm', ret) := by
    cases ob with
    | received sd | sojourn seg =>
        obtain ⟨⟨rm₁, ret⟩, hins, hrm⟩ := Run.exists_of_bind_ok h
        obtain rfl : rm₁ = rm' := Except.ok.inj hrm
        exact ⟨ret, hins⟩
  have hitype : ob.itype ≠ .sent := by
    cases ob with
    | received sd | sojourn seg => exact fun h => by cases h
  obtain ⟨ret, hins⟩ := hins
  unfold KeepsSent at hok
  by_cases hempty : ob.seg.seq = ob.seg.endSeq
  · rw [if_pos hempty] at hok
    rw [← hempty] at hins
    exact insertByteRange_empty_sentKept hitype hwf hok hins
  · rw [if_neg hempty] at hok
    cases ob with
    | received sd => exact insertByteRange_recv_sentKept hwf (by omega) (hok rfl) hins
    | sojourn seg => exact insertLoop_sojourn_sentKept hempty hwf hins

theorem observe_run_sentKept {rm rm' : RangeManager} {obs : List Observed}
    (hwf : WfEntries rm.ranges.entries) (hle : ∀ ob ∈ obs, ob.seg.seq ≤ ob.seg.endSeq)
    (hsteps : Run.Steps observe KeepsSent rm obs) (hrun : Run.run observe rm obs = .ok rm') :
    SentKept rm rm' := by
  have hok : Run.Steps observe (fun rm₁ ob => KeepsSent rm₁ ob ∧ ob.seg.seq ≤ ob.seg.endSeq)
      rm obs := hsteps.and_forall hle
  exact Run.invariant (I := fun rm₁ _ => SentKept rm rm₁) (d := [])
    (fun _ _ _ _ hinv hok hstep => hinv.trans (observe_sentKept hinv.wf hok.2 hok.1 hstep))
    (SentKept.refl hwf) hok hrun

/-- The sums of the counters of sent packets over all ranges. -/
def sentSums (rm : RangeManager) : List ℕ :=
  sentFields.map fun f => (rm.ranges.entries.map fun en => f en.2).sum

/-- Receiver traces and sojourn entries whose packets without payload are registered on ranges that
are there, and whose segments with FIN split no range, change no count of what was sent. -/
theorem observe_run_keeps_sentSums {firstSeq : ℕ} {evs : List SenderEvent} {obs : List Observed}
    {rm rm' : RangeManager} (hsized : ∀ ev ∈ evs, ev.Sized)
    (hsent : Run.run senderStep (new firstSeq) evs = .ok rm)
    (hle : ∀ ob ∈ obs, ob.seg.seq ≤ ob.seg.endSeq)
    (hsteps : Run.Steps observe KeepsSent rm obs) (hrun : Run.run observe rm obs = .ok rm') :
    rm'.sentSums = rm.sentSums ∧
      rm'.analysedSentPureAckCount = rm.analysedSentPureAckCount := by
  have hwf := senderStep_run_wf hsized hsent
  have hkept := observe_run_sentKept hwf hle hsteps hrun
  refine ⟨?_, hkept.pureAcks⟩
  unfold sentSums
  apply List.map_congr_left
  intro f hf
  exact hkept.sum hf

/-- A SYN, ten bytes and an ACK behind them. -/
def smallStream : List SenderEvent :=
  [.sent smallSyn, .sent { data := { seq := 1, endSeq := 11, payloadSize := 10 } },
    .sent { data := { seq := 11, endSeq := 11 } }]

/-- The SYN, four bytes and the ACK arrive; the other six bytes wait in the kernel. -/
def smallArrivals : List Observed :=
  [.received smallSyn, .received { data := { seq := 1, endSeq := 5, payloadSize := 4 } },
    .sojourn { seq := 5, endSeq := 11, payloadSize := 6 },
    .received { data := { seq := 11, endSeq := 11 } }]

theorem observe_run_keeps_sentSums_small :
    ∃ rm rm', Run.run senderStep (new 0) smallStream = .ok rm ∧
      Run.run observe rm smallArrivals = .ok rm' ∧ rm.sentSums = [2, 0, 1, 1, 0, 0] ∧
      rm'.sentSums = rm.sentSums ∧
      rm'.analysedSentPureAckCount = rm.analysedSentPureAckCount := by
  obtain ⟨rm, hsent, hall⟩ := Run.exists_of_any_toOption
    (x := Run.run senderStep (new 0) smallStream)
    (p := fun rm => decide (rm.sentSums = [2, 0, 1, 1, 0, 0]) &&
      decide (Run.Steps observe KeepsSent rm smallArrivals) &&
      (Run.run observe rm smallArrivals).toOption.any fun _ => true) (by decide)
  obtain ⟨hall, hrun⟩ := Bool.and_eq_true_iff.mp hall
  obtain ⟨hsums, hsteps⟩ := Bool.and_eq_true_iff.mp hall
  obtain ⟨rm', hrun, -⟩ := Run.exists_of_any_toOption hrun
  refine ⟨rm, rm', hsent, hrun, of_decide_eq_true hsums, ?_⟩
  exact observe_run_keeps_sentSums (by decide) hsent (by decide) (of_decide_eq_true hsteps) hrun

/-- An ACK that the sender trace does not have, and the last five of ten bytes with FIN. -/
def strayArrivals : List Observed :=
  [.received { data := { seq := 10, endSeq := 10 } },
    .received { data := { seq := 5, endSeq := 10, payloadSize := 5, flags := thFin } }]

theorem observe_changes_sentSums :
    ∃ rm rm', Run.run senderStep (new 0)
        [.sent { data := { seq := 0, endSeq := 10, payloadSize := 10 } }] = .ok rm ∧
      Run.run observe rm strayArrivals = .ok rm' ∧ rm.sentSums = [1, 0, 0, 0, 0, 0] ∧
      rm'.sentSums = [1, 0, 1, 0, 1, 0] ∧ rm'.sentSums ≠ rm.sentSums := by
  obtain ⟨rm, hsent, hall⟩ := Run.exists_of_any_toOption
    (x := Run.run senderStep (new 0)
      [.sent { data := { seq := 0, endSeq := 10, payloadSize := 10 } }])
    (p := fun rm => decide (rm.sentSums = [1, 0, 0, 0, 0, 0]) &&
      (Run.run observe rm strayArrivals).toOption.any fun rm' : RangeManager =>
        decide (rm'.sentSums = [1, 0, 1, 0, 1, 0])) (by decide)
  obtain ⟨hsums, hrun⟩ := Bool.and_eq_true_iff.mp hall
  obtain ⟨rm', hrun, hsums'⟩ := Run.exists_of_any_toOption hrun
  have hbefore := of_decide_eq_true hsums
  have hafter := of_decide_eq_true hsums'
  refine ⟨rm, rm', hsent, hrun, hbefore, hafter, ?_⟩
  rw [hbefore, hafter]
  decide

end RangeManager

end AnalyseTCP
