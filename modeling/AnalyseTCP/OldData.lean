import AnalyseTCP.SentState
import AnalyseTCP.Traces

/-!
# Old data, as the connection and the ranges see it

`registerSent` decides from two high-water marks whether a packet repeats data, and marks it as a
retransmission or as a bundle; `insertByteRange` meets the old data range by range, and its DEBUG
build asserts at every recursion step that the marks fit.  They do: no range with bytes ends above
`lastLargestEndSeq`.
-/

namespace AnalyseTCP

namespace RangeManager

/-! ## The assertions of the DEBUG build -/

/-- On the part of a range that is split off for sent data. -/
def assertSplit (seg : DataSeg) (s : ℕ) : Bool :=
  !(!thisIsRdbData seg s && seg.isRdb) &&
    if thisIsRdbData seg s then !seg.retrans else seg.retrans

/-- On a range that the segment covers or spans. -/
def assertCovered (seg : DataSeg) (s : ℕ) : Bool := !thisIsRdbData seg s || !seg.retrans

/-- On a range that the segment ends in. -/
def assertFront (seg : DataSeg) (s : ℕ) : Bool := !thisIsRdbData seg s || seg.retrans

/-- All assertions about the marks that a pass of `insertByteRange` over sent data comes by. -/
def assertMarks (rm : RangeManager) (s e : ℕ) (seg : DataSeg) : Bool :=
  if s = e then true
  else
    match rm.ranges.find? s with
    | none =>
        if s < rm.lastSeq then
          match (rm.searchWindow s e).find? fun en =>
            decide (en.2.startSeq ≤ s) && decide (s < en.2.endSeq) with
          | some _ => assertSplit seg s
          | none => true
        else true
    | some br =>
        if br.endSeq ≠ e then
          if br.endSeq < e then
            if br.byteCount = 0 then true else assertCovered seg s
          else assertFront seg s
        else assertCovered seg s

/-! ## The recursion steps -/

/-- `insertByteRange` called with `rm₀` at `s₀` comes to a call with `rm` at `s`. -/
inductive Visits (e : ℕ) (itype : InsertType) (seg : DataSeg) :
    RangeManager → ℕ → ℕ → RangeManager → ℕ → ℕ → Prop
  | here (rm : RangeManager) (s level : ℕ) : Visits e itype seg rm s level rm s level
  | again {rm₀ rm₁ rm : RangeManager} {s₀ s₁ s level₀ level : ℕ}
      (hbody : rm₀.insertBody s₀ e itype seg level₀ = .ok (.again rm₁ s₁))
      (hrest : Visits e itype seg rm₁ s₁ (level₀ + 1) rm s level) :
      Visits e itype seg rm₀ s₀ level₀ rm s level

theorem insertEmpty_ne_again (rm rm₁ : RangeManager) (s s₁ : ℕ) (itype : InsertType)
    (seg : DataSeg) (level : ℕ) : rm.insertEmpty s itype seg level ≠ .ok (.again rm₁ s₁) := by
  unfold insertEmpty
  dsimp only
  split
  · rw [newEmptyRange_eq]
    exact fun h => nomatch h
  · exact fun h => nomatch h

/-- What the pieces inherit, every entry has at every recursion step. -/
theorem Visits.forall {seg : DataSeg} {e s₀ level₀ s level : ℕ} {G : ℕ → Prop}
    {P : Option ℕ → Entry → Prop} {m : OrdMap ℕ ByteRange} {rm₀ rm : RangeManager}
    (hvisits : Visits e .sent seg rm₀ s₀ level₀ rm s level)
    (hkeeps : PieceKeeps m .sent seg e G P) (hkeys : OrdMap.KeysKept m rm₀.ranges) (hlt : s₀ < e)
    (hG : G s₀) (hsize : e - s₀ < 2 ^ 16 - 1) (hwf : WfEntries rm₀.ranges.entries)
    (hP : ∀ en ∈ rm₀.ranges.entries, P (some s₀) en) :
    s₀ ≤ s ∧ s < e ∧ WfEntries rm.ranges.entries ∧ ∀ en ∈ rm.ranges.entries, P (some s) en := by
  induction hvisits with
  | here rm s level => exact ⟨le_rfl, hlt, hwf, hP⟩
  | @again rm₀ rm₁ rm s₀ s₁ s level₀ level hbody _ ih =>
      have hsent : InsertType.sent ≠ .sojourn := by simp
      have hmade := insertBody_madeOf hwf hlt (fun _ => hsize) hsent (fun h => by cases h) hbody
      obtain ⟨hlo, hhi⟩ := hmade.bounds s₁ rfl
      have hwf₁ : WfEntries rm₁.ranges.entries := by
        intro en hen
        rcases hmade.entries en hen with hen | hpiece
        · exact hwf en hen
        · exact hpiece.wf hwf hlt
      have hP₁ : ∀ en ∈ rm₁.ranges.entries, P (some s₁) en := by
        intro en hen
        rcases hmade.entries en hen with hen | hpiece
        · exact hkeeps.old s₀ _ en (hP en hen) hmade.bounds
        · exact hkeeps.piece _ s₀ level₀ _ en hwf hkeys hlt hG hP hmade.bounds hpiece
      have hG₁ := hkeeps.next _ s₀ s₁ hP hlo hhi (hmade.stop s₁ rfl)
      obtain ⟨hle, hrest⟩ := ih (hkeys.trans hmade.keys) hhi hG₁ (by omega) hwf₁ hP₁
      exact ⟨hlo.le.trans hle, hrest⟩

/-! ## No range ends above what was sent -/

/-- Before a pass at `pos`, a range with bytes ends at or below `last`, or it was made by an earlier
pass and ends at or below `pos`. -/
structure EndsBelow (last e : ℕ) (pos : Option ℕ) (en : Entry) : Prop where
  pos_le : pos.getD e ≤ e
  end_le : en.2.startSeq < en.2.endSeq → en.2.endSeq ≤ max last (pos.getD e)

theorem pieceKeeps_endsBelow (m : OrdMap ℕ ByteRange) (seg : DataSeg) (last e : ℕ) :
    PieceKeeps m .sent seg e (fun _ => True) (EndsBelow last e) where
  next _ _ _ _ _ _ _ := trivial
  old s next en h hnext := by
    obtain ⟨hpos, hend⟩ := h
    cases next with
    | none =>
        refine ⟨le_rfl, fun hbytes => ?_⟩
        have := hend hbytes
        simp only [Option.getD_some, Option.getD_none] at *
        omega
    | some s' =>
        obtain ⟨hlo, hhi⟩ := hnext s' rfl
        refine ⟨hhi.le, fun hbytes => ?_⟩
        have := hend hbytes
        simp only [Option.getD_some] at *
        omega
  piece l s level next en hwf hkeys hlt _ hl hnext hpiece := by
    have hpos : next.getD e ≤ e := by
      cases next with
      | none => exact le_rfl
      | some s' => exact (hnext s' rfl).2.le
    have hahead : s ≤ next.getD e := by
      cases next with
      | none => exact hlt.le
      | some s' => exact (hnext s' rfl).1.le
    have hold : ∀ key r, (key, r) ∈ l → key < r.endSeq → r.endSeq ≤ max last s := by
      intro key r hmem hbytes
      have hkey : key = r.startSeq := (hwf _ hmem).1
      apply (hl _ hmem).end_le
      show r.startSeq < r.endSeq
      omega
    refine ⟨hpos, fun _ => ?_⟩
    -- a new piece ends at the next call, at the end of the data, or where the cut range did
    cases hpiece with
    | fresh =>
        rw [freshRange_endSeq]
        exact le_max_right _ _
    | whole r hmem hend =>
        rw [wholeRange_endSeq, hend]
        exact le_max_right _ _
    | front r hmem hend =>
        rw [recordFound_endSeq]
        exact le_max_right _ _
    | frontRest r hmem hend =>
        have hle := hold s r hmem (hlt.trans hend)
        show r.endSeq ≤ max last e
        omega
    | span r hmem hbytes hend =>
        rw [recordFound_endSeq]
        exact le_max_right _ _
    | reuse r c hmem _ _ hlo hhi =>
        show c ≤ max last ((if c < e then some c else none).getD e)
        split
        · exact le_max_right _ _
        · exact hhi.trans (le_max_right _ _)
    | cutHead key r next =>
        show s ≤ max last (next.getD e)
        exact hahead.trans (le_max_right _ _)
    | back key r hfree hmem hkey hbytes hend =>
        rw [recordSplit_endSeq, finSet_endSeq]
        show r.endSeq ≤ max last e
        omega
    | middle key r hfree hmem hkey hend =>
        rw [recordSplit_endSeq, finSet_endSeq]
        exact le_max_right _ _
    | middleRest key r hfree hmem hkey hend =>
        have hle := hold key r hmem (by omega)
        show r.endSeq ≤ max last e
        omega
    | beyond key r hfree hmem hkey hbytes hend =>
        rw [recordSplit_endSeq]
        exact le_max_right _ _

end RangeManager

namespace Connection

open RangeManager

/-- No range with bytes ends above everything sent. -/
structure Bounded (conn : Connection) : Prop where
  wf : WfEntries conn.rm.ranges.entries
  end_le : ∀ en ∈ conn.rm.ranges.entries, en.2.startSeq < en.2.endSeq →
    en.2.endSeq ≤ conn.lastLargestEndSeq

/-- The packet has no mark yet, as `Dump::processSent` hands it over. -/
structure Unmarked (sd : SendData) : Prop where
  retrans : sd.data.retrans = false
  isRdb : sd.data.isRdb = false
  size : RangeManager.Sized sd

instance (sd : SendData) : Decidable (Unmarked sd) :=
  decidable_of_iff (sd.data.retrans = false ∧ sd.data.isRdb = false ∧ RangeManager.Sized sd)
    ⟨fun h => ⟨h.1, h.2.1, h.2.2⟩, fun h => ⟨h.1, h.2, h.3⟩⟩

/-- The marks that `registerSent` gives a packet it accepts; `last` is the largest end before. -/
inductive Marked (last : ℕ) : DataSeg → ℕ → Prop
  /-- no data, or a SYN that was moved to 0 -/
  | empty {d : DataSeg} (hend : d.endSeq = d.seq) (hnone : (d.retrans && d.isRdb) = false) :
      Marked last d last
  | newData {d : DataSeg} (hlt : d.seq < d.endSeq) (hsize : d.endSeq - d.seq < 2 ^ 16 - 1)
      (hnew : last < d.endSeq) (hretrans : d.retrans = false)
      (hrdb : d.seq < last → d.isRdb = true ∧ d.rdbEndSeq = last) : Marked last d d.endSeq
  | retrans {d : DataSeg} (hlt : d.seq < d.endSeq) (hsize : d.endSeq - d.seq < 2 ^ 16 - 1)
      (hold : d.endSeq ≤ last) (hretrans : d.retrans = true) (hrdb : d.isRdb = false) :
      Marked last d last

theorem registerNewData_marks (conn : Connection) (sd : SendData) :
    (conn.registerNewData sd).2.data.seq = sd.data.seq ∧
      (conn.registerNewData sd).2.data.endSeq = sd.data.endSeq ∧
      (conn.registerNewData sd).2.data.retrans = sd.data.retrans ∧
      (sd.data.seq < conn.lastLargestEndSeq →
        (conn.registerNewData sd).2.data.isRdb = true ∧
          (conn.registerNewData sd).2.data.rdbEndSeq = conn.lastLargestEndSeq) := by
  cases conn
  unfold registerNewData
  dsimp only
  split
  · exact ⟨rfl, rfl, rfl, fun _ => ⟨rfl, rfl⟩⟩
  · next hno => exact ⟨rfl, rfl, rfl, fun hlt => absurd (.inr (.inr hlt)) hno⟩

theorem classify_marked (conn : Connection) {sd : SendData} (hsd : Unmarked sd) :
    Marked conn.lastLargestEndSeq (conn.classify sd).2.data (conn.classify sd).1.lastLargestEndSeq := by
  have hend := hsd.size.size
  have hbound := hsd.size.bound
  unfold classify
  by_cases hzero : sd.data.payloadSize = 0
  · rw [if_pos hzero]
    refine .empty ?_ ?_
    · show sd.data.endSeq = sd.data.seq
      omega
    · show (sd.data.retrans && sd.data.isRdb) = false
      rw [hsd.retrans, Bool.false_and]
  rw [if_neg hzero]
  by_cases hnew : conn.lastLargestEndSeq < sd.data.endSeq
  · rw [if_pos hnew]
    obtain ⟨hseq, hend', hretrans, hrdb⟩ := registerNewData_marks conn sd
    obtain ⟨-, hlast, -⟩ := registerNewData_reference conn sd
    show Marked _ (conn.registerNewData sd).2.data (conn.registerNewData sd).1.lastLargestEndSeq
    rw [hlast, ← hend']
    refine .newData ?_ ?_ ?_ ?_ ?_
    · rw [hseq, hend']
      omega
    · rw [hseq, hend']
      omega
    · rw [hend']
      exact hnew
    · rw [hretrans]
      exact hsd.retrans
    · rw [hseq]
      exact hrdb
  · rw [if_neg hnew]
    obtain ⟨-, hlast, -⟩ := registerRetrans_reference conn sd
    show Marked _ (conn.registerRetrans sd).2.data (conn.registerRetrans sd).1.lastLargestEndSeq
    rw [hlast]
    refine .retrans ?_ ?_ ?_ rfl hsd.isRdb
    · show sd.data.seq < sd.data.endSeq
      omega
    · show sd.data.endSeq - sd.data.seq < 2 ^ 16 - 1
      omega
    · exact not_lt.mp hnew

/-- After a SYN restarted the numbering, the packet is no data whatever its payload. -/
theorem classify_marked_restart (conn : Connection) (sd : SendData) (hrdb : sd.data.isRdb = false)
    (hseq : sd.data.seq = 0) (hend : sd.data.endSeq = 0) :
    Marked conn.lastLargestEndSeq (conn.classify sd).2.data (conn.classify sd).1.lastLargestEndSeq := by
  have hnew : ¬conn.lastLargestEndSeq < sd.data.endSeq := by omega
  unfold classify
  by_cases hzero : sd.data.payloadSize = 0
  · rw [if_pos hzero]
    refine .empty (hend.trans hseq.symm) ?_
    show (sd.data.retrans && sd.data.isRdb) = false
    rw [hrdb, Bool.and_false]
  · rw [if_neg hzero, if_neg hnew]
    obtain ⟨-, hlast, -⟩ := registerRetrans_reference conn sd
    show Marked _ (conn.registerRetrans sd).2.data (conn.registerRetrans sd).1.lastLargestEndSeq
    rw [hlast]
    refine .empty (hend.trans hseq.symm) ?_
    show (true && sd.data.isRdb) = false
    rw [hrdb, Bool.and_false]

theorem registerSent_marked {conn conn' : Connection} {sd sd' : SendData} (hsd : Unmarked sd)
    (h : conn.registerSent sd = (conn', sd', true)) :
    Marked conn.lastLargestEndSeq sd'.data conn'.lastLargestEndSeq ∧
      conn'.rm.ranges = conn.rm.ranges := by
  rcases registerSent_cases conn sd with ⟨-, -, hout⟩ | ⟨c, d, hchecked, hout⟩
  · rw [hout] at h
    cases h
  rw [hout] at h
  obtain ⟨hconn, h⟩ := Prod.mk.inj h
  obtain ⟨hdata, -⟩ := Prod.mk.inj h
  have hcheck : c.lastLargestEndSeq = conn.lastLargestEndSeq ∧
      c.rm.ranges = conn.rm.ranges ∧
      (Unmarked d ∨ d.data.isRdb = false ∧ d.data.seq = 0 ∧ d.data.endSeq = 0) := by
    cases hchecked with
    | closes _ => exact ⟨rfl, rfl, .inl hsd⟩
    | restarts _ => exact ⟨rfl, rfl, .inr ⟨hsd.isRdb, rfl, rfl⟩⟩
    | plain _ => exact ⟨rfl, rfl, .inl hsd⟩
  obtain ⟨hlast, hranges, hplaced⟩ := hcheck
  obtain ⟨hrm, -⟩ := classify_reference c d
  rw [← hconn, ← hdata, ← hlast, hrm]
  refine ⟨?_, hranges⟩
  rcases hplaced with hsd | ⟨hrdb, hseq, hend⟩
  · exact classify_marked c hsd
  · exact classify_marked_restart c d hrdb hseq hend

/-! ## Runs -/

section Step

variable {conn conn' : Connection} {sd sd' : SendData}

theorem insertSentRange_bounded {rm rm' : RangeManager} {last last' : ℕ}
    (hmarked : Marked last sd.data last') (hwf : WfEntries rm.ranges.entries)
    (hends : ∀ en ∈ rm.ranges.entries, en.2.startSeq < en.2.endSeq → en.2.endSeq ≤ last)
    (h : rm.insertSentRange sd = .ok rm') :
    WfEntries rm'.ranges.entries ∧ ∀ en ∈ rm'.ranges.entries,
      en.2.startSeq < en.2.endSeq → en.2.endSeq ≤ last' := by
  obtain ⟨rm₁, ret, hins, hrm⟩ := insertSentRange_cases h
  rw [hrm]
  -- data: every range ends at or below the old mark or the end of the packet
  have hdata : sd.data.seq < sd.data.endSeq → sd.data.endSeq - sd.data.seq < 2 ^ 16 - 1 →
      max last sd.data.endSeq ≤ last' → WfEntries rm₁.ranges.entries ∧
        ∀ en ∈ rm₁.ranges.entries, en.2.startSeq < en.2.endSeq → en.2.endSeq ≤ last' := by
    intro hlt hsize hmax
    have hsent : InsertType.sent ≠ .sojourn := by simp
    obtain ⟨-, hwf', hends'⟩ := insertLoop_forall hsent
      (pieceKeeps_endsBelow rm.ranges sd.data last sd.data.endSeq) (.refl _) hlt trivial
      (fun _ => hsize) hwf
      (fun en hen => ⟨hlt.le, fun hbytes => (hends en hen hbytes).trans (le_max_left _ _)⟩) hins
    exact ⟨hwf', fun en hen hbytes => ((hends' en hen).end_le hbytes).trans hmax⟩
  cases hmarked with
  | newData hlt hsize hnew => exact hdata hlt hsize (max_le hnew.le le_rfl)
  | retrans hlt hsize hold => exact hdata hlt hsize (max_le le_rfl hold)
  | empty hend _ =>
      rw [hend] at hins
      have hkeeps : EmptyKeeps .sent sd.data rm
          (fun en => en.2.startSeq < en.2.endSeq → en.2.endSeq ≤ last) := by
        constructor
        · intro _ hbytes
          exact absurd hbytes (lt_irrefl _)
        · intro r _ hr
          dsimp only
          rw [recordEmpty_startSeq, recordEmpty_endSeq]
          exact hr
      have hkept := insertByteRange_empty_forall hkeeps hwf hends hins
      exact hkept

theorem processSent_bounded (hinv : conn.Bounded) (hsd : Unmarked sd)
    (h : conn.processSent sd = .ok conn') : conn'.Bounded := by
  unfold processSent at h
  split at h
  · next c d hreg =>
      obtain ⟨hmarked, hranges⟩ := registerSent_marked hsd hreg
      obtain ⟨rm, hins, h⟩ := Run.exists_of_bind_ok h
      obtain rfl := Except.ok.inj h
      have hwf : WfEntries c.rm.ranges.entries := by
        rw [hranges]
        exact hinv.wf
      have hends : ∀ en ∈ c.rm.ranges.entries, en.2.startSeq < en.2.endSeq →
          en.2.endSeq ≤ conn.lastLargestEndSeq := by
        rw [hranges]
        exact hinv.end_le
      obtain ⟨hwf', hends'⟩ := insertSentRange_bounded hmarked hwf hends hins
      exact ⟨hwf', hends'⟩
  · next c d hreg =>
      -- an ignored packet leaves the ranges and the mark alone
      obtain rfl := Except.ok.inj h
      rcases registerSent_cases conn sd with ⟨-, -, hout⟩ | ⟨_, _, _, hout⟩
      · rw [hout] at hreg
        obtain ⟨rfl, -⟩ := Prod.mk.inj hreg
        exact ⟨hinv.wf, hinv.end_le⟩
      · rw [hout] at hreg
        cases hreg

/-! ## The marks at a recursion step -/

/-- What `insertByteRange` may rely on at a call at `s`: data inside a range is marked, and a bundle
never ends inside a range. -/
structure MarksFit (rm : RangeManager) (s e : ℕ) (seg : DataSeg) : Prop where
  inside : ∀ en ∈ rm.ranges.entries, 0 < en.2.byteCount → en.2.Holds s →
    seg.retrans = true ∨ thisIsRdbData seg s = true
  ends : ∀ en ∈ rm.ranges.entries, en.2.startSeq < e → e < en.2.endSeq →
    thisIsRdbData seg s = false
  exclusive : (seg.retrans && seg.isRdb) = false

theorem assertMarks_of_fit {rm : RangeManager} {s e : ℕ} {seg : DataSeg} (hle : s ≤ e)
    (hwf : WfEntries rm.ranges.entries) (hfit : MarksFit rm s e seg) :
    rm.assertMarks s e seg = true := by
  obtain ⟨hinside, hends, hexcl⟩ := hfit
  have hrdb : thisIsRdbData seg s = true → seg.isRdb = true := by
    unfold thisIsRdbData
    intro h
    exact (Bool.and_eq_true_iff.mp h).1
  have hcovered : assertCovered seg s = true := by
    unfold assertCovered
    cases hthis : thisIsRdbData seg s with
    | false => rfl
    | true =>
        rw [hrdb hthis, Bool.and_true] at hexcl
        rw [hexcl]
        rfl
  have hbytes : ∀ en ∈ rm.ranges.entries, en.2.Holds s → 0 < en.2.byteCount := by
    intro en hen hhold
    have hsize := (hwf en hen).2.size
    have hlo : en.2.startSeq ≤ s := hhold.1
    have hhi : s < en.2.endSeq := hhold.2
    omega
  unfold assertMarks
  split
  · rfl
  -- three places assert: a split, the front of a range, and a range that is covered whole
  next hne =>
  split
  · split
    · split
      · next _ en hfind =>
          have hmem := mem_entries_of_mem_searchWindow (List.mem_of_find?_eq_some hfind)
          have hhold : en.2.Holds s := by
            simpa [ByteRange.Holds] using List.find?_some hfind
          unfold assertSplit
          rcases hinside en hmem (hbytes en hmem hhold) hhold with hretrans | hthis
          · rw [hretrans, Bool.true_and] at hexcl
            have hthis : thisIsRdbData seg s = false := by
              unfold thisIsRdbData
              rw [hexcl, Bool.false_and]
            rw [hthis, hexcl, hretrans]
            rfl
          · rw [hrdb hthis, Bool.and_true] at hexcl
            rw [hthis, hexcl]
            rfl
      · rfl
    · rfl
  · next br hfind =>
      have hmem := OrdMap.find?_eq_some_iff.mp hfind
      have hkey : s = br.startSeq := (hwf _ hmem).1
      split
      · next hend =>
          split
          · split
            · rfl
            · exact hcovered
          · next hge =>
              have hfront : thisIsRdbData seg s = false := by
                apply hends _ hmem
                · show br.startSeq < e
                  omega
                · show e < br.endSeq
                  omega
              unfold assertFront
              rw [hfront]
              rfl
      · exact hcovered

theorem marksFit_of_visits {rm₀ rm : RangeManager} {seg : DataSeg} {s level last last' : ℕ}
    (hmarked : Marked last seg last') (hwf : WfEntries rm₀.ranges.entries)
    (hends : ∀ en ∈ rm₀.ranges.entries, en.2.startSeq < en.2.endSeq → en.2.endSeq ≤ last)
    (hlt : seg.seq < seg.endSeq)
    (hvisits : Visits seg.endSeq .sent seg rm₀ seg.seq 0 rm s level) :
    s < seg.endSeq ∧ WfEntries rm.ranges.entries ∧ MarksFit rm s seg.endSeq seg := by
  have hsize : seg.endSeq - seg.seq < 2 ^ 16 - 1 := by
    -- the marks are those of `registerSent`: of a packet without data, a retransmission, new data
    cases hmarked with
    | empty hend => omega
    | newData _ hsize => exact hsize
    | retrans _ hsize => exact hsize
  obtain ⟨hlo, hhi, hwf', hP⟩ := hvisits.forall
    (pieceKeeps_endsBelow rm₀.ranges seg last seg.endSeq) (.refl _) hlt trivial hsize hwf
    (fun en hen => ⟨hlt.le, fun hbytes => (hends en hen hbytes).trans (le_max_left _ _)⟩)
  refine ⟨hhi, hwf', ?_⟩
  cases hmarked with
  | empty hend => omega
  | retrans _ _ hold hretrans hrdb =>
      refine ⟨fun _ _ _ _ => .inl hretrans, fun _ _ _ _ => ?_, ?_⟩
      · unfold thisIsRdbData
        rw [hrdb, Bool.false_and]
      · rw [hrdb, Bool.and_false]
  | newData _ _ hnew hretrans hrdb =>
      refine ⟨fun en hen _ hhold => ?_, fun en hen hstart hend => ?_, ?_⟩
      · -- a range that holds `s` was there before the packet, so it ends at or below the mark
        have hstart : en.2.startSeq ≤ s := hhold.1
        have hstop : s < en.2.endSeq := hhold.2
        have hle : en.2.endSeq ≤ max last s := (hP en hen).end_le (by omega)
        have hlast : s < last := by omega
        obtain ⟨hset, hmark⟩ := hrdb (by omega)
        right
        unfold thisIsRdbData
        rw [hset, hmark, Bool.true_and]
        exact decide_eq_true hlast
      · have hle : en.2.endSeq ≤ max last s := (hP en hen).end_le (by omega)
        omega
      · rw [hretrans, Bool.false_and]

end Step

/-- After any packets, the marks of the next one are exclusive, and at every recursion step of its
insertion they fit the ranges, so that every assertion about them holds. -/
theorem registerSent_run_marksFit {seq : ℕ} {sds : List SendData} {conn conn' : Connection}
    {sd sd' : SendData} (hsds : ∀ sd ∈ sds, Unmarked sd)
    (hrun : Run.run processSent (new seq) sds = .ok conn) (hsd : Unmarked sd)
    (hreg : conn.registerSent sd = (conn', sd', true)) :
    (sd'.data.retrans && sd'.data.isRdb) = false ∧
    ∀ rm s level,
      Visits sd'.data.endSeq .sent sd'.data conn'.rm sd'.data.seq 0 rm s level →
      (s < sd'.data.endSeq → MarksFit rm s sd'.data.endSeq sd'.data) ∧
        rm.assertMarks s sd'.data.endSeq sd'.data = true := by
  have hsteps : Run.Steps processSent (fun _ sd => True ∧ Unmarked sd) (new seq) sds :=
    (Run.steps_true _ _).and_forall hsds
  have hstart : (new seq).Bounded := ⟨fun en hen => (nomatch hen), fun en hen => (nomatch hen)⟩
  have hinv : conn.Bounded :=
    Run.invariant (I := fun conn _ => conn.Bounded) (d := [])
      (fun _ _ _ _ hinv hok hstep => processSent_bounded hinv hok.2 hstep) hstart hsteps hrun
  obtain ⟨hmarked, hranges⟩ := registerSent_marked hsd hreg
  have hwf : WfEntries conn'.rm.ranges.entries := by
    rw [hranges]
    exact hinv.wf
  have hends : ∀ en ∈ conn'.rm.ranges.entries, en.2.startSeq < en.2.endSeq →
      en.2.endSeq ≤ conn.lastLargestEndSeq := by
    rw [hranges]
    exact hinv.end_le
  generalize conn'.lastLargestEndSeq = last at hmarked
  refine ⟨?_, fun rm s level hvisits => ?_⟩
  · cases hmarked with
    | empty _ hnone => exact hnone
    | newData _ _ _ hretrans => rw [hretrans, Bool.false_and]
    | retrans _ _ _ _ hrdb => rw [hrdb, Bool.and_false]
  · by_cases hlt : sd'.data.seq < sd'.data.endSeq
    · obtain ⟨hs, hwf', hfit⟩ := marksFit_of_visits hmarked hwf hends hlt hvisits
      exact ⟨fun _ => hfit, assertMarks_of_fit hs.le hwf' hfit⟩
    · -- a packet without data is handled in one pass, which asserts nothing
      have hend : sd'.data.endSeq = sd'.data.seq := by
        cases hmarked with
        | empty hend => exact hend
        | newData h => exact absurd h hlt
        | retrans h => exact absurd h hlt
      rw [hend] at hvisits ⊢
      cases hvisits with
      | here =>
          refine ⟨fun h => absurd h (lt_irrefl _), ?_⟩
          unfold assertMarks
          rw [if_pos rfl]
      | again hbody _ =>
          unfold insertBody at hbody
          rw [if_pos rfl] at hbody
          exact absurd hbody (insertEmpty_ne_again _ _ _ _ _ _ _)

def firstTen : List SendData := [{ data := { seq := 0, endSeq := 10, payloadSize := 10 } }]

/-- Repeats the ten bytes and adds five. -/
def tenAndFive : SendData := { data := { seq := 0, endSeq := 15, payloadSize := 15 } }

theorem registerSent_run_marksFit_bundle :
    ∃ conn, Run.run processSent (new 0) firstTen = .ok conn ∧
      (conn.registerSent tenAndFive).2.1.data.isRdb = true ∧
      (conn.registerSent tenAndFive).1.rm.assertMarks 0 15
        (conn.registerSent tenAndFive).2.1.data = true := by
  obtain ⟨conn, hrun, hconn⟩ := Run.exists_of_any_toOption
    (x := Run.run processSent (new 0) firstTen)
    (p := fun conn => (conn.registerSent tenAndFive).2.2 &&
      (conn.registerSent tenAndFive).2.1.data.isRdb &&
      (conn.registerSent tenAndFive).2.1.data.seq == 0 &&
      (conn.registerSent tenAndFive).2.1.data.endSeq == 15) (by decide)
  simp only [Bool.and_eq_true, beq_iff_eq] at hconn
  obtain ⟨⟨⟨haccepted, hrdb⟩, hseq⟩, hend⟩ := hconn
  refine ⟨conn, hrun, hrdb, ?_⟩
  cases hreg : conn.registerSent tenAndFive with
  | mk conn' out =>
      obtain ⟨sd', ret⟩ := out
      rw [hreg] at haccepted hseq hend
      dsimp only at haccepted hseq hend
      rw [haccepted] at hreg
      have hfit := (registerSent_run_marksFit (by decide) hrun (by decide) hreg).2
      rw [hseq, hend] at hfit
      exact (hfit conn'.rm 0 0 (.here _ _ _)).2

end Connection

end AnalyseTCP
