import AnalyseTCP.SentFrame
import AnalyseTCP.AckTimes

/-!
# Receiving, by another capture clock

Inserting received data writes the capture times and never reads them.  So two receiver traces that
differ in their capture times only leave the same ranges with the same counts, whatever the
difference: the receive times of one map are the other's, read by the other clock.  The one exception
is a packet without payload where no range starts, which becomes a range of its own with the receive
time as its send time.
-/

namespace AnalyseTCP

/-- A time of a capture file: microseconds below a second, and 32-bit seconds after the epoch. -/
structure Timeval.Captured (tv : Timeval) : Prop where
  sec : 0 < tv.tvSec
  bound : tv.tvSec < 2 ^ 32
  usec : 0 ≤ tv.tvUsec
  below : tv.tvUsec < 1000000

instance (tv : Timeval) : Decidable tv.Captured :=
  decidable_of_iff (0 < tv.tvSec ∧ tv.tvSec < 2 ^ 32 ∧ 0 ≤ tv.tvUsec ∧ tv.tvUsec < 1000000)
    ⟨fun h => ⟨h.1, h.2.1, h.2.2.1, h.2.2.2⟩, fun h => ⟨h.sec, h.bound, h.usec, h.below⟩⟩

/-- The segment, captured by a clock that shows `g t` at the time `t`. -/
def DataSeg.atClock (g : Timeval → Timeval) (seg : DataSeg) : DataSeg :=
  { seg with tstampPcap := g seg.tstampPcap }

def SendData.atClock (g : Timeval → Timeval) (sd : SendData) : SendData :=
  { sd with data := sd.data.atClock g }

namespace ByteRange

def atClock (g : Timeval → Timeval) (r : ByteRange) : ByteRange :=
  { r with receivedTstampPcap := r.receivedTstampPcap.map g }

variable {g : Timeval → Timeval}

theorem atClock_startSeq (r : ByteRange) : (r.atClock g).startSeq = r.startSeq := rfl

theorem atClock_endSeq (r : ByteRange) : (r.atClock g).endSeq = r.endSeq := rfl

theorem new_atClock {start stop : ℕ} {r : ByteRange} (h : new start stop = .ok r) :
    r.atClock g = r := by
  unfold new updateByteCount at h
  split_ifs at h
  · obtain rfl := Except.ok.inj h
    rfl
  · cases h

theorem updateByteCount_atClock (r : ByteRange) :
    (r.atClock g).updateByteCount = r.updateByteCount.map (atClock g) := by
  unfold updateByteCount
  show (if sub64 r.endSeq r.startSeq < 2 ^ 16 - 1 then _ else _) = _
  split_ifs <;> rfl

theorem split_atClock (r : ByteRange) (start stop : ℕ) :
    (r.atClock g).split start stop =
      (r.split start stop).map fun p => (p.1.atClock g, p.2.atClock g) := by
  unfold split
  cases hnew : new start stop with
  | error err => rfl
  | ok newBr =>
      rw [Run.ok_bind, Run.ok_bind]
      dsimp only
      rw [updateByteCount_atClock]
      have hnone : newBr.receivedTstampPcap.map g = newBr.receivedTstampPcap :=
        congrArg receivedTstampPcap (new_atClock hnew)
      cases r.updateByteCount with
      | error err => rfl
      | ok r' =>
          show Except.ok _ = Except.ok _
          congr 2
          unfold atClock
          dsimp only
          rw [hnone]

theorem splitEnd_atClock (r : ByteRange) (start stop : ℕ) :
    (r.atClock g).splitEnd start stop =
      (r.splitEnd start stop).map fun p => (p.1.atClock g, p.2.atClock g) :=
  split_atClock { r with endSeq := start } start stop

theorem increaseReceived_atClock (r : ByteRange) (tcp : ℕ) (tv : Timeval) (inSequence : Bool) :
    (r.atClock g).increaseReceived tcp (g tv) inSequence =
      (r.increaseReceived tcp tv inSequence).atClock g := by
  unfold increaseReceived
  by_cases hzero : r.dataReceivedCount.val = 0
  · rw [if_pos hzero, if_pos (show (r.atClock g).dataReceivedCount.val = 0 from hzero)]
    rfl
  · rw [if_neg hzero, if_neg (show ¬(r.atClock g).dataReceivedCount.val = 0 from hzero)]
    rfl

end ByteRange

namespace RangeManager

def atClock (g : Timeval → Timeval) (rm : RangeManager) : RangeManager :=
  { rm with ranges := rm.ranges.mapVals (ByteRange.atClock g) }

def Outcome.atClock (g : Timeval → Timeval) : Outcome → Outcome
  | .done rm ret => .done (rm.atClock g) ret
  | .again rm startSeq => .again (rm.atClock g) startSeq

section Pass

variable (g : Timeval → Timeval) (rm : RangeManager) (startSeq endSeq : ℕ) (seg : DataSeg)
  (level key : ℕ) (r : ByteRange)

theorem recordRecv_atClock :
    recordRecv (seg.atClock g) level (r.atClock g) = (recordRecv seg level r).atClock g := by
  have hinc : (r.atClock g).increaseReceived (seg.atClock g).tstampTcp (seg.atClock g).tstampPcap
      (seg.atClock g).inSequence =
        (r.increaseReceived seg.tstampTcp seg.tstampPcap seg.inSequence).atClock g :=
    ByteRange.increaseReceived_atClock r _ _ _
  unfold recordRecv
  rw [hinc]
  dsimp only
  split <;> rfl

theorem finSet_atClock : finSet (seg.atClock g) (r.atClock g) = (finSet seg r).atClock g := by
  unfold finSet
  show (if seg.fin then _ else _) = _
  split <;> rfl

theorem finIncrease_atClock :
    finIncrease (seg.atClock g) (r.atClock g) = (finIncrease seg r).atClock g := by
  unfold finIncrease
  show (if seg.fin then _ else _) = _
  split <;> rfl

theorem recordEmpty_atClock (rdb : Bool) :
    recordEmpty (seg.atClock g) .recv level rdb (r.atClock g) =
      (recordEmpty seg .recv level rdb r).atClock g := by
  have hinc : (r.atClock g).increaseReceived (seg.atClock g).tstampTcp (seg.atClock g).tstampPcap
      (seg.atClock g).inSequence =
        (r.increaseReceived seg.tstampTcp seg.tstampPcap seg.inSequence).atClock g :=
    ByteRange.increaseReceived_atClock r _ _ _
  have hflags : ((seg.atClock g).syn || (seg.atClock g).fin) = (seg.syn || seg.fin) := rfl
  unfold recordEmpty
  dsimp only
  rw [hflags]
  by_cases hset : (seg.syn || seg.fin) = true
  · rw [if_pos hset, if_pos hset, hinc]
    split <;> rfl
  · rw [if_neg hset, if_neg hset]
    split <;> rfl

/-! ## A pass -/

theorem emptySeq_atClock : (rm.atClock g).emptySeq (seg.atClock g) startSeq =
    rm.emptySeq seg startSeq := by
  unfold emptySeq
  have hfind : ((rm.atClock g).ranges.find? (sub64 startSeq 1)).isSome =
      (rm.ranges.find? (sub64 startSeq 1)).isSome := by
    rw [show (rm.atClock g).ranges = rm.ranges.mapVals (ByteRange.atClock g) from rfl,
      OrdMap.find?_mapVals, Option.isSome_map]
  rw [hfind]
  rfl

/-- A packet without payload is received where a range starts. -/
def FindsRange : Prop := (rm.ranges.find? (rm.emptySeq seg startSeq)).isSome = true

instance : Decidable (FindsRange rm startSeq seg) :=
  inferInstanceAs (Decidable ((rm.ranges.find? (rm.emptySeq seg startSeq)).isSome = true))

variable {rm startSeq seg} in
theorem insertEmpty_atClock (hfinds : FindsRange rm startSeq seg) :
    (rm.atClock g).insertEmpty startSeq .recv (seg.atClock g) level =
      (rm.insertEmpty startSeq .recv seg level).map (Outcome.atClock g) := by
  obtain ⟨r, hfind⟩ := Option.isSome_iff_exists.mp hfinds
  have hfind' : (rm.atClock g).ranges.find? (rm.emptySeq seg startSeq) = some (r.atClock g) := by
    rw [show (rm.atClock g).ranges = rm.ranges.mapVals (ByteRange.atClock g) from rfl,
      OrdMap.find?_mapVals, hfind]
    rfl
  unfold insertEmpty
  dsimp only
  rw [emptySeq_atClock, hfind, hfind']
  dsimp only
  rw [show (rm.atClock g).ranges = rm.ranges.mapVals (ByteRange.atClock g) from rfl,
    OrdMap.modify_mapVals rm.ranges _ fun v => recordEmpty_atClock g seg level v _]
  rfl

theorem searchWindow_atClock : (rm.atClock g).searchWindow startSeq endSeq =
    (rm.searchWindow startSeq endSeq).map fun en => (en.1, en.2.atClock g) := by
  unfold searchWindow
  rw [show (rm.atClock g).ranges = rm.ranges.mapVals (ByteRange.atClock g) from rfl,
    OrdMap.below_mapVals, OrdMap.atLeast_mapVals, List.getLast?_map]
  have hlist : ((rm.ranges.below startSeq).getLast?.map fun en => (en.1, en.2.atClock g)).toList =
      (rm.ranges.below startSeq).getLast?.toList.map fun en => (en.1, en.2.atClock g) := by
    cases (rm.ranges.below startSeq).getLast? <;> rfl
  rw [hlist, ← List.map_append, List.takeWhile_map]
  rfl

/-- The ranges after the one at `key` was replaced. -/
theorem modify_atClock (head : ByteRange) :
    ((rm.atClock g).ranges.modify key fun _ => head.atClock g) =
      (rm.ranges.modify key fun _ => head).mapVals (ByteRange.atClock g) := by
  have hmod : (rm.ranges.mapVals (ByteRange.atClock g)).modify key (fun _ => head.atClock g) =
      (rm.ranges.modify key fun _ => head).mapVals (ByteRange.atClock g) :=
    OrdMap.modify_mapVals rm.ranges key fun _ => rfl
  exact hmod

/-- The ranges after a cut: the one at `key` was replaced and another one inserted. -/
theorem cut_atClock (head newBr : ByteRange) (q : ℕ) :
    ((rm.atClock g).ranges.modify key fun _ => head.atClock g).insert q (newBr.atClock g) =
      ((rm.ranges.modify key fun _ => head).insert q newBr).mapVals (ByteRange.atClock g) := by
  rw [modify_atClock, OrdMap.insert_mapVals]

theorem done_atClock (ranges : OrdMap ℕ ByteRange) (ret : Bool) :
    Outcome.done { rm.atClock g with ranges := ranges.mapVals (ByteRange.atClock g) } ret =
      (Outcome.done { rm with ranges := ranges } ret).atClock g := rfl

theorem again_atClock (ranges : OrdMap ℕ ByteRange) (restSeq : ℕ) :
    Outcome.again { rm.atClock g with ranges := ranges.mapVals (ByteRange.atClock g) } restSeq =
      (Outcome.again { rm with ranges := ranges } restSeq).atClock g := rfl

theorem splitExisting_atClock :
    (rm.atClock g).splitExisting startSeq endSeq .recv (seg.atClock g) level key (r.atClock g) =
      (rm.splitExisting startSeq endSeq .recv seg level key r).map (Outcome.atClock g) := by
  unfold splitExisting
  rw [ByteRange.atClock_startSeq, ByteRange.atClock_endSeq]
  dsimp only [recordSplit]
  -- both maps take the same branch, as the clock is in no bound of a range
  split_ifs
  · rfl
  · rw [ByteRange.splitEnd_atClock]
    cases r.splitEnd endSeq r.endSeq with
    | error err => rfl
    | ok parts =>
        rw [Run.ok_bind, Except.map, Run.ok_bind]
        dsimp only
        rw [finIncrease_atClock, recordRecv_atClock, ByteRange.atClock_startSeq, cut_atClock,
          done_atClock]
        rfl
  · rw [ByteRange.splitEnd_atClock]
    cases r.splitEnd startSeq r.endSeq with
    | error err => rfl
    | ok parts =>
        rw [Run.ok_bind, Except.map, Run.ok_bind]
        dsimp only
        rw [finSet_atClock, recordRecv_atClock, ByteRange.atClock_startSeq, cut_atClock,
          done_atClock]
        rfl
  · rw [ByteRange.splitEnd_atClock]
    cases r.splitEnd startSeq r.endSeq with
    | error err => rfl
    | ok parts =>
        rw [Run.ok_bind, Except.map, Run.ok_bind]
        dsimp only
        rw [finSet_atClock, ByteRange.splitEnd_atClock, ByteRange.atClock_endSeq]
        cases (finSet seg parts.2).splitEnd endSeq parts.2.endSeq with
        | error err => rfl
        | ok parts' =>
            rw [Run.ok_bind, Except.map, Run.ok_bind]
            dsimp only
            rw [recordRecv_atClock, ByteRange.atClock_startSeq, ByteRange.atClock_startSeq,
              cut_atClock, OrdMap.insert_mapVals, done_atClock]
            rfl
  · rw [ByteRange.splitEnd_atClock]
    cases r.splitEnd startSeq r.endSeq with
    | error err => rfl
    | ok parts =>
        rw [Run.ok_bind, Except.map, Run.ok_bind]
        dsimp only
        rw [recordRecv_atClock, ByteRange.atClock_startSeq, ByteRange.atClock_endSeq, cut_atClock,
          again_atClock]
        rfl

theorem insertNotFound_atClock :
    (rm.atClock g).insertNotFound startSeq endSeq .recv (seg.atClock g) level =
      (rm.insertNotFound startSeq endSeq .recv seg level).map (Outcome.atClock g) := by
  have hrecv : InsertType.recv ≠ .sojourn := by simp
  unfold insertNotFound
  rw [searchWindow_atClock, show (rm.atClock g).lastSeq = rm.lastSeq from rfl]
  by_cases hlast : startSeq < rm.lastSeq
  · rw [if_pos hlast, if_pos hlast]
    cases rm.searchWindow startSeq endSeq with
    | nil => rfl
    | cons en ens =>
        have hfind : (((en :: ens).map fun en => (en.1, en.2.atClock g)).find? fun e =>
            decide (e.2.startSeq ≤ startSeq) && decide (startSeq < e.2.endSeq)) =
              ((en :: ens).find? fun e => decide (e.2.startSeq ≤ startSeq) &&
                decide (startSeq < e.2.endSeq)).map fun en => (en.1, en.2.atClock g) :=
          List.find?_map
        rw [List.map_cons] at hfind ⊢
        dsimp only
        rw [hfind]
        cases (en :: ens).find? fun e =>
            decide (e.2.startSeq ≤ startSeq) && decide (startSeq < e.2.endSeq) with
        | none => rfl
        | some found =>
            dsimp only [Option.map]
            rw [if_neg hrecv, if_neg hrecv]
            exact splitExisting_atClock g rm startSeq endSeq seg level found.1 found.2
  · rw [if_neg hlast, if_neg hlast]
    rfl

theorem spanRest_atClock (restSeq : ℕ) :
    (rm.atClock g).spanRest startSeq endSeq .recv level restSeq =
      (rm.spanRest startSeq endSeq .recv level restSeq).map (Outcome.atClock g) := by
  unfold spanRest
  split_ifs <;> rfl

theorem insertSpanning_atClock :
    (rm.atClock g).insertSpanning startSeq endSeq .recv (seg.atClock g) level (r.atClock g) =
      (rm.insertSpanning startSeq endSeq .recv seg level r).map (Outcome.atClock g) := by
  unfold insertSpanning
  dsimp only [recordFound]
  rw [recordRecv_atClock, modify_atClock, ByteRange.atClock_endSeq]
  have htcp : ((recordRecv seg level r).atClock g).receivedTstampTcp =
      (recordRecv seg level r).receivedTstampTcp := rfl
  rw [htcp]
  split_ifs
  · rfl
  · exact spanRest_atClock g { rm with
      ranges := rm.ranges.modify startSeq fun _ => recordRecv seg level r } startSeq endSeq level
      r.endSeq

theorem insertWithin_atClock :
    (rm.atClock g).insertWithin startSeq endSeq .recv (seg.atClock g) level (r.atClock g) =
      (rm.insertWithin startSeq endSeq .recv seg level r).map (Outcome.atClock g) := by
  have hrecv : InsertType.recv ≠ .sent := by simp
  unfold insertWithin
  dsimp only [recordFound]
  rw [ByteRange.atClock_endSeq]
  by_cases hend : r.endSeq = endSeq
  · rw [if_pos hend, if_pos hend, if_neg hrecv, if_neg hrecv, recordRecv_atClock, modify_atClock,
      done_atClock]
    rfl
  · rw [if_neg hend, if_neg hend, ByteRange.splitEnd_atClock]
    cases r.splitEnd endSeq r.endSeq with
    | error err => rfl
    | ok parts =>
        rw [Run.ok_bind, Except.map, Run.ok_bind]
        dsimp only
        rw [recordRecv_atClock, ByteRange.atClock_startSeq, cut_atClock, done_atClock]
        rfl

theorem insertFound_atClock :
    (rm.atClock g).insertFound startSeq endSeq .recv (seg.atClock g) level (r.atClock g) =
      (rm.insertFound startSeq endSeq .recv seg level r).map (Outcome.atClock g) := by
  unfold insertFound
  rw [show (r.atClock g).endSeq = r.endSeq from rfl,
    show (rm.atClock g).firstSeq = rm.firstSeq from rfl, insertSpanning_atClock,
    insertWithin_atClock]
  split_ifs <;> rfl

variable {rm startSeq endSeq seg} in
theorem insertBody_atClock (hfinds : startSeq = endSeq → FindsRange rm startSeq seg) :
    (rm.atClock g).insertBody startSeq endSeq .recv (seg.atClock g) level =
      (rm.insertBody startSeq endSeq .recv seg level).map (Outcome.atClock g) := by
  unfold insertBody
  split_ifs with heq
  · exact insertEmpty_atClock g level (hfinds heq)
  rw [show (rm.atClock g).ranges = rm.ranges.mapVals (ByteRange.atClock g) from rfl,
    OrdMap.find?_mapVals]
  cases rm.ranges.find? startSeq with
  | none => exact insertNotFound_atClock g rm startSeq endSeq seg level
  | some r => exact insertFound_atClock g rm startSeq endSeq seg level r

end Pass

/-! ## Whole traces -/

section Traces

variable {g : Timeval → Timeval} {rm rm' : RangeManager}

theorem insertLoop_atClock {seg : DataSeg} {e fuel s level : ℕ} {ret : Bool}
    (hwf : WfEntries rm.ranges.entries) (hlt : s < e)
    (h : insertLoop e .recv seg fuel rm s level = .ok (rm', ret)) :
    insertLoop e .recv (seg.atClock g) fuel (rm.atClock g) s level = .ok (rm'.atClock g, ret) := by
  induction fuel generalizing rm s level with
  | zero => cases h
  | succ fuel ih =>
      have hrecv : InsertType.recv = .recv → ∀ en ∈ rm.ranges.entries, en.1 = s →
          en.2.endSeq ≠ s := by
        rintro - ⟨key, r⟩ hen rfl hempty
        exact insertLoop_stuck (OrdMap.find?_eq_some_iff.mpr hen) hempty hlt h
      have hbody' : (rm.atClock g).insertBody s e .recv (seg.atClock g) level =
          (rm.insertBody s e .recv seg level).map (Outcome.atClock g) :=
        insertBody_atClock g level fun heq => absurd heq hlt.ne
      rw [insertLoop] at h ⊢
      rw [hbody']
      cases hbody : rm.insertBody s e .recv seg level with
      | error err =>
          rw [hbody] at h
          cases h
      | ok out =>
          rw [hbody] at h
          cases out with
          | done rm₁ ret₁ =>
              obtain ⟨rfl, rfl⟩ := Prod.mk.inj (Except.ok.inj h)
              rfl
          | again rm₁ s₁ =>
              -- the next pass starts below the end of the data, so it is not one without payload
              have hmade := insertBody_madeOf hwf hlt (fun h => by cases h) (by simp) hrecv hbody
              have hwf₁ : WfEntries rm₁.ranges.entries := by
                intro en hen
                rcases hmade.entries en hen with hen | hpiece
                · exact hwf en hen
                · exact hpiece.wf hwf hlt
              exact ih hwf₁ (hmade.bounds s₁ rfl).2 h

/-- A received packet without payload belongs to a range. -/
def ReceivesOwned (rm : RangeManager) (sd : SendData) : Prop :=
  sd.data.seq = sd.data.endSeq → FindsRange rm sd.data.seq (receivedSeg sd)

instance (rm : RangeManager) (sd : SendData) : Decidable (ReceivesOwned rm sd) :=
  inferInstanceAs (Decidable (_ → _))

theorem insertReceivedRange_atClock {sd : SendData} (hwf : WfEntries rm.ranges.entries)
    (hle : sd.data.seq ≤ sd.data.endSeq) (hok : ReceivesOwned rm sd)
    (h : rm.insertReceivedRange sd = .ok rm') :
    (rm.atClock g).insertReceivedRange (sd.atClock g) = .ok (rm'.atClock g) := by
  obtain ⟨⟨rm₁, ret⟩, hins, hrm⟩ := Run.exists_of_bind_ok h
  obtain rfl : rm₁ = rm' := Except.ok.inj hrm
  have hins' : (rm.atClock g).insertByteRange sd.data.seq sd.data.endSeq .recv
      ((receivedSeg sd).atClock g) 0 = .ok (rm₁.atClock g, ret) := by
    rcases Nat.eq_or_lt_of_le hle with heq | hlt
    · have hbody : (rm.atClock g).insertBody sd.data.seq sd.data.endSeq .recv
          ((receivedSeg sd).atClock g) 0 =
            (rm.insertBody sd.data.seq sd.data.endSeq .recv (receivedSeg sd) 0).map
              (Outcome.atClock g) := insertBody_atClock g 0 hok
      have hstop : rm.insertBody sd.data.seq sd.data.endSeq .recv (receivedSeg sd) 0 =
          rm.insertEmpty sd.data.seq .recv (receivedSeg sd) 0 := by
        unfold insertBody
        rw [if_pos heq]
      -- without payload the range is already there, and only its counters change
      obtain ⟨r, hfind⟩ := Option.isSome_iff_exists.mp (hok heq)
      unfold insertByteRange at hins ⊢
      rw [insertLoop] at hins ⊢
      rw [hbody]
      unfold insertEmpty at hstop
      dsimp only at hstop
      rw [hfind] at hstop
      rw [show (receivedSeg sd).seq = sd.data.seq from rfl,
        show (receivedSeg sd).endSeq = sd.data.endSeq from rfl, hstop] at hins
      rw [hstop]
      obtain ⟨rfl, rfl⟩ := Prod.mk.inj (Except.ok.inj hins)
      rfl
    · exact insertLoop_atClock hwf hlt hins
  have hbind : (rm.atClock g).insertReceivedRange (sd.atClock g) = (do
      let out ← (rm.atClock g).insertByteRange sd.data.seq sd.data.endSeq .recv
        ((receivedSeg sd).atClock g) 0
      return out.1) := rfl
  rw [hbind, hins']
  rfl

end Traces

/-! ## The times in a map -/

section Times

/-- The capture times of a range. -/
def captureTimes (r : ByteRange) : List Timeval × Option Timeval :=
  (r.sentTstampPcap.map Prod.fst, r.receivedTstampPcap)

/-- A range that was sent, at capture times, and received at times with `G`. -/
structure Clocked (G : Timeval → Prop) (r : ByteRange) : Prop where
  sent : (captureTimes r).1 ≠ []
  captured : ∀ tv ∈ (captureTimes r).1, tv.Captured
  received : ∀ tv ∈ (captureTimes r).2, G tv

variable {G : Timeval → Prop} {r r' : ByteRange} {seg : DataSeg} {itype : InsertType}
  {rm rm' : RangeManager}

theorem Clocked.congr (h : Clocked G r) (htimes : captureTimes r' = captureTimes r) :
    Clocked G r' := by
  obtain ⟨hsent, hcaptured, hrecv⟩ := h
  rw [← htimes] at hsent hcaptured hrecv
  exact ⟨hsent, hcaptured, hrecv⟩

/-- The part behind a cut was not received, as far as its times say. -/
theorem Clocked.tail (h : Clocked G r) (c : ℕ) : Clocked G (r.tail c) := by
  have htimes : (captureTimes (r.tail c)).1 = (captureTimes r).1 := by
    show (r.sentTstampPcap.map fun p => (p.1, SentType.none)).map Prod.fst = _
    rw [List.map_map]
    rfl
  refine ⟨?_, ?_, fun tv htv => (nomatch htv)⟩
  · rw [htimes]
    exact h.sent
  · rw [htimes]
    exact h.captured

/-- A transmission at a capture time. -/
theorem clocked_recordSent (rdb : Bool) (sentT : SentType) (hseg : seg.tstampPcap.Captured)
    (hcaptured : ∀ tv ∈ (captureTimes r).1, tv.Captured) (hrecv : ∀ tv ∈ (captureTimes r).2, G tv) :
    Clocked G (recordSent seg rdb sentT r) := by
  have htimes : captureTimes (recordSent seg rdb sentT r) =
      ((captureTimes r).1 ++ [seg.tstampPcap], (captureTimes r).2) := by
    show ((r.sentTstampPcap ++ [(seg.tstampPcap, sentT)]).map Prod.fst, _) = _
    rw [List.map_append]
    rfl
  refine ⟨?_, ?_, ?_⟩
  · rw [htimes]
    simp
  · rw [htimes]
    intro tv htv
    rcases List.mem_append.mp htv with htv | htv
    · exact hcaptured tv htv
    · rw [List.mem_singleton.mp htv]
      exact hseg
  · rw [htimes]
    exact hrecv

theorem Clocked.recordSent (h : Clocked G r) (rdb : Bool) (sentT : SentType)
    (hseg : seg.tstampPcap.Captured) : Clocked G (recordSent seg rdb sentT r) :=
  clocked_recordSent rdb sentT hseg h.captured h.received

theorem Clocked.increaseReceived (h : Clocked G r) (tcp : ℕ) (inSequence : Bool)
    (hseg : G seg.tstampPcap) :
    Clocked G (r.increaseReceived tcp seg.tstampPcap inSequence) := by
  have hsent : (captureTimes (r.increaseReceived tcp seg.tstampPcap inSequence)).1 =
      (captureTimes r).1 :=
    increaseReceived_blind r (f := fun r => (captureTimes r).1) (fun _ _ _ _ => rfl) _ _ _
  refine ⟨?_, ?_, ?_⟩
  · rw [hsent]
    exact h.sent
  · rw [hsent]
    exact h.captured
  · unfold ByteRange.increaseReceived
    split
    · intro tv htv
      obtain rfl : seg.tstampPcap = tv := Option.some.inj htv
      exact hseg
    · exact h.received

theorem Clocked.recordRecv (h : Clocked G r) (level : ℕ) (hseg : G seg.tstampPcap) :
    Clocked G (recordRecv seg level r) := by
  have hinc : Clocked G (r.increaseReceived seg.tstampTcp seg.tstampPcap seg.inSequence) :=
    h.increaseReceived seg.tstampTcp seg.inSequence hseg
  unfold RangeManager.recordRecv
  dsimp only
  split
  · exact hinc.congr rfl
  · exact hinc

/-- What the time of a segment has to be for the ranges to keep such times. -/
def TimedFor (G : Timeval → Prop) (itype : InsertType) (seg : DataSeg) : Prop :=
  match itype with
  | .sent => seg.tstampPcap.Captured
  | .recv => G seg.tstampPcap
  | .sojourn => True

theorem Clocked.recordSplit (h : Clocked G r) (level : ℕ) (rdb : Bool)
    (hseg : TimedFor G itype seg) : Clocked G (recordSplit seg level rdb itype r) := by
  cases itype with
  | sent =>
      have hsent : Clocked G (RangeManager.recordSent seg rdb (if level = 0 then .rtr else .none) r) :=
        h.recordSent rdb _ hseg
      exact hsent.congr rfl
  | recv => exact h.recordRecv level hseg
  | sojourn => exact h

theorem Clocked.recordFound (h : Clocked G r) (level : ℕ) (rdb : Bool)
    (hseg : TimedFor G itype seg) : Clocked G (recordFound seg level rdb itype r) := by
  cases itype with
  | sent =>
      have hcounts : Clocked G (recordSentCounts seg level rdb r) := by
        have hsent : Clocked G (RangeManager.recordSent seg rdb (foundType seg level) r) :=
          h.recordSent rdb _ hseg
        exact hsent.congr rfl
      exact hcounts.congr (recordSentFound_blind seg level rdb r fun _ _ => rfl)
  | recv => exact h.recordRecv level hseg
  | sojourn => exact h

theorem Clocked.finSet (h : Clocked G r) : Clocked G (finSet seg r) :=
  h.congr (finSet_blind seg r fun _ _ => rfl)

theorem pieceKeeps_clocked (m : OrdMap ℕ ByteRange) (e : ℕ) (hseg : TimedFor G itype seg) :
    PieceKeeps m itype seg e (fun _ => True) (fun _ en => Clocked G en.2) where
  next _ _ _ _ _ _ _ := trivial
  old _ _ _ h _ := h
  piece l s level next en _ _ _ _ hl _ hpiece := by
    cases hpiece with
    | fresh hitype =>
        subst hitype
        apply Clocked.finSet
        apply clocked_recordSent _ _ hseg
        · intro tv htv
          cases htv
        · intro tv htv
          cases htv
    | whole r hmem =>
        have hfound := (hl _ hmem).recordFound level (thisIsRdbData seg s) hseg
        exact hfound.congr (wholeRange_blind itype seg level s r fun _ _ => rfl)
    | front r hmem =>
        have hhead : Clocked G (r.head e) := (hl _ hmem).congr rfl
        exact hhead.recordFound level _ hseg
    | frontRest r hmem => exact (hl (s, r) hmem).tail e
    | span r hmem => exact (hl (s, r) hmem).recordFound level _ hseg
    | reuse r c hmem hitype =>
        subst hitype
        have hsent := (hl (s, r) hmem).recordSent (thisIsRdbData seg s) .pkt hseg
        exact hsent.congr rfl
    | cutHead key r _ _ hmem => exact (hl (key, r) hmem).congr rfl
    | back key r _ hmem =>
        exact (((hl (key, r) hmem).tail s).finSet).recordSplit level _ hseg
    | middle key r _ hmem =>
        have hhead : Clocked G ((r.tail s).head e) := ((hl (key, r) hmem).tail s).congr rfl
        exact hhead.finSet.recordSplit level _ hseg
    | middleRest key r _ hmem => exact ((hl (key, r) hmem).tail s).tail e
    | beyond key r _ hmem => exact ((hl (key, r) hmem).tail s).recordSplit level _ hseg

theorem emptyKeeps_clocked_sent (rm : RangeManager) (hseg : seg.tstampPcap.Captured) :
    EmptyKeeps .sent seg rm fun en => Clocked G en.2 where
  new _ := by
    apply clocked_recordSent _ _ hseg
    · intro tv htv
      cases htv
    · intro tv htv
      cases htv
  found r _ h := by
    show Clocked G (recordEmpty seg .sent 0 (thisIsRdbData seg seg.seq) r)
    have hr : Clocked G r := h
    unfold recordEmpty
    dsimp only
    split
    · exact clocked_recordSent _ _ hseg hr.captured hr.received
    · split
      · exact clocked_recordSent _ _ hseg hr.captured hr.received
      · exact hr.recordSent _ _ hseg

theorem emptyKeeps_clocked_recv (hfinds : FindsRange rm seg.seq seg) (hseg : G seg.tstampPcap) :
    EmptyKeeps .recv seg rm fun en => Clocked G en.2 where
  new hnone := by
    have hsome := hfinds
    unfold FindsRange at hsome
    rw [hnone] at hsome
    cases hsome
  found r _ h := by
    show Clocked G (recordEmpty seg .recv 0 (thisIsRdbData seg seg.seq) r)
    have hr : Clocked G r := h
    have hinc : Clocked G (r.increaseReceived seg.tstampTcp seg.tstampPcap seg.inSequence) :=
      hr.increaseReceived seg.tstampTcp seg.inSequence hseg
    unfold recordEmpty
    dsimp only
    split
    · split
      · exact hinc.congr rfl
      · exact hr.congr rfl
    · split
      · exact hinc
      · exact hr

theorem ackKeeps_clocked (l : List Entry) (seg : DataSeg) :
    AckKeeps l seg fun en => Clocked G en.2 where
  exact _ r b h := Clocked.congr h <|
    ackExact_blind seg r _ b (fun _ _ => rfl) (fun _ _ => rfl) (fun _ => rfl) (fun _ => rfl)
      fun _ _ => rfl
  mark _ r h := by
    unfold markAcked
    split
    · exact h
    · exact h.congr rfl
  count _ _ h := h.congr rfl
  part _ r _ _ _ _ h := ⟨h.congr rfl, fun _ => h.tail _⟩

/-- The map is well-formed and every range has such times. -/
structure ClockedMap (G : Timeval → Prop) (rm : RangeManager) : Prop where
  wf : WfEntries rm.ranges.entries
  times : ∀ en ∈ rm.ranges.entries, Clocked G en.2

end Times

/-! ## Runs -/

/-- A sent packet has a capture time. -/
def SenderEvent.Captured : SenderEvent → Prop
  | .sent sd => sd.data.tstampPcap.Captured
  | .ack _ => True

instance : (ev : SenderEvent) → Decidable ev.Captured
  | .sent sd => inferInstanceAs (Decidable sd.data.tstampPcap.Captured)
  | .ack _ => inferInstanceAs (Decidable True)

section Runs

variable {G : Timeval → Prop} {g : Timeval → Timeval} {rm rm' : RangeManager}

theorem senderStep_clocked {ev : SenderEvent} (hinv : ClockedMap G rm) (hsized : ev.Sized)
    (hcaptured : ev.Captured) (h : senderStep rm ev = .ok rm') : ClockedMap G rm' := by
  refine ⟨senderStep_wf hinv.wf hsized h, ?_⟩
  cases ev with
  | ack seg => exact (ackStep_forall (ackKeeps_clocked _ seg) hinv.wf hinv.times h).2.2
  | sent sd =>
      have hseg : TimedFor G .sent sd.data := hcaptured
      have hkept := insertSentRange_forall (P := fun en => Clocked G en.2)
        (Q := fun _ en => Clocked G en.2) hsized
        (fun _ => emptyKeeps_clocked_sent rm hcaptured)
        (fun _ => ⟨pieceKeeps_clocked rm.ranges _ hseg, trivial, hinv.times⟩)
        (fun _ hen => hen) hinv.wf hinv.times h
      exact hkept.2

/-- After the sender trace no range has a receive time. -/
theorem senderStep_run_clocked {firstSeq : ℕ} {evs : List SenderEvent}
    (hevs : ∀ ev ∈ evs, ev.Sized ∧ ev.Captured)
    (hrun : Run.run senderStep (new firstSeq) evs = .ok rm) :
    ClockedMap (fun _ => False) rm := by
  have hsteps : Run.Steps senderStep (fun _ ev => True ∧ ev.Sized ∧ ev.Captured) (new firstSeq)
      evs := (Run.steps_true _ _).and_forall hevs
  have hnew : ClockedMap (fun _ => False) (new firstSeq) :=
    ⟨wfEntries_nil, fun en hen => by cases hen⟩
  exact Run.invariant (I := fun rm _ => ClockedMap (fun _ => False) rm) (d := [])
    (fun _ _ _ _ hinv hok hstep => senderStep_clocked hinv hok.2.1 hok.2.2 hstep) hnew hsteps hrun

theorem insertReceivedRange_clocked {sd : SendData} (hinv : ClockedMap G rm)
    (hle : sd.data.seq ≤ sd.data.endSeq) (hok : ReceivesOwned rm sd) (hsd : G sd.data.tstampPcap)
    (h : rm.insertReceivedRange sd = .ok rm') : ClockedMap G rm' := by
  have hseg : TimedFor G .recv (receivedSeg sd) := hsd
  have hkept := insertReceivedRange_forall (P := fun en => Clocked G en.2)
    (Q := fun _ en => Clocked G en.2) hle
    (fun heq => emptyKeeps_clocked_recv (hok heq) hsd)
    (fun _ => ⟨pieceKeeps_clocked rm.ranges _ hseg, trivial, hinv.times⟩)
    (fun _ hen => hen) hinv.wf hinv.times h
  exact ⟨hkept.1, hkept.2⟩

/-- A receiver trace as captured by two clocks: the second map is the first one, with the receive
times of the second clock. -/
theorem insertReceivedRange_run_atClock {sds : List SendData} (hinv : ClockedMap G rm)
    (hsds : ∀ sd ∈ sds, sd.data.seq ≤ sd.data.endSeq ∧ G sd.data.tstampPcap)
    (hsteps : Run.Steps insertReceivedRange ReceivesOwned rm sds)
    (hrun : Run.run insertReceivedRange rm sds = .ok rm') :
    ClockedMap G rm' ∧
      Run.run insertReceivedRange (rm.atClock g) (sds.map (SendData.atClock g)) =
        .ok (rm'.atClock g) := by
  induction sds generalizing rm with
  | nil =>
      obtain rfl := Except.ok.inj hrun
      exact ⟨hinv, rfl⟩
  | cons sd sds ih =>
      obtain ⟨⟨hle, hsd⟩, hsds⟩ := List.forall_mem_cons.mp hsds
      obtain ⟨rm₁, hstep, hrun⟩ := Run.exists_of_run_cons hrun
      have hinv₁ := insertReceivedRange_clocked hinv hle hsteps.1 hsd hstep
      rw [List.map_cons, Run.run_cons_ok (insertReceivedRange_atClock hinv.wf hle hsteps.1 hstep)]
      exact ih hinv₁ hsds (hsteps.2 rm₁ hstep) hrun

/-- A map without receive times looks the same by every clock. -/
theorem ClockedMap.atClock_eq (hinv : ClockedMap (fun _ => False) rm) : rm.atClock g = rm := by
  have hranges : rm.ranges.mapVals (ByteRange.atClock g) = rm.ranges := by
    apply OrdMap.ext
    have hid : ∀ en ∈ rm.ranges.entries, (en.1, en.2.atClock g) = id en := by
      intro en hen
      have hnone : en.2.receivedTstampPcap = none := by
        cases htv : en.2.receivedTstampPcap with
        | none => rfl
        | some tv => exact ((hinv.times en hen).received tv htv).elim
      show (en.1, ({ en.2 with receivedTstampPcap := en.2.receivedTstampPcap.map g } : ByteRange)) =
        en
      rw [hnone]
      show (en.1, ({ en.2 with receivedTstampPcap := none } : ByteRange)) = (en.1, en.2)
      rw [← hnone]
    rw [OrdMap.entries_mapVals, List.map_congr_left hid, List.map_id]
  unfold RangeManager.atClock
  rw [hranges]

/-- The receive time of a range is weaker or stronger with `G`. -/
theorem ClockedMap.mono {G' : Timeval → Prop} (hinv : ClockedMap G rm) (hG : ∀ tv, G tv → G' tv) :
    ClockedMap G' rm := by
  refine ⟨hinv.wf, fun en hen => ?_⟩
  obtain ⟨hsent, hcaptured, hrecv⟩ := hinv.times en hen
  exact ⟨hsent, hcaptured, fun tv htv => hG tv (hrecv tv htv)⟩

end Runs

end RangeManager

end AnalyseTCP
