import AnalyseTCP.RecvDiff
import AnalyseTCP.ReceiveClock

/-!
# An offset between the clocks

A constant offset between the capture clocks moves every difference between receive and send times
by the same amount, and should not show in the differences relative to the lowest one.  In
`calculateLatencyVariation` it does not, as long as it leaves every received range a positive
difference: a difference that is not positive counts as one that was not calculated, is not
compensated and does not lower `lowestRecvDiff`.
-/

namespace AnalyseTCP

/-- The time that a clock shows which is `k` milliseconds ahead. -/
def Timeval.offset (k : ℤ) (tv : Timeval) : Timeval :=
  ⟨(tv.getUsecs + k * 1000) / 1000000, (tv.getUsecs + k * 1000) % 1000000⟩

theorem Timeval.getUsecs_offset (k : ℤ) (tv : Timeval) :
    (tv.offset k).getUsecs = tv.getUsecs + k * 1000 := by
  show (tv.getUsecs + k * 1000) / 1000000 * 1000000 + (tv.getUsecs + k * 1000) % 1000000 = _
  omega

theorem Timeval.Captured.normal {tv : Timeval} (h : tv.Captured) : tv.Normal := ⟨h.usec, h.below⟩

/-- A difference that is not negative is rounded down to milliseconds. -/
theorem recvMillis_negSub {a b : Timeval} (ha : a.Captured) (hb : b.Captured)
    (hle : b.getUsecs ≤ a.getUsecs) :
    ByteRange.recvMillis (a.negSub b) = (a.getUsecs - b.getUsecs) / 1000 := by
  have hencodes := Timeval.negSub_encodes ha.normal hb.normal
  rw [ByteRange.recvMillis_of_encodes hencodes, Int.tdiv_eq_ediv_of_nonneg (by omega)]

/-- Rounding a value that is not negative commutes with an offset. -/
theorem truncLong_add {q : ℚ} {k : ℤ} (hq : 0 ≤ q) (hqk : 0 ≤ q + k) :
    truncLong (q + k) = truncLong q + k := by
  have hfloor : ∀ p : ℚ, 0 ≤ p → truncLong p = ⌊p⌋ := by
    intro p hp
    unfold truncLong
    rw [Int.tdiv_eq_ediv_of_nonneg (Rat.num_nonneg.mpr hp), Rat.floor_def']
  rw [hfloor _ hq, hfloor _ hqk, Int.floor_add_intCast]

/-- The range by the clock that is `k` milliseconds ahead. -/
def DiffRange.offset (k : ℤ) (d : DiffRange) : DiffRange :=
  ⟨d.range.atClock (Timeval.offset k), if d.range.received then d.diff + k else d.diff⟩

namespace RangeManager

/-! ## Delays -/

/-- The microseconds between the transmission that a range is matched with and the receive time that
counts for it. -/
def delay (last : Option Timeval) (r : ByteRange) : Option ℤ :=
  match last.or r.receivedTstampPcap, r.matchedSendTime with
  | some recv, some sent => some (recv.getUsecs - sent.getUsecs)
  | _, _ => none

/-- Every received range has a delay, and one of at least a millisecond. -/
def Delayed (transport : Bool) : Option Timeval → List Entry → Prop
  | _, [] => True
  | last, (_, r) :: l =>
      if r.received = true then
        (∃ d ∈ delay (lastAppLayer transport last r) r.matchReceivedType.1, 1000 ≤ d) ∧
          Delayed transport (lastAppLayer transport last r) l
      else Delayed transport last l

instance decidableDelayed (transport : Bool) :
    (last : Option Timeval) → (l : List Entry) → Decidable (Delayed transport last l)
  | _, [] => inferInstanceAs (Decidable True)
  | last, (_, r) :: l =>
      have := decidableDelayed transport (lastAppLayer transport last r) l
      have := decidableDelayed transport last l
      inferInstanceAs (Decidable (if r.received = true then
        (∃ d ∈ delay (lastAppLayer transport last r) r.matchReceivedType.1, 1000 ≤ d) ∧
          Delayed transport (lastAppLayer transport last r) l
        else Delayed transport last l))

/-- A time that is a capture time by both clocks. -/
def CapturedByBoth (k : ℤ) (tv : Timeval) : Prop := tv.Captured ∧ (tv.offset k).Captured

instance (k : ℤ) (tv : Timeval) : Decidable (CapturedByBoth k tv) :=
  inferInstanceAs (Decidable (tv.Captured ∧ (tv.offset k).Captured))

section Diffs

variable {r : ByteRange} {k : ℤ} {transport : Bool}

theorem matchReceivedType_atClock (g : Timeval → Timeval) (r : ByteRange) :
    (r.atClock g).matchReceivedType.1 = r.matchReceivedType.1.atClock g := by
  unfold ByteRange.matchReceivedType
  rw [show (r.atClock g).tstampsTcp = r.tstampsTcp from rfl,
    show (r.atClock g).rdbTstampsTcp = r.rdbTstampsTcp from rfl,
    show (r.atClock g).receivedTstampTcp = r.receivedTstampTcp from rfl]
  split
  · rfl
  · rfl
  · split <;> rfl

theorem received_matchReceivedType (r : ByteRange) :
    r.matchReceivedType.1.received = r.received :=
  matchReceivedType_blind (f := ByteRange.received) (fun _ _ _ _ => rfl) r

theorem lastAppLayer_atClock (g : Timeval → Timeval) (last : Option Timeval) (r : ByteRange) :
    lastAppLayer transport (last.map g) (r.atClock g) = (lastAppLayer transport last r).map g := by
  unfold lastAppLayer
  show (if (!transport && r.appLayerLatencyTstamp) = true then r.receivedTstampPcap.map g
    else last.map g) = _
  split <;> rfl

theorem forall_lastAppLayer {G : Timeval → Prop} {last : Option Timeval}
    (hr : ∀ tv ∈ r.receivedTstampPcap, G tv) (hlast : ∀ tv ∈ last, G tv) :
    ∀ tv ∈ lastAppLayer transport last r, G tv := by
  unfold lastAppLayer
  split
  · exact hr
  · exact hlast

/-- The first send time is one to subtract from. -/
theorem Clocked.exists_getSendTime {G : Timeval → Prop} (h : Clocked G r) :
    ∃ t, r.getSendTime = .ok t := by
  obtain ⟨hsent, hcaptured, -⟩ := h
  have hne : (r.sentTstampPcap.map Prod.fst) ≠ [] := hsent
  have hall : ∀ tv ∈ r.sentTstampPcap.map Prod.fst, tv.Captured := hcaptured
  unfold ByteRange.getSendTime
  cases hs : r.sentTstampPcap with
  | nil =>
      rw [hs] at hne
      exact absurd rfl hne
  | cons p ps =>
      have hp : p.1.Captured := by
        apply hall
        rw [hs]
        exact List.mem_cons_self
      have hzero : p.1 ≠ Timeval.zero := by
        intro heq
        have hpos := hp.sec
        rw [heq] at hpos
        exact lt_irrefl 0 hpos
      refine ⟨p.1, ?_⟩
      dsimp only
      rw [if_neg hzero]

/-- What `calculateRecvDiff` makes of a delay of a millisecond or more, by both clocks. -/
theorem calculateRecvDiff_offset (hr : Clocked (CapturedByBoth k) r) {last : Option Timeval}
    (hlast : ∀ tv ∈ last, CapturedByBoth k tv) (hd : ∃ d ∈ delay last r, 1000 ≤ d)
    (hd' : ∃ d ∈ delay (last.map (Timeval.offset k)) (r.atClock (Timeval.offset k)), 1000 ≤ d) :
    ∃ diff, r.calculateRecvDiff last = .ok diff ∧
      (r.atClock (Timeval.offset k)).calculateRecvDiff (last.map (Timeval.offset k)) =
        .ok (diff + k) ∧
      0 < diff ∧ diff < longMax ∧ 0 < diff + k ∧ diff + k < longMax := by
  have hrecv : (last.map (Timeval.offset k)).or (r.receivedTstampPcap.map (Timeval.offset k)) =
      (last.or r.receivedTstampPcap).map (Timeval.offset k) := by
    cases last <;> rfl
  unfold delay at hd hd'
  unfold ByteRange.calculateRecvDiff
  rw [show (r.atClock (Timeval.offset k)).receivedTstampPcap =
      r.receivedTstampPcap.map (Timeval.offset k) from rfl,
    show (r.atClock (Timeval.offset k)).matchedSendTime = r.matchedSendTime from rfl, hrecv] at hd' ⊢
  have hboth : ∀ tv ∈ last.or r.receivedTstampPcap, CapturedByBoth k tv := by
    cases last with
    | none => exact hr.received
    | some tv => exact hlast
  -- without a receive time or a matching send time there is no delay, against `hd`
  cases htv : last.or r.receivedTstampPcap with
  | none =>
      rw [htv] at hd
      obtain ⟨d, hd, -⟩ := hd
      cases hd
  | some recv =>
      cases hsent : r.matchedSendTime with
      | none =>
          rw [htv, hsent] at hd
          obtain ⟨d, hd, -⟩ := hd
          cases hd
      | some sent =>
          rw [htv, hsent] at hd hd'
          obtain ⟨d, hd, hlo⟩ := hd
          obtain ⟨d', hd', hlo'⟩ := hd'
          obtain rfl : recv.getUsecs - sent.getUsecs = d := Option.some.inj hd
          obtain rfl : (recv.offset k).getUsecs - sent.getUsecs = d' := Option.some.inj hd'
          obtain ⟨hcap, hcap'⟩ := hboth recv htv
          have hcapSent : sent.Captured := by
            apply hr.captured
            obtain ⟨p, hp, rfl⟩ := Option.map_eq_some_iff.mp hsent
            exact List.mem_map_of_mem (List.mem_of_getElem? hp)
          -- the difference is not negative, so borrow and division round the same way
          have hmillis : ByteRange.recvMillis (recv.negSub sent) =
              (recv.getUsecs - sent.getUsecs) / 1000 := recvMillis_negSub hcap hcapSent (by omega)
          have hmillis' : ByteRange.recvMillis ((recv.offset k).negSub sent) =
              (recv.getUsecs - sent.getUsecs) / 1000 + k := by
            rw [recvMillis_negSub hcap' hcapSent (by omega), Timeval.getUsecs_offset]
            omega
          rw [Timeval.getUsecs_offset] at hlo'
          refine ⟨(recv.getUsecs - sent.getUsecs) / 1000, ?_, ?_, by omega, ?_, by omega, ?_⟩
          · show Except.ok (ByteRange.recvMillis (recv.negSub sent)) = _
            rw [hmillis]
          · show Except.ok (ByteRange.recvMillis ((recv.offset k).negSub sent)) = _
            rw [hmillis']
          · obtain ⟨-, hb, -, hu⟩ := hcap
            obtain ⟨hs, -, hsu, -⟩ := hcapSent
            unfold longMax Timeval.getUsecs
            omega
          · obtain ⟨-, hb, -, hu⟩ := hcap'
            obtain ⟨hs, -, hsu, -⟩ := hcapSent
            have heq := Timeval.getUsecs_offset k recv
            unfold Timeval.getUsecs at heq ⊢
            unfold longMax
            omega

end Diffs

/-! ## The three loops -/

/-- The map's entries by that clock. -/
def offsetEntries (k : ℤ) (l : List Entry) : List Entry :=
  l.map fun en => (en.1, en.2.atClock (Timeval.offset k))

/-- A difference that is positive by both clocks, or none. -/
structure Measured (k : ℤ) (d : DiffRange) : Prop where
  sendTime : ∃ t, d.range.getSendTime = .ok t
  received : d.range.received = true →
    0 < d.diff ∧ d.diff < longMax ∧ 0 < d.diff + k ∧ d.diff + k < longMax
  missing : d.range.received = false → d.diff = 0

section Loops

variable {k : ℤ} {transport : Bool} {l : List Entry} {ds : List DiffRange}

theorem registerRecvDiffs_offset {last : Option Timeval}
    (hl : ∀ en ∈ l, Clocked (CapturedByBoth k) en.2) (hlast : ∀ tv ∈ last, CapturedByBoth k tv)
    (hd : Delayed transport last l)
    (hd' : Delayed transport (last.map (Timeval.offset k)) (offsetEntries k l)) :
    ∃ ds, registerRecvDiffs transport last l = .ok ds ∧
      registerRecvDiffs transport (last.map (Timeval.offset k)) (offsetEntries k l) =
        .ok (ds.map (DiffRange.offset k)) ∧
      (∀ d ∈ ds, Measured k d) ∧
      ds.map (fun d => d.range.received) = l.map fun en => en.2.received := by
  -- over the map; `last` carries the time of the last application layer receipt
  induction l generalizing last with
  | nil => exact ⟨[], rfl, rfl, fun d hd => (nomatch hd), rfl⟩
  | cons en l ih =>
      obtain ⟨key, r⟩ := en
      obtain ⟨hr, hl⟩ := List.forall_mem_cons.mp hl
      have hclocked : Clocked (CapturedByBoth k) r := hr
      have hentries : offsetEntries k ((key, r) :: l) =
          (key, r.atClock (Timeval.offset k)) :: offsetEntries k l := rfl
      have hsame : (r.atClock (Timeval.offset k)).received = r.received := rfl
      rw [hentries] at hd' ⊢
      rw [Delayed] at hd hd'
      rw [registerRecvDiffs, registerRecvDiffs]
      rw [hsame] at hd' ⊢
      by_cases hrec : r.received = true
      · rw [if_pos hrec] at hd hd' ⊢
        rw [if_pos hrec]
        obtain ⟨hdelay, hd⟩ := hd
        obtain ⟨hdelay', hd'⟩ := hd'
        have hlast₁ : ∀ tv ∈ lastAppLayer transport last r, CapturedByBoth k tv :=
          forall_lastAppLayer hclocked.received hlast
        rw [lastAppLayer_atClock] at hd' hdelay' ⊢
        rw [matchReceivedType_atClock] at hdelay' ⊢
        have hclocked₁ : Clocked (CapturedByBoth k) r.matchReceivedType.1 :=
          hclocked.congr (matchReceivedType_blind (fun _ _ _ _ => rfl) r)
        obtain ⟨diff, hcalc, hcalc', hbounds⟩ :=
          calculateRecvDiff_offset hclocked₁ hlast₁ hdelay hdelay'
        obtain ⟨ds, hds, hds', hmeasured, hreceived⟩ := ih hl hlast₁ hd hd'
        have hrec₁ : r.matchReceivedType.1.received = true := by
          rw [received_matchReceivedType, hrec]
        refine ⟨⟨r.matchReceivedType.1, diff⟩ :: ds, ?_, ?_, ?_, ?_⟩
        · dsimp only
          rw [hcalc, Run.ok_bind, hds]
          rfl
        · dsimp only
          rw [hcalc', Run.ok_bind, hds', Run.ok_bind, List.map_cons]
          show Except.ok _ = Except.ok _
          congr 2
          unfold DiffRange.offset
          dsimp only
          rw [if_pos hrec₁]
        · rw [List.forall_mem_cons]
          refine ⟨⟨hclocked₁.exists_getSendTime, fun _ => hbounds, fun hnot => ?_⟩, hmeasured⟩
          rw [show (DiffRange.mk r.matchReceivedType.1 diff).range.received =
            r.matchReceivedType.1.received from rfl, hrec₁] at hnot
          cases hnot
        · rw [List.map_cons, List.map_cons, hreceived]
          show r.matchReceivedType.1.received :: _ = r.received :: _
          rw [received_matchReceivedType]
      · -- a range that was not received keeps a difference of zero by both clocks
        have hnot : r.received = false := by simpa using hrec
        rw [if_neg hrec] at hd hd' ⊢
        rw [if_neg hrec]
        obtain ⟨ds, hds, hds', hmeasured, hreceived⟩ := ih hl hlast hd hd'
        refine ⟨⟨r, 0⟩ :: ds, ?_, ?_, ?_, ?_⟩
        · rw [hds]
          rfl
        · rw [hds', Run.ok_bind, List.map_cons]
          show Except.ok _ = Except.ok _
          congr 2
          unfold DiffRange.offset
          dsimp only
          rw [if_neg hrec]
        · rw [List.forall_mem_cons]
          refine ⟨⟨hclocked.exists_getSendTime, fun hyes => absurd hyes hrec, fun _ => rfl⟩,
            hmeasured⟩
        · rw [List.map_cons, List.map_cons, hreceived]

theorem getSendTime_offset (k : ℤ) (d : DiffRange) :
    (d.offset k).range.getSendTime = d.range.getSendTime := rfl

/-- Two scans are where they started, or at the same range. -/
def SameLeast (k : ℤ) (least least' : LeastDiff) : Prop :=
  least = {} ∧ least' = {} ∨ least'.diff = least.diff + k ∧ least'.sendTime = least.sendTime

theorem leastDiff_offset {skipZero : Bool} {least least' : LeastDiff}
    (hds : ∀ d ∈ ds, Measured k d)
    (hskip : skipZero = true ∨ ∀ d ∈ ds, d.range.received = true)
    (hsame : SameLeast k least least') :
    ∃ out out', leastDiff skipZero least ds = .ok out ∧
      leastDiff skipZero least' (ds.map (DiffRange.offset k)) = .ok out' ∧
      SameLeast k out out' := by
  induction ds generalizing least least' with
  | nil => exact ⟨least, least', rfl, rfl, hsame⟩
  | cons d ds ih =>
      obtain ⟨hd, hds⟩ := List.forall_mem_cons.mp hds
      have hskip' : skipZero = true ∨ ∀ d ∈ ds, d.range.received = true :=
        hskip.imp_right fun h => (List.forall_mem_cons.mp h).2
      rw [List.map_cons, leastDiff, leastDiff]
      cases hrec : d.range.received with
      | true =>
          obtain ⟨hpos, hlong, hpos', hlong'⟩ := hd.received hrec
          have hdiff : (d.offset k).diff = d.diff + k := by
            show (if d.range.received = true then d.diff + k else d.diff) = _
            rw [if_pos hrec]
          -- both scans start at `longMax`, so the first received range lowers both of them
          have hiff : (d.offset k).diff < least'.diff ↔ d.diff < least.diff := by
            rw [hdiff]
            rcases hsame with ⟨rfl, rfl⟩ | ⟨hdiffs, -⟩
            · exact iff_of_true hlong' hlong
            · omega
          have hzero : ¬(skipZero = true ∧ d.diff = 0) := fun h => hpos.ne' h.2
          have hzero' : ¬(skipZero = true ∧ (d.offset k).diff = 0) := by
            rw [hdiff]
            exact fun h => hpos'.ne' h.2
          obtain ⟨t, ht⟩ := hd.sendTime
          by_cases hlt : d.diff < least.diff
          · rw [if_pos ⟨hlt, hzero⟩, if_pos ⟨hiff.mpr hlt, hzero'⟩, getSendTime_offset, ht,
              Run.ok_bind, Run.ok_bind]
            apply ih hds hskip'
            exact .inr ⟨hdiff, rfl⟩
          · rw [if_neg fun h => hlt h.1, if_neg fun h => hlt (hiff.mp h.1)]
            exact ih hds hskip' hsame
      | false =>
          -- only the scan that skips zero differences may meet a range that was not received
          have hyes : skipZero = true := by
            rcases hskip with hskip | hall
            · exact hskip
            · rw [(List.forall_mem_cons.mp hall).1] at hrec
              cases hrec
          have hdiff : d.diff = 0 := hd.missing hrec
          have hdiff' : (d.offset k).diff = 0 := by
            show (if d.range.received = true then d.diff + k else d.diff) = 0
            rw [hrec]
            exact hdiff
          rw [if_neg fun h => h.2 ⟨hyes, hdiff⟩, if_neg fun h => h.2 ⟨hyes, hdiff'⟩]
          exact ih hds hskip' hsame

/-- The second scan passes over ranges that were not received. -/
theorem leastDiff_missing {least : LeastDiff} (hds : ∀ d ∈ ds, d.diff = 0) :
    leastDiff true least ds = .ok least := by
  induction ds with
  | nil => rfl
  | cons d ds ih =>
      obtain ⟨hd, hds⟩ := List.forall_mem_cons.mp hds
      rw [leastDiff, if_neg fun h => h.2 ⟨rfl, hd⟩]
      exact ih hds

theorem leastDiff_ok {skipZero : Bool} {least : LeastDiff}
    (hds : ∀ d ∈ ds, ∃ t, d.range.getSendTime = .ok t) :
    ∃ out, leastDiff skipZero least ds = .ok out := by
  induction ds generalizing least with
  | nil => exact ⟨least, rfl⟩
  | cons d ds ih =>
      obtain ⟨⟨t, ht⟩, hds⟩ := List.forall_mem_cons.mp hds
      rw [leastDiff]
      split
      · rw [ht, Run.ok_bind]
        exact ih hds
      · exact ih hds

theorem driftBetween_offset {start start' stop stop' : LeastDiff} (hstart : SameLeast k start start')
    (hstop : SameLeast k stop stop') : driftBetween start' stop' = driftBetween start stop := by
  have hzero : ({} : LeastDiff).sendTime = Timeval.zero := rfl
  have hstops : stop'.sendTime = stop.sendTime := by
    rcases hstop with ⟨rfl, rfl⟩ | ⟨-, h⟩
    · rfl
    · exact h
  have hstarts : start'.sendTime = start.sendTime := by
    rcases hstart with ⟨rfl, rfl⟩ | ⟨-, h⟩
    · rfl
    · exact h
  unfold driftBetween driftDuration
  rw [hstops, hstarts]
  by_cases hset : stop.sendTime = Timeval.zero ∨ start.sendTime = Timeval.zero
  · rw [if_pos hset, if_pos hset]
  · rw [if_neg hset, if_neg hset]
    rcases hstop with ⟨rfl, -⟩ | ⟨hstop, -⟩
    · exact absurd (.inl hzero) hset
    rcases hstart with ⟨rfl, -⟩ | ⟨hstart, -⟩
    · exact absurd (.inr hzero) hset
    rw [hstop, hstart, add_sub_add_right_eq_sub]

/-- The drift is the same by both clocks, if the first scan meets no range that was not received, or
the second one no range that was. -/
theorem calculateClockDrift_offset (hds : ∀ d ∈ ds, Measured k d)
    (hscan : (∃ d ∈ ds.reverse.take (scanned ds.length), d.range.received = true) →
      ∀ d ∈ ds.take (scanned ds.length), d.range.received = true) :
    ∃ drift, calculateClockDrift ds = .ok drift ∧
      calculateClockDrift (ds.map (DiffRange.offset k)) = .ok drift := by
  have hnew : SameLeast k {} {} := .inl ⟨rfl, rfl⟩
  have hfront : ∀ d ∈ ds.take (scanned ds.length), Measured k d :=
    fun d hd => hds d (List.mem_of_mem_take hd)
  have hback : ∀ d ∈ ds.reverse.take (scanned ds.length), Measured k d :=
    fun d hd => hds d (List.mem_reverse.mp (List.mem_of_mem_take hd))
  obtain ⟨stop, stop', hstop, hstop', hstops⟩ := leastDiff_offset hback (.inl rfl) hnew
  unfold calculateClockDrift
  dsimp only
  rw [List.length_map, ← List.map_take, ← List.map_reverse, ← List.map_take, hstop, hstop']
  by_cases hany : ∃ d ∈ ds.reverse.take (scanned ds.length), d.range.received = true
  · have hall : false = true ∨ ∀ d ∈ ds.take (scanned ds.length), d.range.received = true :=
      .inr (hscan hany)
    obtain ⟨start, start', hstart, hstart', hstarts⟩ := leastDiff_offset hfront hall hnew
    refine ⟨driftBetween start stop, ?_, ?_⟩
    · rw [hstart]
      rfl
    · rw [hstart']
      show Except.ok (driftBetween start' stop') = _
      rw [driftBetween_offset hstarts hstops]
  · -- the second scan finds nothing, and the drift is zero
    have hzero : ∀ d ∈ ds.reverse.take (scanned ds.length), d.diff = 0 := by
      intro d hd
      apply (hback d hd).missing
      cases hrec : d.range.received with
      | false => rfl
      | true => exact absurd ⟨d, hd, hrec⟩ hany
    have hnone : stop = {} := by
      rw [leastDiff_missing hzero] at hstop
      exact (Except.ok.inj hstop).symm
    have hnone' : stop' = {} := by
      rcases hstops with ⟨-, h⟩ | ⟨hdiff, hsent⟩
      · exact h
      · have hmissing : leastDiff true {} ((ds.reverse.take (scanned ds.length)).map
            (DiffRange.offset k)) = .ok {} := by
          apply leastDiff_missing
          intro d' hd'
          obtain ⟨d, hd, rfl⟩ := List.mem_map.mp hd'
          show (if d.range.received = true then d.diff + k else d.diff) = 0
          rw [if_neg fun h => hany ⟨d, hd, h⟩]
          exact hzero d hd
        rw [hmissing] at hstop'
        exact (Except.ok.inj hstop').symm
    obtain ⟨start, hstart⟩ : ∃ out, leastDiff false {} (ds.take (scanned ds.length)) = .ok out :=
      leastDiff_ok fun d hd => (hfront d hd).sendTime
    obtain ⟨start', hstart'⟩ : ∃ out, leastDiff false {}
        ((ds.take (scanned ds.length)).map (DiffRange.offset k)) = .ok out := by
      apply leastDiff_ok
      intro d' hd'
      obtain ⟨d, hd, rfl⟩ := List.mem_map.mp hd'
      exact (hfront d hd).sendTime
    refine ⟨0, ?_, ?_⟩
    · rw [hstart, hnone]
      show Except.ok (driftBetween start {}) = _
      unfold driftBetween
      rw [if_pos (.inl rfl)]
    · rw [hstart', hnone']
      show Except.ok (driftBetween start' {}) = _
      unfold driftBetween
      rw [if_pos (.inl rfl)]

/-- The corrected difference of a range is a `long` and not negative. -/
def ahead (drift : ℚ) (first : ByteRange) (d : DiffRange) : Bool :=
  match compensated drift first d with
  | .ok diff => decide (0 ≤ diff ∧ diff < longMax)
  | .error _ => false

theorem exists_of_ahead {drift : ℚ} {first : ByteRange} {d : DiffRange}
    (h : ahead drift first d = true) :
    ∃ q, compensated drift first d = .ok q ∧ 0 ≤ q ∧ q < longMax := by
  unfold ahead at h
  cases hq : compensated drift first d with
  | error err =>
      rw [hq] at h
      cases h
  | ok q =>
      rw [hq] at h
      exact ⟨q, rfl, of_decide_eq_true h⟩

theorem compensated_offset {drift q : ℚ} {first : ByteRange} {d : DiffRange}
    (hrec : d.range.received = true) (h : compensated drift first d = .ok q) :
    compensated drift (first.atClock (Timeval.offset k)) (d.offset k) = .ok (q + k) := by
  obtain ⟨t, ht, hq⟩ := Run.exists_of_bind_ok h
  obtain rfl : (d.diff : ℚ) - drift * t = q := Except.ok.inj hq
  have ht' : getTimeInterval (first.atClock (Timeval.offset k)) (d.offset k).range = .ok t := ht
  have hdiff : (d.offset k).diff = d.diff + k := by
    show (if d.range.received = true then d.diff + k else d.diff) = _
    rw [if_pos hrec]
  unfold compensated
  rw [ht', Run.ok_bind, hdiff]
  show Except.ok (((d.diff + k : ℤ) : ℚ) - drift * t) = _
  congr 1
  push_cast
  ring

theorem doDriftCompensation_offset {drift : ℚ} {first : ByteRange} {lowest lowest' : ℤ}
    (hds : ∀ d ∈ ds, Measured k d)
    (hahead : ∀ d ∈ ds, d.range.received = true → ahead drift first d = true ∧
      ahead drift (first.atClock (Timeval.offset k)) (d.offset k) = true)
    (hlow : lowest = longMax ∧ lowest' = longMax ∨ lowest' = lowest + k) :
    ∃ out low', doDriftCompensation drift first lowest ds = .ok out ∧
      doDriftCompensation drift (first.atClock (Timeval.offset k)) lowest'
        (ds.map (DiffRange.offset k)) = .ok (out.1.map (DiffRange.offset k), low') ∧
      out.1.map DiffRange.range = ds.map DiffRange.range ∧
      ((lowest' = lowest + k ∨ ∃ d ∈ ds, d.range.received = true) → low' = out.2 + k) := by
  induction ds generalizing lowest lowest' with
  | nil =>
      refine ⟨([], lowest), lowest', rfl, rfl, rfl, fun h => ?_⟩
      rcases h with h | ⟨d, hd, -⟩
      · exact h
      · cases hd
  | cons d ds ih =>
      obtain ⟨hd, hds⟩ := List.forall_mem_cons.mp hds
      obtain ⟨hthis, hahead⟩ := List.forall_mem_cons.mp hahead
      rw [List.map_cons, doDriftCompensation, doDriftCompensation]
      cases hrec : d.range.received with
      | false =>
          -- a difference of zero is left alone, and takes no part in the lowest one
          have hdiff : d.diff = 0 := hd.missing hrec
          have hoffset : (d.offset k).diff = 0 := by
            show (if d.range.received = true then d.diff + k else d.diff) = 0
            rw [hrec]
            exact hdiff
          obtain ⟨out, low', hout, hout', hranges, hlow'⟩ := ih hds hahead hlow
          rw [if_neg (by omega), if_neg (by omega), hout, hout']
          refine ⟨(d :: out.1, out.2), low', rfl, rfl, ?_, fun h => hlow' ?_⟩
          · rw [List.map_cons, List.map_cons, hranges]
          · rcases h with h | ⟨d', hd', hrec'⟩
            · exact .inl h
            · rcases List.mem_cons.mp hd' with rfl | hd'
              · rw [hrec] at hrec'
                cases hrec'
              · exact .inr ⟨d', hd', hrec'⟩
      | true =>
          obtain ⟨hpos, -, hpos', -⟩ := hd.received hrec
          have hoffset : (d.offset k).diff = d.diff + k := by
            show (if d.range.received = true then d.diff + k else d.diff) = _
            rw [if_pos hrec]
          obtain ⟨hq, hq'⟩ := hthis hrec
          obtain ⟨q, hcomp, hzero, hlong⟩ := exists_of_ahead hq
          have hcomp' := compensated_offset (k := k) hrec hcomp
          obtain ⟨q', hcomp₁, hzero', hlong'⟩ := exists_of_ahead hq'
          rw [hcomp'] at hcomp₁
          obtain rfl : q + k = q' := Except.ok.inj hcomp₁
          -- both corrected differences are not negative, where truncation is the floor
          have htrunc : truncLong (q + k) = truncLong q + k := truncLong_add hzero hzero'
          -- the two lowest differences stay `k` apart from the first received range on
          have hnext : (if q + k < lowest' then truncLong (q + k) else lowest') =
              (if q < lowest then truncLong q else lowest) + k := by
            rw [htrunc]
            rcases hlow with ⟨rfl, rfl⟩ | rfl
            · rw [if_pos hlong, if_pos hlong']
            · have hiff : q + k < ((lowest + k : ℤ) : ℚ) ↔ q < lowest := by
                push_cast
                exact add_lt_add_iff_right _
              rw [if_congr hiff rfl rfl]
              split_ifs <;> rfl
          obtain ⟨out, low', hout, hout', hranges, hlow'⟩ := ih hds hahead (.inr hnext)
          have hrange : (⟨(d.offset k).range, truncLong (q + k)⟩ : DiffRange) =
              DiffRange.offset k ⟨d.range, truncLong q⟩ := by
            unfold DiffRange.offset
            dsimp only
            rw [if_pos hrec, htrunc]
          rw [if_pos hpos, if_pos (by omega), hcomp, hcomp', Run.ok_bind, Run.ok_bind, hout, hout',
            Run.ok_bind, Run.ok_bind, hrange]
          refine ⟨(⟨d.range, truncLong q⟩ :: out.1, out.2), low', rfl, rfl, ?_,
            fun _ => hlow' (.inl hnext)⟩
          rw [List.map_cons, List.map_cons, hranges]

end Loops

/-! ## The whole call -/

/-- The division in `calculateClockDrift` has a result. -/
def hasDrift (ranges : List DiffRange) : Bool :=
  match leastDiff false {} (ranges.take (scanned ranges.length)),
    leastDiff true {} (ranges.reverse.take (scanned ranges.length)) with
  | .ok start, .ok stop =>
      decide (stop.sendTime = Timeval.zero ∨ start.sendTime = Timeval.zero ∨
        driftDuration start stop ≠ 0)
  | _, _ => false

/-- The correction leaves every received range of the analysed interval a difference that is not
negative. -/
def staysAhead (start count : ℕ) (ranges : List DiffRange) : Bool :=
  match calculateClockDrift ranges, ranges with
  | .ok drift, first :: _ =>
      ((ranges.drop start).take count).all fun d =>
        !d.range.received || ahead drift first.range d
  | _, _ => true

def driftFits (transport : Bool) (start count : ℕ) (l : List Entry) : Bool :=
  match registerRecvDiffs transport none l with
  | .ok ranges => hasDrift ranges && staysAhead start count ranges
  | .error _ => true

/-- Every received range is at least a millisecond behind its transmission, and stays behind it
without the drift; the scans for the drift do not take a range that was not received for one; and
`lowestRecvDiff` is that of a received range. -/
structure WellTimed (transport : Bool) (start count : ℕ) (l : List Entry) : Prop where
  delayed : Delayed transport none l
  scans : (∃ en ∈ l.reverse.take (scanned l.length), en.2.received = true) →
    ∀ en ∈ l.take (scanned l.length), en.2.received = true
  analysed : (∃ en ∈ l, en.2.received = true) →
    ∃ en ∈ (l.drop start).take count, en.2.received = true
  drift : driftFits transport start count l = true

instance (transport : Bool) (start count : ℕ) (l : List Entry) :
    Decidable (WellTimed transport start count l) :=
  decidable_of_iff (Delayed transport none l ∧
      ((∃ en ∈ l.reverse.take (scanned l.length), en.2.received = true) →
        ∀ en ∈ l.take (scanned l.length), en.2.received = true) ∧
      ((∃ en ∈ l, en.2.received = true) →
        ∃ en ∈ (l.drop start).take count, en.2.received = true) ∧
      driftFits transport start count l = true)
    ⟨fun h => ⟨h.1, h.2.1, h.2.2.1, h.2.2.2⟩,
      fun h => ⟨h.delayed, h.scans, h.analysed, h.drift⟩⟩

theorem WellTimed.staysAhead {transport : Bool} {start count : ℕ} {l : List Entry}
    {ranges : List DiffRange} (h : WellTimed transport start count l)
    (hranges : registerRecvDiffs transport none l = .ok ranges) :
    staysAhead start count ranges = true := by
  have hfits := h.drift
  unfold driftFits at hfits
  rw [hranges] at hfits
  exact (Bool.and_eq_true_iff.mp hfits).2

section Call

variable {k : ℤ} {transport : Bool} {start count : ℕ} {l : List Entry}

theorem relative_offset (k : ℤ) (ds : List DiffRange) (lowest : ℤ) :
    (⟨ds.map (DiffRange.offset k), lowest + k⟩ : LatencyVariation).relative =
      (⟨ds, lowest⟩ : LatencyVariation).relative := by
  unfold LatencyVariation.relative
  dsimp only
  rw [List.filter_map, List.map_map]
  have hfilter : ((fun d : DiffRange => d.range.received) ∘ DiffRange.offset k) =
      fun d => d.range.received := rfl
  rw [hfilter]
  apply List.map_congr_left
  intro d hd
  have hrec : d.range.received = true := (List.mem_filter.mp hd).2
  show (d.range.startSeq,
    (if d.range.received = true then d.diff + k else d.diff) - (lowest + k)) = _
  rw [if_pos hrec, add_sub_add_right_eq_sub]

theorem relative_missing {v : LatencyVariation} (h : ∀ d ∈ v.ranges, d.range.received = false) :
    v.relative = [] := by
  have hnone : v.ranges.filter (fun d => d.range.received) = [] := by
    rw [List.filter_eq_nil_iff]
    intro d hd
    rw [h d hd]
    simp
  unfold LatencyVariation.relative
  rw [hnone]
  rfl

theorem exists_received_iff {ds : List DiffRange} {l : List Entry}
    (h : ds.map (fun d => d.range.received) = l.map fun en => en.2.received) :
    (∃ d ∈ ds, d.range.received = true) ↔ ∃ en ∈ l, en.2.received = true := by
  have hds : (∃ d ∈ ds, d.range.received = true) ↔
      true ∈ ds.map fun d => d.range.received := by simp
  have hl : (∃ en ∈ l, en.2.received = true) ↔ true ∈ l.map fun en => en.2.received := by simp
  rw [hds, hl, h]

theorem ahead_of_staysAhead {ds : List DiffRange} {drift : ℚ} {first : DiffRange}
    {rest : List DiffRange} (hds : ds = first :: rest) (hdrift : calculateClockDrift ds = .ok drift)
    (h : staysAhead start count ds = true) :
    ∀ d ∈ (ds.drop start).take count, d.range.received = true →
      ahead drift first.range d = true := by
  unfold staysAhead at h
  rw [hdrift, hds] at h
  dsimp only at h
  rw [← hds] at h
  intro d hd hrec
  have hall := List.all_eq_true.mp h d hd
  rw [hrec] at hall
  exact hall

/-- The call on two maps that differ in the clock of the receive times. -/
theorem calculateLatencyVariation_offset (hl : ∀ en ∈ l, Clocked (CapturedByBoth k) en.2)
    (h : WellTimed transport start count l)
    (h' : WellTimed transport start count (offsetEntries k l)) :
    ∃ v v', calculateLatencyVariation transport start count l = .ok v ∧
      calculateLatencyVariation transport start count (offsetEntries k l) = .ok v' ∧
      v'.relative = v.relative := by
  have hnone : ∀ tv ∈ (none : Option Timeval), CapturedByBoth k tv := by simp
  obtain ⟨ds, hds, hds', hmeasured, hreceived⟩ :=
    registerRecvDiffs_offset hl hnone h.delayed h'.delayed
  have hlength : ds.length = l.length := by
    have := congrArg List.length hreceived
    simpa using this
  -- the scans look at flags only, so the condition on the map gives the one on the differences
  have hscan : (∃ d ∈ ds.reverse.take (scanned ds.length), d.range.received = true) →
      ∀ d ∈ ds.take (scanned ds.length), d.range.received = true := by
    rw [hlength]
    intro hany d hd
    have hback : (ds.reverse.take (scanned l.length)).map (fun d => d.range.received) =
        (l.reverse.take (scanned l.length)).map fun en => en.2.received := by
      rw [List.map_take, List.map_take, List.map_reverse, List.map_reverse, hreceived]
    have hall := h.scans ((exists_received_iff hback).mp hany)
    have hmem : d.range.received ∈ (ds.take (scanned l.length)).map fun d => d.range.received :=
      List.mem_map_of_mem hd
    rw [List.map_take, hreceived, ← List.map_take] at hmem
    obtain ⟨en, hen, hrec⟩ := List.mem_map.mp hmem
    rw [← hrec]
    exact hall en hen
  obtain ⟨drift, hdrift, hdrift'⟩ := calculateClockDrift_offset hmeasured hscan
  have hahead := h.staysAhead hds
  have hahead' := h'.staysAhead hds'
  unfold calculateLatencyVariation
  rw [show (none : Option Timeval).map (Timeval.offset k) = none from rfl] at hds'
  rw [hds, hds', Run.ok_bind, Run.ok_bind, hdrift, hdrift', Run.ok_bind, Run.ok_bind]
  cases hcons : ds with
  | nil => exact ⟨⟨[], longMax⟩, ⟨[], longMax⟩, rfl, rfl, rfl⟩
  | cons first rest =>
      have hcons' : ds.map (DiffRange.offset k) = first.offset k :: rest.map (DiffRange.offset k) := by
        rw [hcons, List.map_cons]
      have hsub : ∀ d ∈ (ds.drop start).take count, d ∈ ds := fun d hd =>
        List.mem_of_mem_drop (List.mem_of_mem_take hd)
      -- the analysed part: what is ahead of its send time by one clock is so by the other
      have hboth : ∀ d ∈ (ds.drop start).take count, d.range.received = true →
          ahead drift first.range d = true ∧
            ahead drift (first.range.atClock (Timeval.offset k)) (d.offset k) = true := by
        intro d hd hrec
        refine ⟨ahead_of_staysAhead hcons hdrift hahead d hd hrec, ?_⟩
        have hmem : d.offset k ∈ ((ds.map (DiffRange.offset k)).drop start).take count := by
          rw [← List.map_drop, ← List.map_take]
          exact List.mem_map_of_mem hd
        exact ahead_of_staysAhead hcons' hdrift' hahead' _ hmem hrec
      obtain ⟨out, low', hout, hout', hranges, hlow⟩ :=
        doDriftCompensation_offset (fun d hd => hmeasured d (hsub d hd)) hboth (.inl ⟨rfl, rfl⟩)
      rw [List.map_take, List.map_drop] at hout'
      refine ⟨⟨ds.take start ++ out.1 ++ (ds.drop start).drop count, out.2⟩,
        ⟨(ds.take start ++ out.1 ++ (ds.drop start).drop count).map (DiffRange.offset k), low'⟩,
        ?_, ?_, ?_⟩
      · dsimp only
        rw [← hcons, hout]
        rfl
      · rw [← hcons, hcons']
        dsimp only
        rw [← hcons', show (first.offset k).range = first.range.atClock (Timeval.offset k) from rfl,
          hout', Run.ok_bind]
        show Except.ok _ = Except.ok _
        rw [List.map_append, List.map_append, List.map_take, List.map_drop, List.map_drop]
      · by_cases hany : ∃ en ∈ l, en.2.received = true
        · have hinside : ((ds.drop start).take count).map (fun d => d.range.received) =
              ((l.drop start).take count).map fun en => en.2.received := by
            rw [List.map_take, List.map_take, List.map_drop, List.map_drop, hreceived]
          rw [hlow (.inr ((exists_received_iff hinside).mpr (h.analysed hany)))]
          exact relative_offset k _ _
        · -- nothing was received, and there is nothing to compare
          have hnone : ∀ d ∈ ds, d.range.received = false := by
            intro d hd
            cases hrec : d.range.received with
            | false => rfl
            | true => exact absurd ((exists_received_iff hreceived).mp ⟨d, hd, hrec⟩) hany
          have hrest : ∀ d ∈ ds.take start ++ out.1 ++ (ds.drop start).drop count,
              d.range.received = false := by
            intro d hd
            rcases List.mem_append.mp hd with hd | hd
            · rcases List.mem_append.mp hd with hd | hd
              · exact hnone d (List.mem_of_mem_take hd)
              · have hrange : d.range ∈ out.1.map DiffRange.range := List.mem_map_of_mem hd
                rw [hranges] at hrange
                obtain ⟨d₀, hd₀, heq⟩ := List.mem_map.mp hrange
                rw [← heq]
                exact hnone d₀ (hsub d₀ hd₀)
            · exact hnone d (List.mem_of_mem_drop (List.mem_of_mem_drop hd))
          rw [relative_missing (v := ⟨_, out.2⟩) hrest, relative_missing]
          intro d' hd'
          obtain ⟨d, hd, rfl⟩ := List.mem_map.mp hd'
          exact hrest d hd

end Call

/-- In two runs with the same sender trace, and receiver traces that differ by an offset of `k`
milliseconds between their capture times, the differences relative to the lowest one are the same
for every received range, when the ranges are well timed in both of them. -/
theorem calculateLatencyVariation_run_offset {firstSeq : ℕ} {evs : List SenderEvent}
    {sds : List SendData} {rm rm₁ : RangeManager} {k : ℤ} {transport : Bool} {start count : ℕ}
    (hevs : ∀ ev ∈ evs, ev.Sized ∧ ev.Captured)
    (hsent : Run.run senderStep (new firstSeq) evs = .ok rm)
    (hsds : ∀ sd ∈ sds, sd.data.seq ≤ sd.data.endSeq ∧ CapturedByBoth k sd.data.tstampPcap)
    (howned : Run.Steps insertReceivedRange ReceivesOwned rm sds)
    (hrecv : Run.run insertReceivedRange rm sds = .ok rm₁) :
    ∃ rm₂, Run.run insertReceivedRange rm (sds.map (SendData.atClock (Timeval.offset k))) =
        .ok rm₂ ∧
      (WellTimed transport start count rm₁.ranges.entries →
        WellTimed transport start count rm₂.ranges.entries →
        ∃ v₁ v₂, calculateLatencyVariation transport start count rm₁.ranges.entries = .ok v₁ ∧
          calculateLatencyVariation transport start count rm₂.ranges.entries = .ok v₂ ∧
          v₂.relative = v₁.relative) := by
  have hclocked := senderStep_run_clocked hevs hsent
  have hinv : ClockedMap (CapturedByBoth k) rm := hclocked.mono fun _ h => h.elim
  obtain ⟨hinv₁, hrun⟩ :=
    insertReceivedRange_run_atClock (g := Timeval.offset k) hinv hsds howned hrecv
  rw [hclocked.atClock_eq] at hrun
  refine ⟨rm₁.atClock (Timeval.offset k), hrun, fun h₁ h₂ => ?_⟩
  exact calculateLatencyVariation_offset hinv₁.times h₁ h₂

/-! ## Two ranges of ten bytes -/

/-- Ten bytes sent at second `t`. -/
def sentTen (t : ℤ) (seq : ℕ) : SenderEvent :=
  .sent
    { data :=
        { seq := seq, endSeq := seq + 10, payloadSize := 10, tstampPcap := ⟨t, 0⟩, tstampTcp := 7 } }

/-- Ten bytes received `usec` microseconds after second `t`. -/
def recvTen (t usec : ℤ) (seq : ℕ) : SendData :=
  { data :=
      { seq := seq, endSeq := seq + 10, payloadSize := 10, tstampPcap := ⟨t, usec⟩
        tstampTcp := 7 } }

/-- A hundred seconds apart. -/
def twoTens : List SenderEvent := [sentTen 100 0, sentTen 200 10]

/-- Received after 10 and after 35 milliseconds. -/
def twoReceived : List SendData := [recvTen 100 10000 0, recvTen 200 35000 10]

/-- The relative differences after a receiver trace. -/
def relativeAfter (transport : Bool) (start count : ℕ) (rm : RangeManager) (sds : List SendData) :
    Except Abort (List (ℕ × ℤ)) := do
  let rm' ← Run.run insertReceivedRange rm sds
  let v ← calculateLatencyVariation transport start count rm'.ranges.entries
  return v.relative

theorem exists_of_relativeAfter {transport : Bool} {start count : ℕ} {rm : RangeManager}
    {sds : List SendData} {rel : List (ℕ × ℤ)}
    (h : (relativeAfter transport start count rm sds).toOption = some rel) :
    ∃ rm' v, Run.run insertReceivedRange rm sds = .ok rm' ∧
      calculateLatencyVariation transport start count rm'.ranges.entries = .ok v ∧
      v.relative = rel := by
  cases hrel : relativeAfter transport start count rm sds with
  | error err =>
      rw [hrel] at h
      cases h
  | ok rel' =>
      rw [hrel] at h
      obtain rfl : rel' = rel := Option.some.inj h
      obtain ⟨rm', hrun, hrest⟩ := Run.exists_of_bind_ok hrel
      obtain ⟨v, hcall, hv⟩ := Run.exists_of_bind_ok hrest
      exact ⟨rm', v, hrun, hcall, Except.ok.inj hv⟩

theorem calculateLatencyVariation_run_offset_half_second :
    ∃ rm rm₁ rm₂ v₁ v₂, Run.run senderStep (new 0) twoTens = .ok rm ∧
      Run.run insertReceivedRange rm twoReceived = .ok rm₁ ∧
      Run.run insertReceivedRange rm (twoReceived.map (SendData.atClock (Timeval.offset 500))) =
        .ok rm₂ ∧
      calculateLatencyVariation true 0 2 rm₁.ranges.entries = .ok v₁ ∧
      calculateLatencyVariation true 0 2 rm₂.ranges.entries = .ok v₂ ∧
      v₂.relative = v₁.relative := by
  obtain ⟨rm, hsent, hchecks⟩ := Run.exists_of_any_toOption
    (x := Run.run senderStep (new 0) twoTens)
    (p := fun rm => decide (Run.Steps insertReceivedRange ReceivesOwned rm twoReceived) &&
      ((Run.run insertReceivedRange rm twoReceived).toOption.any fun rm₁ : RangeManager =>
        decide (WellTimed true 0 2 rm₁.ranges.entries)) &&
      ((Run.run insertReceivedRange rm
          (twoReceived.map (SendData.atClock (Timeval.offset 500)))).toOption.any
        fun rm₂ : RangeManager => decide (WellTimed true 0 2 rm₂.ranges.entries)))
    (by decide +kernel)
  obtain ⟨hchecks, hsecond⟩ := Bool.and_eq_true_iff.mp hchecks
  obtain ⟨howned, hfirst⟩ := Bool.and_eq_true_iff.mp hchecks
  obtain ⟨rm₁, hrun₁, htimed₁⟩ := Run.exists_of_any_toOption hfirst
  obtain ⟨rm₂, hrun₂, htimed₂⟩ := Run.exists_of_any_toOption hsecond
  obtain ⟨rm₂', hrun₂', hcall⟩ : ∃ rm₂, Run.run insertReceivedRange rm
        (twoReceived.map (SendData.atClock (Timeval.offset 500))) = .ok rm₂ ∧
      (WellTimed true 0 2 rm₁.ranges.entries → WellTimed true 0 2 rm₂.ranges.entries →
        ∃ v₁ v₂, calculateLatencyVariation true 0 2 rm₁.ranges.entries = .ok v₁ ∧
          calculateLatencyVariation true 0 2 rm₂.ranges.entries = .ok v₂ ∧
          v₂.relative = v₁.relative) :=
    calculateLatencyVariation_run_offset (by decide) hsent (by decide) (of_decide_eq_true howned)
      hrun₁
  rw [hrun₂] at hrun₂'
  obtain rfl : rm₂ = rm₂' := Except.ok.inj hrun₂'
  obtain ⟨v₁, v₂, hv₁, hv₂, hsame⟩ :=
    hcall (of_decide_eq_true htimed₁) (of_decide_eq_true htimed₂)
  exact ⟨rm, rm₁, rm₂, v₁, v₂, hsent, hrun₁, hrun₂, hv₁, hv₂, hsame⟩

/-- With the receiver's clock two seconds behind, no difference is positive, and `lowestRecvDiff` is
never set. -/
theorem calculateLatencyVariation_offset_below_zero :
    (∀ sd ∈ twoReceived, CapturedByBoth (-2010) sd.data.tstampPcap) ∧
    ∃ rm rm₁ rm₂ v₁ v₂, Run.run senderStep (new 0) twoTens = .ok rm ∧
      Run.run insertReceivedRange rm twoReceived = .ok rm₁ ∧
      Run.run insertReceivedRange rm
        (twoReceived.map (SendData.atClock (Timeval.offset (-2010)))) = .ok rm₂ ∧
      calculateLatencyVariation true 0 2 rm₁.ranges.entries = .ok v₁ ∧
      calculateLatencyVariation true 0 2 rm₂.ranges.entries = .ok v₂ ∧
      v₁.relative = [(0, 0), (10, 0)] ∧
      v₂.relative = [(0, -2000 - longMax), (10, -1975 - longMax)] ∧
      ¬v₂.relative = v₁.relative := by
  refine ⟨by decide, ?_⟩
  obtain ⟨rm, hsent, hvalues⟩ := Run.exists_of_any_toOption
    (x := Run.run senderStep (new 0) twoTens)
    (p := fun rm => decide
      ((relativeAfter true 0 2 rm twoReceived).toOption = some [(0, 0), (10, 0)] ∧
        (relativeAfter true 0 2 rm
          (twoReceived.map (SendData.atClock (Timeval.offset (-2010))))).toOption =
            some [(0, -2000 - longMax), (10, -1975 - longMax)])) (by decide +kernel)
  obtain ⟨hfirst, hsecond⟩ := of_decide_eq_true hvalues
  obtain ⟨rm₁, v₁, hrun₁, hv₁, hrel₁⟩ := exists_of_relativeAfter hfirst
  obtain ⟨rm₂, v₂, hrun₂, hv₂, hrel₂⟩ := exists_of_relativeAfter hsecond
  refine ⟨rm, rm₁, rm₂, v₁, v₂, hsent, hrun₁, hrun₂, hv₁, hv₂, hrel₁, hrel₂, ?_⟩
  rw [hrel₁, hrel₂]
  decide

end RangeManager

end AnalyseTCP
