import AnalyseTCP.GenStats

/-!
# What `genStats` makes of all ranges

Each analysed range adds to the samples, the records and the two tables in turn, and looks at
nothing that an earlier one has left there.
-/

namespace AnalyseTCP

namespace ByteRange

/-- The latency of a range as a sample; a negative one is converted. -/
def latencySamples (r : ByteRange) : List ℕ :=
  match r.getSendAckTimeDiff with
  | .ok latency => if latency = 0 then [] else [(latency % 2 ^ 64).toNat]
  | .error _ => []

/-- The payload size, for the first transmission and for each retransmission. -/
def payloadSamples (r : ByteRange) : List ℕ :=
  if r.hasPayload then List.replicate (r.packetRetransCount.val + 1) r.originalPayloadSize else []

/-- The loop's body comes to the retransmissions. -/
def countsRetrans (r : ByteRange) : Bool := !r.latencySamples.isEmpty || r.acked

theorem addPayloads_eq_foldl (r : ByteRange) (s : BaseStats) :
    r.addPayloads s = r.payloadSamples.foldl BaseStats.add s := by
  unfold addPayloads payloadSamples
  split
  · rw [List.replicate_succ, List.foldl_cons]
    have hrepeat : ∀ n (t : BaseStats), (List.range n).foldl
        (fun s _ => s.add r.originalPayloadSize) t =
          (List.replicate n r.originalPayloadSize).foldl BaseStats.add t := by
      intro n
      induction n with
      | zero => exact fun _ => rfl
      | succ n ih =>
          intro t
          rw [List.range_succ, List.foldl_append, ih, List.replicate_succ', List.foldl_append]
          rfl
    exact hrepeat _ _
  · rfl

end ByteRange

namespace RangeManager

variable {r : ByteRange} {next : Option ByteRange} {st st' : GenState} {l : List Entry}

/-- One range, for the statistics. -/
def addRange (bs : PacketsStats) (r : ByteRange) (records : List SegmentStats) : PacketsStats :=
  { bs with
    latency := r.latencySamples.foldl BaseStats.add bs.latency
    packetLength := r.payloadSamples.foldl BaseStats.add bs.packetLength
    packetStats := bs.packetStats ++ records
    retrans := if r.countsRetrans then countTo bs.retrans r.packetRetransCount.val else bs.retrans
    dupacks := countTo bs.dupacks r.dupackCount.val }

theorem genRange_ok (h : genRange r next st = .ok st') :
    ∃ diff, r.getSendAckTimeDiff = .ok diff ∧
      st'.bs = addRange st.bs r (sentRecords r next diff (st.flight.enter r) r.sentTstampPcap) := by
  unfold genRange at h
  dsimp only at h
  obtain ⟨st₁, hsent, h⟩ := Run.exists_of_bind_ok h
  obtain ⟨diff, hdiff, h⟩ := Run.exists_of_bind_ok h
  rw [run_genSent_eq hdiff] at hsent
  obtain rfl := Except.ok.inj hsent
  refine ⟨diff, hdiff, ?_⟩
  have hsamples : r.latencySamples = if diff = 0 then [] else [(diff % 2 ^ 64).toNat] := by
    unfold ByteRange.latencySamples
    rw [hdiff]
  unfold addRange ByteRange.countsRetrans
  rw [hsamples, ← r.addPayloads_eq_foldl]
  by_cases hzero : diff = 0
  · rw [if_pos hzero]
    by_cases hacked : r.acked = false
    · rw [if_pos ⟨hzero, hacked⟩] at h
      obtain rfl := Except.ok.inj h
      rw [hacked]
      rfl
    · rw [if_neg fun hboth => hacked hboth.2, if_pos hzero] at h
      obtain rfl := Except.ok.inj h
      rw [Bool.not_eq_false] at hacked
      rw [hacked]
      rfl
  · rw [if_neg fun hboth => hzero hboth.1, if_neg hzero] at h
    obtain rfl := Except.ok.inj h
    rw [if_neg hzero]
    rfl

/-- All analysed ranges, one after the other. -/
theorem genRanges_ok (h : genRanges l st = .ok st') :
    st'.bs.itt = st.bs.itt ∧
      st'.bs.latency =
        (l.flatMap fun en => en.2.latencySamples).foldl BaseStats.add st.bs.latency ∧
      st'.bs.packetLength =
        (l.flatMap fun en => en.2.payloadSamples).foldl BaseStats.add st.bs.packetLength ∧
      st'.bs.retrans = ((l.filter fun en => en.2.countsRetrans).map
        fun en => en.2.packetRetransCount.val).foldl countTo st.bs.retrans ∧
      st'.bs.dupacks = (l.map fun en => en.2.dupackCount.val).foldl countTo st.bs.dupacks := by
  induction l generalizing st with
  | nil =>
      obtain rfl := Except.ok.inj h
      exact ⟨rfl, rfl, rfl, rfl, rfl⟩
  | cons en l ih =>
      rw [genRanges] at h
      obtain ⟨st₁, hfirst, hrest⟩ := Run.exists_of_bind_ok h
      obtain ⟨diff, -, hbs⟩ := genRange_ok hfirst
      obtain ⟨hitt, hlatency, hlength, hretrans, hdupacks⟩ := ih hrest
      rw [hbs] at hitt hlatency hlength hretrans hdupacks
      refine ⟨hitt, ?_, ?_, ?_, hdupacks⟩
      · rw [hlatency, List.flatMap_cons, List.foldl_append]
        rfl
      · rw [hlength, List.flatMap_cons, List.foldl_append]
        rfl
      · rw [hretrans, List.filter_cons]
        unfold addRange
        dsimp only
        split <;> rfl

/-- The same for `genStats` from its beginning on. -/
theorem genSegments_ok {rm : RangeManager} {iv : AnalyseRange} {number : String → ℚ}
    {tokens : List String} (h : rm.genSegments iv (.init number tokens) = .ok st) :
    ∃ analysed, rm.analysedRanges iv = .ok analysed ∧ st.bs.itt = .init number tokens ∧
      st.bs.latency = (analysed.flatMap fun en => en.2.latencySamples).foldl BaseStats.add
        (.init number tokens) ∧
      st.bs.packetLength = (analysed.flatMap fun en => en.2.payloadSamples).foldl BaseStats.add
        (.init number tokens) ∧
      st.bs.retrans = ((analysed.filter fun en => en.2.countsRetrans).map
        fun en => en.2.packetRetransCount.val).foldl countTo [] ∧
      st.bs.dupacks = (analysed.map fun en => en.2.dupackCount.val).foldl countTo [] := by
  obtain ⟨analysed, hanalysed, h⟩ := Run.exists_of_bind_ok h
  exact ⟨analysed, hanalysed, genRanges_ok h⟩

end RangeManager

end AnalyseTCP
