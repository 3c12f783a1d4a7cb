import AnalyseTCP.SentCounts

/-!
# Receive counts

A received segment may start and end anywhere relative to the ranges.  As long as the ranges tile the
interval it falls into, its insertion returns, counts each of its bytes once, and charges the packet
to the range that starts with it.
-/

namespace AnalyseTCP

namespace RangeManager

def recvCount (r : ByteRange) : ℕ := r.dataReceivedCount.total

section Record

variable (seg : DataSeg) (level : ℕ) (r : ByteRange)

theorem recvCount_recordRecv : recvCount (recordRecv seg level r) = recvCount r + 1 :=
  recordRecv_blind seg level r fun _ _ _ _ => rfl

theorem sentCount_recordRecv : sentCount (recordRecv seg level r) = sentCount r :=
  recordRecv_blind seg level r fun _ _ _ _ => rfl

theorem packetReceivedCount_recordRecv :
    (recordRecv seg level r).packetReceivedCount.total =
      r.packetReceivedCount.total + if level = 0 then 1 else 0 :=
  recordRecv_blind seg level r (f := fun r => r.packetReceivedCount.total) fun _ _ _ _ => rfl

/-- The first copy sets the TCP timestamp, later ones keep it. -/
theorem receivedTstampTcp_recordRecv (hseg : seg.tstampTcp ≠ 0)
    (hr : r.dataReceivedCount.val ≠ 0 → r.receivedTstampTcp ≠ 0) :
    (recordRecv seg level r).receivedTstampTcp ≠ 0 := by
  unfold recordRecv ByteRange.increaseReceived
  dsimp only
  split_ifs with hlevel h0 h0
  · exact hseg
  · exact hr h0
  · exact hseg
  · exact hr h0

end Record

theorem countsBytes_recv (seg : DataSeg) : CountsBytes recvCount .recv seg 1 where
  head _ _ := rfl
  tail _ _ := rfl
  finSet r := finSet_blind seg r fun _ _ => rfl
  recordSplit level _ r := recvCount_recordRecv seg level r
  recordFound level _ r := recvCount_recordRecv seg level r
  wholeRange level s r :=
    (wholeRange_blind .recv seg level s r fun _ _ => rfl).trans (recvCount_recordRecv seg level r)
  freshRange h := nomatch h
  reusedRange h := nomatch h

theorem countsBytes_sent_of_recv (seg : DataSeg) : CountsBytes sentCount .recv seg 0 where
  head _ _ := rfl
  tail _ _ := rfl
  finSet r := finSet_blind seg r fun _ _ => rfl
  recordSplit level _ r := sentCount_recordRecv seg level r
  recordFound level _ r := sentCount_recordRecv seg level r
  wholeRange level s r :=
    (wholeRange_blind .recv seg level s r fun _ _ => rfl).trans (sentCount_recordRecv seg level r)
  freshRange h := nomatch h
  reusedRange h := nomatch h

/-! ## One packet, one range -/

/-- The packets charged to the range that starts at `k`. -/
def packetsAt (k : ℕ) (l : List Entry) : ℕ :=
  (l.map fun en => if en.1 = k then en.2.packetReceivedCount.total else 0).sum

section Pass

variable {lastSeq : ℕ} {seg : DataSeg} {level s e : ℕ} {pre post old new : List Entry}
  {next : Option ℕ}

theorem Pass.packetsAt_eq (hpass : Pass lastSeq .recv seg level s e pre post old new next)
    (hnew : new ≠ []) (k : ℕ) :
    packetsAt k (pre ++ new ++ post) =
      packetsAt k (pre ++ old ++ post) + if level = 0 ∧ k = s then 1 else 0 := by
  suffices packetsAt k new = packetsAt k old + if level = 0 ∧ k = s then 1 else 0 by
    simp only [packetsAt, List.map_append, List.sum_append] at this ⊢
    omega
  have hrec := packetReceivedCount_recordRecv seg level
  have hfin : ∀ r, (finSet seg r).packetReceivedCount = r.packetReceivedCount :=
    fun r => finSet_blind seg r fun _ _ => rfl
  -- the piece that starts with the segment is charged; a part cut off behind starts at zero
  cases hpass with
  | missing => exact absurd rfl hnew
  | fresh hitype | reuse r c hitype => cases hitype
  | whole r =>
      have hwhole : (wholeRange .recv seg level s r).packetReceivedCount =
          (recordRecv seg level r).packetReceivedCount :=
        wholeRange_blind .recv seg level s r fun _ _ => rfl
      simp only [packetsAt, List.map_cons, List.map_nil, List.sum_cons, List.sum_nil, hwhole, hrec]
      split_ifs <;> omega
  | span r =>
      simp only [packetsAt, List.map_cons, List.map_nil, List.sum_cons, List.sum_nil, recordFound,
        hrec]
      split_ifs <;> omega
  | front r hend =>
      have htail : (r.tail e).packetReceivedCount.total = 0 := rfl
      have hhead : (r.head e).packetReceivedCount = r.packetReceivedCount := rfl
      simp only [packetsAt, List.map_cons, List.map_nil, List.sum_cons, List.sum_nil, recordFound,
        hrec, htail, hhead]
      split_ifs <;> omega
  | back key r hkey =>
      have htail : (r.tail s).packetReceivedCount.total = 0 := rfl
      have hhead : (r.head s).packetReceivedCount = r.packetReceivedCount := rfl
      simp only [packetsAt, List.map_cons, List.map_nil, List.sum_cons, List.sum_nil, recordSplit,
        hrec, hfin, htail, hhead]
      split_ifs <;> omega
  | beyond key r hkey =>
      have htail : (r.tail s).packetReceivedCount.total = 0 := rfl
      have hhead : (r.head s).packetReceivedCount = r.packetReceivedCount := rfl
      simp only [packetsAt, List.map_cons, List.map_nil, List.sum_cons, List.sum_nil, recordSplit,
        hrec, htail, hhead]
      split_ifs <;> omega
  | middle key r hkey =>
      have htail : ((r.tail s).head e).packetReceivedCount.total = 0 := rfl
      have htail' : ((r.tail s).tail e).packetReceivedCount.total = 0 := rfl
      have hhead : (r.head s).packetReceivedCount = r.packetReceivedCount := rfl
      simp only [packetsAt, List.map_cons, List.map_nil, List.sum_cons, List.sum_nil, recordSplit,
        hrec, hfin, htail, htail', hhead]
      split_ifs <;> omega

end Pass

/-! ## One segment -/

/-- The packets received on the range that starts at `k`, as the program reads them. -/
def packetReceivedAt (rm : RangeManager) (k : ℕ) : ℕ :=
  ((rm.ranges.find? k).map fun r => r.packetReceivedCount.val).getD 0

theorem packetReceivedAt_eq (rm : RangeManager) (k : ℕ) :
    rm.packetReceivedAt k = packetsAt k rm.ranges.entries % 2 ^ 8 := by
  unfold packetReceivedAt packetsAt
  rw [OrdMap.sum_ite_key rm.ranges k fun r => r.packetReceivedCount.total]
  cases rm.ranges.find? k <;> rfl

/-- A map whose ranges with bytes tile `[a, lastSeq)`. -/
structure TilesFrom (a : ℕ) (rm : RangeManager) : Prop where
  wf : WfEntries rm.ranges.entries
  disjoint : rm.ranges.entries.Pairwise fun x y => 0 < x.2.byteCount → 0 < y.2.byteCount →
    x.2.endSeq ≤ y.2.startSeq
  cover : ∀ x, Covered rm.ranges.entries x ↔ a ≤ x ∧ x < rm.lastSeq
  empties : ∀ en ∈ rm.ranges.entries, en.2.byteCount = 0 → en.1 < a ∨ rm.lastSeq ≤ en.1
  stamped : ∀ en ∈ rm.ranges.entries, en.2.dataReceivedCount.val ≠ 0 → en.2.receivedTstampTcp ≠ 0

theorem TilesFrom.separated {a : ℕ} {rm : RangeManager} (h : TilesFrom a rm) :
    Separated rm.ranges.entries := by
  refine (rm.ranges.sorted.and h.disjoint).imp_of_mem fun {x y} hx hy hxy => ?_
  obtain ⟨hkx, hwx⟩ := h.wf x hx
  obtain ⟨hky, hwy⟩ := h.wf y hy
  have hsx := hwx.size
  have hlt : x.1 < y.1 := hxy.1
  by_cases hbx : x.2.byteCount = 0
  · omega
  · by_cases hby : y.2.byteCount = 0
    · have hlo := (h.cover x.2.startSeq).mp ⟨x, hx, by unfold ByteRange.Holds; omega⟩
      have hhi := (h.cover (x.2.endSeq - 1)).mp ⟨x, hx, by unfold ByteRange.Holds; omega⟩
      have := h.empties y hy hby
      omega
    · exact hxy.2 (by omega) (by omega)

/-- What the insertion of `[s, e)` does to the entries `l₀`. -/
structure Received (l₀ : List Entry) (s e : ℕ) (l : List Entry) : Prop where
  covered : ∀ x, Covered l x ↔ Covered l₀ x
  received : ∀ w : IntervalWeight, mass w recvCount l = mass w recvCount l₀ + w s e
  sent : ∀ w : IntervalWeight, mass w sentCount l = mass w sentCount l₀
  packets : ∀ k, packetsAt k l = packetsAt k l₀ + if k = s then 1 else 0

/-- Before the pass at `s'`: the data up to `s'` has been received. -/
structure Receiving (l₀ : List Entry) (s e : ℕ) (l : List Entry) (s' level : ℕ) : Prop where
  start : s ≤ s' ∧ (level = 0 → s' = s)
  room : level + overlaps l s' e ≤ recursionLevel
  ahead : ∀ x, s' ≤ x → x < e → Covered l x
  stamped : ∀ en ∈ l, s' ≤ en.1 → en.2.dataReceivedCount.val ≠ 0 → en.2.receivedTstampTcp ≠ 0
  covered : ∀ x, Covered l x ↔ Covered l₀ x
  received : ∀ w : IntervalWeight, mass w recvCount l = mass w recvCount l₀ + w s s'
  sent : ∀ w : IntervalWeight, mass w sentCount l = mass w sentCount l₀
  packets : ∀ k, packetsAt k l = packetsAt k l₀ + if level ≠ 0 ∧ k = s then 1 else 0

section Receive

variable {lastSeq s₀ e : ℕ} {seg : DataSeg} {l₀ : List Entry}

theorem passKeeps_receiving (heL : e ≤ lastSeq) :
    PassKeeps lastSeq .recv seg e (Receiving l₀ s₀ e) (Received l₀ s₀ e) := by
  intro s level pre old new post next hready hinv hpass
  have hlt := hready.lt
  have hwf := (wfEntries_append.mp (wfEntries_append.mp hready.wf).1).2
  -- the range that holds the byte `s` is there
  have hnew : new ≠ [] := by
    rintro rfl
    cases hpass with
    | missing _ _ _ hgap =>
        obtain ⟨en, hen, hhold⟩ := hinv.ahead s le_rfl hlt
        exact hgap (by omega) en (by simpa using hen) hhold
  have hbytes : ∀ en ∈ old, en.2.startSeq < en.2.endSeq := by
    intro en hen
    have hle := (hwf en hen).2.le
    by_contra hempty
    have hkey := hpass.old_empty hwf hlt hen (by omega)
    have := hready.bytes rfl en (by simp [hen]) hkey.ge (by omega)
    have := (hwf en hen).1
    omega
  have hend : next.getD e ≤ e := by
    cases next with
    | none => exact le_rfl
    | some s' => exact (hpass.next_bounds rfl).2.le
  have hcovered : ∀ x, Covered (pre ++ new ++ post) x ↔ Covered (pre ++ old ++ post) x := by
    intro x
    rw [hpass.covered_iff hwf hlt hnew]
    exact or_iff_left_of_imp fun hx => hinv.ahead x hx.1 (by omega)
  have hrecv := hpass.mass_eq (countsBytes_recv seg) hwf hlt
    (fun en hen hempty => absurd (hbytes en hen) (by omega)) (fun h => absurd h hnew)
  have hsent := hpass.mass_eq (countsBytes_sent_of_recv seg) hwf hlt
    (fun en hen hempty => absurd (hbytes en hen) (by omega)) (fun h => absurd h hnew)
  have hpackets := hpass.packetsAt_eq hnew
  have hstart := hinv.start
  constructor
  · rintro rfl
    refine ⟨fun x => (hcovered x).trans (hinv.covered x), fun w => ?_, fun w => ?_, fun k => ?_⟩
    · rw [hrecv w, hinv.received w, one_mul, Option.getD_none, add_assoc,
        w.weight_add hstart.1 hlt.le]
    · rw [hsent w, hinv.sent w, zero_mul, add_zero]
    · rw [hpackets k, hinv.packets k]
      split_ifs <;> omega
  · rintro s' rfl
    have hcont := hpass.continues hready.wf hready.sep rfl
    have hbounds := hpass.next_bounds rfl
    have hless := hpass.overlaps_lt hready hbytes rfl
    have hroom := hinv.room
    refine ⟨by omega, by omega, fun x hlo hhi => ?_, fun en hen hkey => ?_,
      fun x => (hcovered x).trans (hinv.covered x), fun w => ?_, fun w => ?_, fun k => ?_⟩
    · exact (hcovered x).mpr (hinv.ahead x (by omega) hhi)
    · have hmem : en ∈ pre ++ old ++ post := by
        have hnot : en ∉ new := fun h => by
          have := hcont.new_le en h
          omega
        simp only [List.mem_append] at hen ⊢
        tauto
      exact hinv.stamped en hmem (by omega)
    · rw [hrecv w, hinv.received w, one_mul, Option.getD_some, add_assoc,
        w.weight_add hstart.1 hbounds.1.le]
    · rw [hsent w, hinv.sent w, zero_mul, add_zero]
    · rw [hpackets k, hinv.packets k]
      split_ifs <;> omega

end Receive

theorem insertByteRange_received {a : ℕ} {rm : RangeManager} {s e : ℕ} {seg : DataSeg}
    (h : TilesFrom a rm) (has : a ≤ s) (hse : s < e) (heL : e ≤ rm.lastSeq)
    (hseg : seg.tstampTcp ≠ 0) (hack : e ≠ add32 rm.firstSeq 1)
    (hover : overlaps rm.ranges.entries s e ≤ recursionLevel) :
    ∃ rm' ret, rm.insertByteRange s e .recv seg 0 = .ok (rm', ret) ∧
      Inserted (Received rm.ranges.entries s e) rm rm' := by
  have hcovered : ∀ x, s ≤ x → x < e → Covered rm.ranges.entries x := fun x hlo hhi =>
    (h.cover x).mpr (by omega)
  -- every byte of the segment is held, so no pass looks past the next range
  have hskip : NoSkip rm.ranges.entries s e := by
    intro x hlo hhi _ hheld
    obtain ⟨en, hen, hhold⟩ := hcovered x hlo hhi
    exact absurd ⟨en, hen, .inr hhold⟩ hheld
  have hbytes : ∀ en ∈ rm.ranges.entries, s ≤ en.1 → en.1 < e → en.1 < en.2.endSeq := by
    intro en hen hlo hhi
    obtain ⟨hkey, hwf⟩ := h.wf en hen
    have hsize := hwf.size
    have hne : en.2.byteCount ≠ 0 := fun h0 => by
      have := h.empties en hen h0
      omega
    omega
  have hready : Ready rm.lastSeq .recv e rm.ranges.entries s :=
    ⟨rm.ranges.sorted, h.wf, h.separated, hse, fun h => (nomatch h), fun _ _ _ _ => by omega, hskip,
      fun _ => hbytes⟩
  have hstart : Receiving rm.ranges.entries s e rm.ranges.entries s 0 :=
    ⟨by omega, by omega, hcovered, fun en hen _ => h.stamped en hen, fun _ => Iff.rfl,
      fun w => by rw [w.weight_self]; rfl, fun _ => rfl, fun _ => by simp⟩
  -- what is left is that each pass returns: it finds its range and meets none of the aborts
  refine insertLoop_ok (by simp) (passKeeps_receiving heL) ?_ hready hstart (by omega)
  intro rm₁ s₁ level₁ hframe hready₁ hinv
  have hlt := hready₁.lt
  refine insertBody_ok hready₁.wf hready₁.sep hlt hready₁.size (by simp) (fun h => nomatch h)
    ?_ ?_ ?_ ?_
  · intro _
    obtain ⟨en, hen, hhold⟩ := hinv.ahead s₁ le_rfl hlt
    exact ⟨en, hen, .inr hhold⟩
  · have := hinv.room
    intros
    omega
  · rw [hframe]
    exact fun _ => hack
  · intro _ en hen hkey
    exact receivedTstampTcp_recordRecv seg level₁ en.2 hseg (hinv.stamped en hen hkey.ge)

/-- A received segment counts each of its bytes once more, changes nothing else per byte, and is
charged to exactly one range: the one that starts with it. -/
theorem insertByteRange_recv_exact {a : ℕ} {rm : RangeManager} {s e : ℕ} {seg : DataSeg}
    (h : TilesFrom a rm) (has : a ≤ s) (hse : s < e) (heL : e ≤ rm.lastSeq)
    (hseg : seg.tstampTcp ≠ 0) (hack : e ≠ add32 rm.firstSeq 1)
    (hover : overlaps rm.ranges.entries s e ≤ recursionLevel) :
    ∃ rm' ret, rm.insertByteRange s e .recv seg 0 = .ok (rm', ret) ∧
      (∀ x, Covered rm'.ranges.entries x ↔ Covered rm.ranges.entries x) ∧
      (∀ en ∈ rm.ranges.entries, ∀ en' ∈ rm'.ranges.entries, ∀ x, en.2.Holds x → en'.2.Holds x →
        en'.2.dataReceivedCount.val =
          (en.2.dataReceivedCount.val + if s ≤ x ∧ x < e then 1 else 0) % 2 ^ 8 ∧
        en'.2.dataSentCount.val = en.2.dataSentCount.val) ∧
      rm'.packetReceivedAt s = (rm.packetReceivedAt s + 1) % 2 ^ 8 ∧
      ∀ k, k ≠ s → rm'.packetReceivedAt k = rm.packetReceivedAt k := by
  obtain ⟨rm', ret, hok, hins⟩ := insertByteRange_received h has hse heL hseg hack hover
  refine ⟨rm', ret, hok, hins.post.covered, fun en hen en' hen' x hx hx' => ?_, ?_, ?_⟩
  · have hpoint : ∀ cnt : ByteRange → ℕ, mass (.point x) cnt rm.ranges.entries = cnt en.2 :=
      fun cnt => intervalMass_point (fun en : Entry => cnt en.2) h.separated hen hx
    have hpoint' : ∀ cnt : ByteRange → ℕ, mass (.point x) cnt rm'.ranges.entries = cnt en'.2 :=
      fun cnt => intervalMass_point (fun en : Entry => cnt en.2) hins.sep hen' hx'
    have hrecv := hins.post.received (.point x)
    have hsent := hins.post.sent (.point x)
    rw [hpoint, hpoint'] at hrecv hsent
    constructor
    · rw [IntervalWeight.point_apply] at hrecv
      unfold recvCount at hrecv
      simp only [Counter.val, hrecv]
      omega
    · unfold sentCount at hsent
      simp only [Counter.val, hsent]
  · rw [packetReceivedAt_eq, packetReceivedAt_eq, hins.post.packets s, if_pos rfl]
    omega
  · intro k hk
    rw [packetReceivedAt_eq, packetReceivedAt_eq, hins.post.packets k, if_neg hk, add_zero]

/-- Two adjacent ranges of ten bytes. -/
def twoRanges : RangeManager :=
  { new 1000 with
    ranges :=
      ⟨[(0, { ByteRange.blank 0 10 with byteCount := 10 }),
        (10, { ByteRange.blank 10 20 with byteCount := 10 })], by decide⟩
    lastSeq := 20 }

theorem tilesFrom_twoRanges : TilesFrom 0 twoRanges where
  wf := by simp [twoRanges, WfEntries, ByteRange.wf_iff, ByteRange.blank]
  disjoint := by simp [twoRanges, ByteRange.blank]
  cover x := by
    simp only [twoRanges, Covered, ByteRange.Holds, ByteRange.blank, List.mem_cons, List.not_mem_nil,
      or_false, exists_eq_or_imp, exists_eq_left]
    omega
  empties := by simp [twoRanges]
  stamped := by simp [twoRanges, ByteRange.blank, Counter.val]

/-- The segment `[5, 15)` splits both ranges. -/
theorem insertByteRange_recv_exact_twoRanges :
    ∃ rm' ret, twoRanges.insertByteRange 5 15 .recv { tstampTcp := 1 } 0 = .ok (rm', ret) ∧
      rm'.packetReceivedAt 5 = 1 := by
  have hseg : ({ tstampTcp := 1 } : DataSeg).tstampTcp ≠ 0 := by decide
  obtain ⟨rm', ret, hok, -, -, hat, -⟩ := insertByteRange_recv_exact tilesFrom_twoRanges
    (s := 5) (e := 15) (by decide) (by decide) (by decide) hseg (by decide) (by decide)
  exact ⟨rm', ret, hok, hat.trans (by decide)⟩

end RangeManager

end AnalyseTCP
