import AnalyseTCP.LossIntervals
import AnalyseTCP.ReceiveClock

/-!
# `Connection::registerPacketSize`

The sent packets of a connection, grouped by the time interval in which they were captured, for the
throughput file.  Two vectors are lengthened together, one with the packets and one with their
sums.  The sums have 64 bits, but the capture length passes through a `uint16_t` on its way there.
`-T` rejects an interval length of 0.
-/

namespace AnalyseTCP

open Buckets

structure PacketSize where
  time : Timeval
  packetSize : ℕ
  payloadSize : ℕ
  retrans : Bool
deriving DecidableEq, Repr

structure PacketSizeGroup where
  packetSizes : List PacketSize := []
  packetSizeBytes : Counter 64 := 0
  payloadBytes : Counter 64 := 0
  retransPayloadBytes : Counter 64 := 0
  size : Counter 64 := 0
deriving DecidableEq, Repr

namespace PacketSizeGroup

def add (g : PacketSizeGroup) (ps : PacketSize) : PacketSizeGroup where
  packetSizes := g.packetSizes ++ [ps]
  packetSizeBytes := g.packetSizeBytes + ps.packetSize
  payloadBytes := g.payloadBytes + ps.payloadSize
  retransPayloadBytes := g.retransPayloadBytes + if ps.retrans then ps.payloadSize else 0
  size := g.size + 1

end PacketSizeGroup

/-- `packetSizes` and `packetSizeGroups` of a `Connection`. -/
structure PacketSizeVectors where
  packetSizes : List (List PacketSize) := []
  packetSizeGroups : List PacketSizeGroup := []
deriving DecidableEq, Repr

/-- A packet as `Dump::processSent` registers it: `ps` is its capture length. -/
structure SizedPacket where
  ts : Timeval
  ps : ℕ
  payloadSize : ℕ
  retrans : Bool
deriving DecidableEq, Repr

/-- The `PacketSize` built from it, `static_cast<uint16_t>(ps)` included. -/
def SizedPacket.pSize (p : SizedPacket) : PacketSize where
  time := p.ts
  packetSize := p.ps % 2 ^ 16
  payloadSize := p.payloadSize
  retrans := p.retrans

section

variable (throughputAggrMs : ℕ) (first : Timeval)

/-- `sent_time_bucket_idx`, computed as the loss intervals are. -/
def sentTimeBucketIdx (ts : Timeval) : ℕ := intervalIdx throughputAggrMs (tvToMs first) ts

namespace PacketSizeVectors

/-- The loop, which looks at the length of `packetSizes` only. -/
def lengthen (v : PacketSizeVectors) (idx : ℕ) : PacketSizeVectors :=
  let n := idx + 1 - v.packetSizes.length
  { packetSizes := v.packetSizes ++ List.replicate n []
    packetSizeGroups := v.packetSizeGroups ++ List.replicate n {} }

def registerPacketSize (v : PacketSizeVectors) (p : SizedPacket) :
    Except Abort PacketSizeVectors :=
  let idx := sentTimeBucketIdx throughputAggrMs first p.ts
  let v := v.lengthen idx
  if idx < v.packetSizeGroups.length then
    .ok
      { packetSizes := v.packetSizes.modify idx fun l => l ++ [p.pSize]
        packetSizeGroups := v.packetSizeGroups.modify idx fun g => g.add p.pSize }
  -- the second vector is indexed without a look at its length
  else .error .outOfRange

end PacketSizeVectors

/-! ## Capture times -/

/-- The packet was captured no earlier than `first`; the distance in milliseconds is an
`int64_t`. -/
structure CapturedSince (ts : Timeval) : Prop where
  notBefore : tvToMs first ≤ tvToMs ts
  inRange : tvToMs ts - tvToMs first < 2 ^ 63

instance (ts : Timeval) : Decidable (CapturedSince first ts) :=
  decidable_of_iff (tvToMs first ≤ tvToMs ts ∧ tvToMs ts - tvToMs first < 2 ^ 63)
    ⟨fun h => ⟨h.1, h.2⟩, fun h => ⟨h.notBefore, h.inRange⟩⟩

/-- The packet belongs to the interval number `k`. -/
def inBucket (k : ℕ) (p : SizedPacket) : Bool :=
  (tvToMs p.ts - tvToMs first) / throughputAggrMs == (k : ℤ)

variable {throughputAggrMs first}

theorem tvToMs_of_nonneg {tv : Timeval} (h : 0 ≤ tv.tvUsec) :
    tvToMs tv = tv.tvSec * 1000 + tv.tvUsec / 1000 := by
  unfold tvToMs
  rw [Int.tdiv_eq_ediv_of_nonneg h]

theorem CapturedSince.of_captured {ts : Timeval} (hfirst : first.Captured) (hts : ts.Captured)
    (hbefore : ts.before first = false) : CapturedSince first ts := by
  obtain ⟨hsec, hbound, husec, hbelow⟩ := hfirst
  obtain ⟨hsec', hbound', husec', hbelow'⟩ := hts
  have hle : first.tvSec < ts.tvSec ∨ first.tvSec = ts.tvSec ∧ first.tvUsec ≤ ts.tvUsec := by
    unfold Timeval.before at hbefore
    split at hbefore
    · next heq => exact .inr ⟨heq.symm, not_lt.mp (of_decide_eq_false hbefore)⟩
    · have := of_decide_eq_false hbefore
      omega
  constructor
  · rw [tvToMs_of_nonneg husec, tvToMs_of_nonneg husec']
    omega
  · rw [tvToMs_of_nonneg husec, tvToMs_of_nonneg husec']
    omega

/-- From `first` on, the unsigned arithmetic computes the interval's number. -/
theorem sentTimeBucketIdx_eq_iff {p : SizedPacket} (h : CapturedSince first p.ts) {k : ℕ} :
    sentTimeBucketIdx throughputAggrMs first p.ts = k ↔
      inBucket throughputAggrMs first k p = true := by
  obtain ⟨hle, hlt⟩ := h
  unfold sentTimeBucketIdx intervalIdx inBucket
  rw [Int.emod_eq_of_lt (by omega) (by omega), beq_iff_eq]
  obtain ⟨n, hn⟩ := Int.eq_ofNat_of_zero_le (sub_nonneg.mpr hle)
  rw [hn, Int.toNat_natCast, ← Int.natCast_ediv, Int.natCast_inj]

/-! ## Registering the packets -/

theorem PacketSizeGroup.add_packetSizeBytes (g : PacketSizeGroup) (ps : PacketSize) :
    (g.add ps).packetSizeBytes.total = g.packetSizeBytes.total + ps.packetSize := rfl

theorem PacketSizeGroup.add_payloadBytes (g : PacketSizeGroup) (ps : PacketSize) :
    (g.add ps).payloadBytes.total = g.payloadBytes.total + ps.payloadSize := rfl

theorem PacketSizeGroup.add_retransPayloadBytes (g : PacketSizeGroup) (ps : PacketSize) :
    (g.add ps).retransPayloadBytes.total =
      g.retransPayloadBytes.total + if ps.retrans then ps.payloadSize else 0 := rfl

theorem PacketSizeGroup.add_size (g : PacketSizeGroup) (ps : PacketSize) :
    (g.add ps).size.total = g.size.total + 1 := rfl

namespace PacketSizeVectors

variable {v : PacketSizeVectors} {p : SizedPacket} {d : List SizedPacket}

/-- While the two vectors are of one length, a call changes one entry of each. -/
theorem registerPacketSize_eq (hlen : v.packetSizes.length = v.packetSizeGroups.length) :
    v.registerPacketSize throughputAggrMs first p = .ok
      { packetSizes := bump [] v.packetSizes (sentTimeBucketIdx throughputAggrMs first p.ts)
          fun l => l ++ [p.pSize]
        packetSizeGroups := bump {} v.packetSizeGroups
          (sentTimeBucketIdx throughputAggrMs first p.ts) fun g => g.add p.pSize } := by
  have hidx : sentTimeBucketIdx throughputAggrMs first p.ts <
      (v.lengthen (sentTimeBucketIdx throughputAggrMs first p.ts)).packetSizeGroups.length := by
    simp only [lengthen, List.length_append, List.length_replicate]
    omega
  unfold registerPacketSize
  dsimp only
  rw [if_pos hidx]
  unfold lengthen bump grow
  rw [hlen]

/-- The vectors after the packets `d`.  A group is what `add` makes of the packets beside it, and
every sum over the groups is one over `d`. -/
structure Registered (throughputAggrMs : ℕ) (first : Timeval) (v : PacketSizeVectors)
    (d : List SizedPacket) : Prop where
  parallel : v.packetSizes.length = v.packetSizeGroups.length
  counted : ∀ k, v.packetSizes.getD k [] =
    (d.filter (inBucket throughputAggrMs first k)).map SizedPacket.pSize
  grouped : ∀ k, v.packetSizeGroups.getD k {} = (v.packetSizes.getD k []).foldl .add {}
  totals : ∀ (π : PacketSizeGroup → ℕ) (amount : PacketSize → ℕ), π {} = 0 →
    (∀ g ps, π (g.add ps) = π g + amount ps) →
      (v.packetSizeGroups.map π).sum = (d.map fun p => amount p.pSize).sum

theorem registered_nil : Registered throughputAggrMs first {} [] where
  parallel := rfl
  counted _ := rfl
  grouped _ := rfl
  totals _ _ _ _ := rfl

theorem Registered.step (h : Registered throughputAggrMs first v d)
    (hp : CapturedSince first p.ts) :
    ∃ v', v.registerPacketSize throughputAggrMs first p = .ok v' ∧
      Registered throughputAggrMs first v' (d ++ [p]) := by
  refine ⟨_, registerPacketSize_eq h.parallel, ?_, fun k => ?_, fun k => ?_, ?_⟩
  · rw [length_bump, length_bump, h.parallel]
  · rw [getD_bump, h.counted, List.filter_append, List.map_append]
    by_cases hk : sentTimeBucketIdx throughputAggrMs first p.ts = k
    · rw [if_pos hk, List.filter_cons_of_pos ((sentTimeBucketIdx_eq_iff hp).mp hk)]
      rfl
    · rw [if_neg hk, List.filter_cons_of_neg fun hin => hk ((sentTimeBucketIdx_eq_iff hp).mpr hin)]
      exact (List.append_nil _).symm
  · rw [getD_bump, getD_bump, h.grouped]
    split
    · rw [List.foldl_append]
      rfl
    · rfl
  · intro π amount hzero hadd
    rw [List.map_append, List.sum_append, ← h.totals π amount hzero hadd]
    exact sum_bump {} hzero (fun g => hadd g p.pSize) v.packetSizeGroups _

variable (throughputAggrMs) in
/-- A run over packets captured since `first` returns. -/
theorem registerPacketSize_run {ps : List SizedPacket} (hps : ∀ p ∈ ps, CapturedSince first p.ts) :
    ∃ v, Run.run (registerPacketSize throughputAggrMs first) {} ps = .ok v ∧
      Registered throughputAggrMs first v ps := by
  have hsteps : Run.Steps (registerPacketSize throughputAggrMs first)
      (fun _ p => True ∧ CapturedSince first p.ts) {} ps := (Run.steps_true _ ps).and_forall hps
  exact Run.exists_ok (fun _ _ _ hinv hp => hinv.step hp.2) registered_nil hsteps

theorem Registered.groupTotal (h : Registered throughputAggrMs first v d)
    (π : PacketSizeGroup → ℕ) (amount : PacketSize → ℕ) (hzero : π {} = 0)
    (hadd : ∀ g ps, π (g.add ps) = π g + amount ps) (k : ℕ) :
    π (v.packetSizeGroups.getD k {}) =
      ((d.filter (inBucket throughputAggrMs first k)).map fun p => amount p.pSize).sum := by
  rw [h.grouped, foldl_adds π amount hadd, hzero, zero_add, h.counted, List.map_map]
  rfl

/-- One of the sums over all groups is the wanted one exactly if every packet adds what it should
and the counter wraps in no interval. -/
theorem Registered.sum_val_iff (h : Registered throughputAggrMs first v d)
    (c : PacketSizeGroup → Counter 64) (amount : PacketSize → ℕ) (want : SizedPacket → ℕ)
    (hzero : (c {}).total = 0) (hadd : ∀ g ps, (c (g.add ps)).total = (c g).total + amount ps)
    (hle : ∀ p ∈ d, amount p.pSize ≤ want p) :
    (v.packetSizeGroups.map fun g => (c g).val).sum = (d.map want).sum ↔
      (∀ p ∈ d, amount p.pSize = want p) ∧
        ∀ k, ((d.filter (inBucket throughputAggrMs first k)).map want).sum < 2 ^ 64 := by
  have hval : ∀ g ∈ v.packetSizeGroups, (c g).val ≤ (c g).total :=
    fun g _ => (c g).val_le_total
  have htotal := h.totals (fun g => (c g).total) amount hzero hadd
  have hsum : (v.packetSizeGroups.map fun g => (c g).val).sum = (d.map want).sum ↔
      (d.map fun p => amount p.pSize).sum = (d.map want).sum ∧
        (v.packetSizeGroups.map fun g => (c g).val).sum =
          (v.packetSizeGroups.map fun g => (c g).total).sum := by
    have hlow := List.sum_le_sum hval
    have hhigh := List.sum_le_sum hle
    omega
  rw [hsum, sum_map_eq_iff_of_le hle, sum_map_eq_iff_of_le hval]
  apply and_congr_right
  intro hwant
  have hfits : (∀ g ∈ v.packetSizeGroups, (c g).val = (c g).total) ↔
      ∀ g ∈ v.packetSizeGroups, (c g).total < 2 ^ 64 :=
    forall₂_congr fun g _ => Counter.val_eq_total_iff
  rw [hfits, forall_mem_iff_getD {} (P := fun g => (c g).total < 2 ^ 64) (by rw [hzero]; decide)]
  apply forall_congr'
  intro k
  have hbucket : ∀ p ∈ d.filter (inBucket throughputAggrMs first k), amount p.pSize = want p :=
    fun p hp => hwant p (List.mem_of_mem_filter hp)
  rw [h.groupTotal (fun g => (c g).total) amount hzero hadd k,
    List.map_congr_left hbucket]

end PacketSizeVectors

/-! ## Conservation -/

/-- Every packet is in the interval of its capture time and in no other one, and the sums over all
groups are those over the packets. -/
structure ConservesTraffic (throughputAggrMs : ℕ) (first : Timeval) (ps : List SizedPacket)
    (v : PacketSizeVectors) : Prop where
  parallel : v.packetSizes.length = v.packetSizeGroups.length
  counted : ∀ k, v.packetSizes.getD k [] =
    (ps.filter (inBucket throughputAggrMs first k)).map SizedPacket.pSize
  grouped : ∀ k, (v.packetSizeGroups.getD k {}).packetSizes = v.packetSizes.getD k []
  size : (v.packetSizeGroups.map fun g => g.size.val).sum = ps.length
  payloadBytes : (v.packetSizeGroups.map fun g => g.payloadBytes.val).sum =
    (ps.map fun p => p.payloadSize).sum
  retransPayloadBytes : (v.packetSizeGroups.map fun g => g.retransPayloadBytes.val).sum =
    (ps.map fun p => if p.retrans then p.payloadSize else 0).sum
  packetSizeBytes : (v.packetSizeGroups.map fun g => g.packetSizeBytes.val).sum =
    (ps.map fun p => p.ps).sum

/-- The packets of one interval have sums of 64 bits. -/
structure SumsFit (l : List SizedPacket) : Prop where
  size : l.length < 2 ^ 64
  payloadBytes : (l.map fun p => p.payloadSize).sum < 2 ^ 64
  packetSizeBytes : (l.map fun p => p.ps).sum < 2 ^ 64

/-- The sums of an interval are parts of the sums of the whole stream. -/
theorem SumsFit.filter {ps : List SizedPacket} (h : SumsFit ps) (f : SizedPacket → Bool) :
    SumsFit (ps.filter f) := by
  have hsub : (ps.filter f).Sublist ps := List.filter_sublist
  have hsum : ∀ n : SizedPacket → ℕ, ((ps.filter f).map n).sum ≤ (ps.map n).sum :=
    fun n => (hsub.map n).sum_le_sum fun _ _ => Nat.zero_le _
  exact ⟨lt_of_le_of_lt hsub.length_le h.size, lt_of_le_of_lt (hsum _) h.payloadBytes,
    lt_of_le_of_lt (hsum _) h.packetSizeBytes⟩

theorem foldl_add_packetSizes (l : List PacketSize) (g : PacketSizeGroup) :
    (l.foldl .add g).packetSizes = g.packetSizes ++ l := by
  induction l generalizing g with
  | nil => exact (List.append_nil _).symm
  | cons ps l ih =>
      rw [List.foldl_cons, ih]
      exact List.append_assoc _ [ps] l

/-- A group holds the packets beside it. -/
theorem PacketSizeVectors.Registered.beside {throughputAggrMs : ℕ} {first : Timeval}
    {v : PacketSizeVectors} {d : List SizedPacket} (h : Registered throughputAggrMs first v d)
    (k : ℕ) : (v.packetSizeGroups.getD k {}).packetSizes = v.packetSizes.getD k [] := by
  rw [h.grouped, foldl_add_packetSizes]
  rfl

/-- `static_cast<uint16_t>(ps)` is the only loss. -/
theorem registerPacketSize_run_conserves_iff (throughputAggrMs : ℕ) (first : Timeval)
    (ps : List SizedPacket) (hps : ∀ p ∈ ps, CapturedSince first p.ts) :
    (∃ v, Run.run (PacketSizeVectors.registerPacketSize throughputAggrMs first) {} ps = .ok v ∧
        ConservesTraffic throughputAggrMs first ps v) ↔
      (∀ p ∈ ps, p.ps < 2 ^ 16) ∧
        ∀ k, SumsFit (ps.filter (inBucket throughputAggrMs first k)) := by
  obtain ⟨v, hrun, hreg⟩ := PacketSizeVectors.registerPacketSize_run throughputAggrMs hps
  have hpayload := hreg.sum_val_iff (fun g => g.payloadBytes) (fun ps => ps.payloadSize)
    (fun p => p.payloadSize) rfl PacketSizeGroup.add_payloadBytes fun _ _ => le_refl _
  have hretrans := hreg.sum_val_iff (fun g => g.retransPayloadBytes)
    (fun ps => if ps.retrans then ps.payloadSize else 0)
    (fun p => if p.retrans then p.payloadSize else 0) rfl PacketSizeGroup.add_retransPayloadBytes
    fun _ _ => le_refl _
  have hbytes := hreg.sum_val_iff (fun g => g.packetSizeBytes) (fun ps => ps.packetSize)
    (fun p => p.ps) rfl PacketSizeGroup.add_packetSizeBytes fun _ _ => Nat.mod_le _ _
  have hsize : (v.packetSizeGroups.map fun g => g.size.val).sum = ps.length ↔
      ∀ k, (ps.filter (inBucket throughputAggrMs first k)).length < 2 ^ 64 := by
    have h := hreg.sum_val_iff (fun g => g.size) (fun _ => 1) (fun _ => 1) rfl
      PacketSizeGroup.add_size fun _ _ => le_refl _
    simpa only [sum_map_one, implies_true, true_and] using h
  constructor
  · rintro ⟨v', hrun', hcons⟩
    obtain rfl := Except.ok.inj (hrun.symm.trans hrun')
    obtain ⟨hwant, hfit⟩ := hbytes.mp hcons.packetSizeBytes
    refine ⟨fun p hp => (Nat.mod_eq_iff_lt (by decide)).mp (hwant p hp), fun k => ?_⟩
    exact ⟨hsize.mp hcons.size k, (hpayload.mp hcons.payloadBytes).2 k, hfit k⟩
  · rintro ⟨hshort, hfit⟩
    refine ⟨v, hrun, hreg.parallel, hreg.counted, hreg.beside, ?_, ?_, ?_, ?_⟩
    · exact hsize.mpr fun k => (hfit k).size
    · exact hpayload.mpr ⟨fun _ _ => rfl, fun k => (hfit k).payloadBytes⟩
    · -- resent payload is part of the payload
      refine hretrans.mpr ⟨fun _ _ => rfl, fun k => lt_of_le_of_lt ?_ (hfit k).payloadBytes⟩
      apply List.sum_le_sum
      intro p _
      split
      · exact le_refl _
      · exact Nat.zero_le _
    · exact hbytes.mpr ⟨fun p hp => Nat.mod_eq_of_lt (hshort p hp), fun k =>
        (hfit k).packetSizeBytes⟩

/-- Three packets, the second one resent in the interval after. -/
theorem registerPacketSize_run_conserves_iff_three :
    ∃ v, Run.run (PacketSizeVectors.registerPacketSize 1000 ⟨1000, 500000⟩) {}
        [⟨⟨1000, 500000⟩, 66, 0, false⟩, ⟨⟨1000, 500400⟩, 1514, 1448, false⟩,
          ⟨⟨1001, 500000⟩, 1514, 1448, true⟩] = .ok v ∧
      ConservesTraffic 1000 ⟨1000, 500000⟩
        [⟨⟨1000, 500000⟩, 66, 0, false⟩, ⟨⟨1000, 500400⟩, 1514, 1448, false⟩,
          ⟨⟨1001, 500000⟩, 1514, 1448, true⟩] v := by
  apply (registerPacketSize_run_conserves_iff 1000 ⟨1000, 500000⟩ _ (by decide)).mpr
  exact ⟨by decide, fun k => SumsFit.filter ⟨by decide, by decide, by decide⟩ _⟩

/-- An offloaded packet: 65535 bytes from the IP header on, behind an Ethernet header. -/
theorem registerPacketSize_truncates_length :
    CapturedSince ⟨1000, 0⟩ ⟨1000, 0⟩ ∧
      ¬∃ v, Run.run (PacketSizeVectors.registerPacketSize 1000 ⟨1000, 0⟩) {}
          [⟨⟨1000, 0⟩, 65549, 65483, false⟩] = .ok v ∧
        ConservesTraffic 1000 ⟨1000, 0⟩ [⟨⟨1000, 0⟩, 65549, 65483, false⟩] v := by
  refine ⟨by decide, ?_⟩
  rintro ⟨v, hrun, hcons⟩
  have hbytes : (v.packetSizeGroups.map fun g => g.packetSizeBytes.val).sum = 13 :=
    Run.of_all_toOption
      (p := fun v : PacketSizeVectors =>
        (v.packetSizeGroups.map fun g => g.packetSizeBytes.val).sum = 13) (by decide) hrun
  exact absurd (hbytes.symm.trans hcons.packetSizeBytes) (by decide)

end

end AnalyseTCP
