import AnalyseTCP.Throughput
import AnalyseTCP.ConnectionKeys
import Mathlib.Data.List.GetD

/-!
# The throughput files

`ByteCountGroupedByInterval` writes a row for each interval of a connection and adds its groups to
the aggregated ones.  The columns are 64-bit sums, which may wrap, and so may the sums of a whole
column: whatever is lost is a multiple of 2^64, and the columns agree with the packets up to that.
-/

namespace AnalyseTCP

/-! ## The writer -/

/-- `PacketSizeGroup::operator+=`, which does not look at the packets of the groups. -/
def PacketSizeGroup.addGroup (g rhs : PacketSizeGroup) : PacketSizeGroup :=
  { g with
    packetSizeBytes := g.packetSizeBytes + rhs.packetSizeBytes.val
    payloadBytes := g.payloadBytes + rhs.payloadBytes.val
    retransPayloadBytes := g.retransPayloadBytes + rhs.retransPayloadBytes.val
    size := g.size + rhs.size.val }

/-- A row, but for the throughput at its end, which is a `double`. -/
structure ThroughputRow where
  interval : ℕ
  packetCount : ℕ
  byteCount : ℕ
  payloadBytes : ℕ
  payloadGoodputBytes : ℕ
deriving DecidableEq, Repr

/-- `writeToStream`. -/
def throughputRow (idx : ℕ) (psGroup : PacketSizeGroup) : ThroughputRow where
  interval := idx
  packetCount := psGroup.size.val
  byteCount := psGroup.packetSizeBytes.val
  payloadBytes := psGroup.payloadBytes.val
  payloadGoodputBytes := sub64 psGroup.payloadBytes.val psGroup.retransPayloadBytes.val

/-- The aggregated groups, and the files with their rows. -/
structure ByteCountGroupedByInterval where
  aggrPacketSizeGroups : List PacketSizeGroup := []
  written : List (String × List ThroughputRow) := []

/-- The loops that lengthen the aggregated groups and add those of a connection. -/
def addGroups (aggr groups : List PacketSizeGroup) : List PacketSizeGroup :=
  (List.range groups.length).foldl (fun v i => v.modify i (·.addGroup (groups.getD i {})))
    (Buckets.grow {} aggr groups.length)

namespace ByteCountGroupedByInterval

variable (aggregate aggOnly : Bool)

def writeStats (w : ByteCountGroupedByInterval) (connKey : String) (groups : List PacketSizeGroup) :
    ByteCountGroupedByInterval where
  aggrPacketSizeGroups :=
    if aggregate then addGroups w.aggrPacketSizeGroups groups else w.aggrPacketSizeGroups
  written := if aggOnly then w.written else w.written ++ [(connKey, groups.mapIdx throughputRow)]

/-- `end()`, which writes the aggregated file in any case. -/
def finish (w : ByteCountGroupedByInterval) : List (String × List ThroughputRow) :=
  w.written ++ [("aggr", w.aggrPacketSizeGroups.mapIdx throughputRow)]

end ByteCountGroupedByInterval

/-- `writeByteCountGroupedByInterval`, through `writeStatisticsFiles`. -/
def ThroughputDump.writeByteCountGroupedByInterval (t : ThroughputDump) (aggregate aggOnly : Bool) :
    List (String × List ThroughputRow) :=
  (t.dump.conns.entries.foldl (fun w en =>
    w.writeStats aggregate aggOnly en.1.text (t.table en.1).packetSizeGroups)
      ({} : ByteCountGroupedByInterval)).finish

/-! ## The columns -/

inductive ThroughputColumn
  | packetCount | byteCount | payloadBytes | payloadGoodputBytes
deriving DecidableEq, Repr

namespace ThroughputColumn

def read : ThroughputColumn → ThroughputRow → ℕ
  | packetCount, r => r.packetCount
  | byteCount, r => r.byteCount
  | payloadBytes, r => r.payloadBytes
  | payloadGoodputBytes, r => r.payloadGoodputBytes

/-- What a packet adds to the column. -/
def weight : ThroughputColumn → PacketSize → ℕ
  | packetCount, _ => 1
  | byteCount, ps => ps.packetSize
  | payloadBytes, ps => ps.payloadSize
  | payloadGoodputBytes, ps => if ps.retrans then 0 else ps.payloadSize

def amount (c : ThroughputColumn) (p : SizedPacket) : ℕ := c.weight p.pSize

/-- What the row of a group has in the column. -/
def value (c : ThroughputColumn) (g : PacketSizeGroup) : ℕ := c.read (throughputRow 0 g)

/-- The counter of a group behind the column, with what was sent before still in it. -/
def gained : ThroughputColumn → PacketSizeGroup → Counter 64
  | packetCount, g => g.size
  | byteCount, g => g.packetSizeBytes
  | payloadBytes, g => g.payloadBytes
  | payloadGoodputBytes, g => g.payloadBytes

/-- What `writeToStream` takes off that counter. -/
def lost : ThroughputColumn → PacketSizeGroup → Counter 64
  | packetCount, _ => 0
  | byteCount, _ => 0
  | payloadBytes, _ => 0
  | payloadGoodputBytes, g => g.retransPayloadBytes

/-- What a packet adds to `lost`. -/
def loss : ThroughputColumn → PacketSize → ℕ
  | packetCount, _ => 0
  | byteCount, _ => 0
  | payloadBytes, _ => 0
  | payloadGoodputBytes, ps => if ps.retrans then ps.payloadSize else 0

theorem read_throughputRow (c : ThroughputColumn) (idx : ℕ) (g : PacketSizeGroup) :
    c.read (throughputRow idx g) = c.value g := by
  cases c <;> rfl

theorem sub64_lt (a b : ℕ) : sub64 a b < 2 ^ 64 := by
  unfold sub64
  omega

theorem sub64_self (a : ℕ) : sub64 a a = 0 := by
  unfold sub64
  omega

theorem sub64_zero {a : ℕ} (h : a < 2 ^ 64) : sub64 a 0 = a := by
  unfold sub64
  omega

theorem sub64_add_self (a b : ℕ) : sub64 (a + b) b ≡ a [MOD 2 ^ 64] := by
  unfold sub64 Nat.ModEq
  omega

/-- The difference of two sums is the sum of the differences. -/
theorem sub64_add (a b x y : ℕ) :
    sub64 ((a + x) % 2 ^ 64) ((b + y) % 2 ^ 64) ≡ sub64 a b + sub64 x y [MOD 2 ^ 64] := by
  unfold sub64 Nat.ModEq
  omega

/-- Every column is a difference of two counters. -/
theorem value_eq (c : ThroughputColumn) (g : PacketSizeGroup) :
    c.value g = sub64 (c.gained g).val (c.lost g).val := by
  cases c with
  | packetCount =>
      rw [lost, Counter.val_zero, sub64_zero (Counter.val_lt _)]
      rfl
  | byteCount =>
      rw [lost, Counter.val_zero, sub64_zero (Counter.val_lt _)]
      rfl
  | payloadBytes =>
      rw [lost, Counter.val_zero, sub64_zero (Counter.val_lt _)]
      rfl
  | payloadGoodputBytes => rw [value, read, throughputRow, gained, lost]

theorem gained_add (c : ThroughputColumn) (g : PacketSizeGroup) (ps : PacketSize) :
    c.gained (g.add ps) = c.gained g + (c.weight ps + c.loss ps) := by
  cases c with
  | packetCount => rfl
  | byteCount => rfl
  | payloadBytes => rfl
  | payloadGoodputBytes =>
      rw [weight, loss]
      by_cases hretrans : ps.retrans = true
      · rw [if_pos hretrans, if_pos hretrans, Nat.zero_add]
        rfl
      · rw [if_neg hretrans, if_neg hretrans, Nat.add_zero]
        rfl

theorem lost_add (c : ThroughputColumn) (g : PacketSizeGroup) (ps : PacketSize) :
    c.lost (g.add ps) = c.lost g + c.loss ps := by
  cases c <;> rfl

theorem gained_addGroup (c : ThroughputColumn) (g rhs : PacketSizeGroup) :
    c.gained (g.addGroup rhs) = c.gained g + (c.gained rhs).val := by
  cases c <;> rfl

theorem lost_addGroup (c : ThroughputColumn) (g rhs : PacketSizeGroup) :
    c.lost (g.addGroup rhs) = c.lost g + (c.lost rhs).val := by
  cases c with
  | payloadGoodputBytes => rfl
  | _ =>
      rw [lost, lost, lost, Counter.val_zero]
      rfl

theorem value_lt (c : ThroughputColumn) (g : PacketSizeGroup) : c.value g < 2 ^ 64 := by
  rw [value_eq]
  exact sub64_lt _ _

theorem value_empty (c : ThroughputColumn) : c.value {} = 0 := by
  have hgained : c.gained {} = 0 := by cases c <;> rfl
  have hlost : c.lost {} = 0 := by cases c <;> rfl
  rw [value_eq, hgained, hlost]
  exact sub64_self _

theorem value_add (c : ThroughputColumn) (g : PacketSizeGroup) (ps : PacketSize) :
    c.value (g.add ps) ≡ c.value g + c.weight ps [MOD 2 ^ 64] := by
  rw [value_eq, value_eq, gained_add, lost_add, Counter.val_add, Counter.val_add]
  exact (sub64_add _ _ _ _).trans (Nat.ModEq.add_left _ (sub64_add_self _ _))

theorem value_addGroup (c : ThroughputColumn) (g rhs : PacketSizeGroup) :
    c.value (g.addGroup rhs) ≡ c.value g + c.value rhs [MOD 2 ^ 64] := by
  rw [value_eq, value_eq, value_eq, gained_addGroup, lost_addGroup, Counter.val_add,
    Counter.val_add]
  exact sub64_add _ _ _ _

theorem value_foldl_add (c : ThroughputColumn) (g : PacketSizeGroup) (l : List PacketSize) :
    c.value (l.foldl .add g) ≡ c.value g + (l.map c.weight).sum [MOD 2 ^ 64] := by
  induction l generalizing g with
  | nil => rw [List.foldl_nil, List.map_nil, List.sum_nil, Nat.add_zero]
  | cons ps l ih =>
      rw [List.foldl_cons, List.map_cons, List.sum_cons, ← Nat.add_assoc]
      exact (ih _).trans ((c.value_add g ps).add_right _)

end ThroughputColumn

/-! ## The groups -/

/-- The groups of the packets `ps`: in each column, an entry is the sum over the interval, and the
entries add up to the sum over all packets. -/
structure Grouped (throughputAggrMs : ℕ) (first : Timeval) (groups : List PacketSizeGroup)
    (ps : List SizedPacket) : Prop where
  entries : ∀ (c : ThroughputColumn) k, c.value (groups.getD k {}) ≡
    ((ps.filter (inBucket throughputAggrMs first k)).map c.amount).sum [MOD 2 ^ 64]
  total : ∀ c : ThroughputColumn,
    (groups.map c.value).sum ≡ (ps.map c.amount).sum [MOD 2 ^ 64]

section Groups

variable {throughputAggrMs : ℕ} {first : Timeval} {groups groups' : List PacketSizeGroup}
  {v : PacketSizeVectors} {ps ps' : List SizedPacket}

theorem grouped_nil : Grouped throughputAggrMs first [] [] where
  entries c k := by
    rw [List.getD_nil, c.value_empty, List.filter_nil, List.map_nil, List.sum_nil]
  total c := by rw [List.map_nil, List.map_nil]

/-- A group of `registerPacketSize` has in each column the sum over its packets. -/
theorem value_of_registered (h : PacketSizeVectors.Registered throughputAggrMs first v ps)
    (c : ThroughputColumn) (k : ℕ) : c.value (v.packetSizeGroups.getD k {}) ≡
      ((v.packetSizeGroups.getD k {}).packetSizes.map c.weight).sum [MOD 2 ^ 64] := by
  rw [h.beside, h.grouped]
  have hfold := c.value_foldl_add {} (v.packetSizes.getD k [])
  rwa [c.value_empty, Nat.zero_add] at hfold

theorem Grouped.of_registered (h : PacketSizeVectors.Registered throughputAggrMs first v ps) :
    Grouped throughputAggrMs first v.packetSizeGroups ps where
  entries c k := by
    have hvalue := value_of_registered h c k
    rwa [h.beside, h.counted, List.map_map] at hvalue
  total c := by
    have hsum := h.totals (fun g => (g.packetSizes.map c.weight).sum) c.weight rfl fun g ps => by
      show ((g.packetSizes ++ [ps]).map c.weight).sum = _
      rw [List.map_append, List.sum_append, List.map_singleton, List.sum_singleton]
    have hvalues : ∀ g ∈ v.packetSizeGroups,
        c.value g ≡ (g.packetSizes.map c.weight).sum [MOD 2 ^ 64] := by
      have hempty : c.value {} ≡
          ((({} : PacketSizeGroup).packetSizes).map c.weight).sum [MOD 2 ^ 64] := by
        rw [c.value_empty]
        rfl
      exact (Buckets.forall_mem_iff_getD ({} : PacketSizeGroup)
        (P := fun g => c.value g ≡ (g.packetSizes.map c.weight).sum [MOD 2 ^ 64]) hempty _).mpr
          fun k => value_of_registered h c k
    have htotal := Buckets.sum_map_modEq hvalues
    rw [hsum] at htotal
    exact htotal

theorem addGroups_spec (aggr groups : List PacketSizeGroup) :
    (addGroups aggr groups).length = max aggr.length groups.length ∧
      ∀ (c : ThroughputColumn) k, c.value ((addGroups aggr groups).getD k {}) ≡
        c.value (aggr.getD k {}) + c.value (groups.getD k {}) [MOD 2 ^ 64] := by
  have hgrow := Buckets.length_grow {} aggr groups.length
  obtain ⟨hlength, hentries⟩ := Buckets.foldl_modify {} (fun k g => g.addGroup (groups.getD k {}))
    (Buckets.grow {} aggr groups.length) (k := groups.length) (by omega)
  refine ⟨hlength.trans hgrow, fun c k => ?_⟩
  unfold addGroups
  rw [hentries, Buckets.getD_grow]
  by_cases hk : k < groups.length
  · rw [if_pos hk]
    exact c.value_addGroup _ _
  · rw [if_neg hk, List.getD_eq_default groups {} (Nat.le_of_not_lt hk), c.value_empty, Nat.add_zero]

/-- The groups of two connections. -/
theorem Grouped.addGroups (h : Grouped throughputAggrMs first groups ps)
    (h' : Grouped throughputAggrMs first groups' ps') :
    Grouped throughputAggrMs first (addGroups groups groups') (ps ++ ps') where
  entries c k := by
    rw [List.filter_append, List.map_append, List.sum_append]
    exact ((addGroups_spec groups groups').2 c k).trans ((h.entries c k).add (h'.entries c k))
  total c := by
    obtain ⟨hlength, hentries⟩ := addGroups_spec groups groups'
    rw [List.map_append, List.sum_append]
    refine Nat.ModEq.trans ?_ ((h.total c).add (h'.total c))
    -- read index by index, up to the longer of the two vectors
    rw [← Buckets.sum_range_getD {} c.value_empty (AnalyseTCP.addGroups groups groups') le_rfl,
      ← Buckets.sum_range_getD {} c.value_empty groups
        (n := (AnalyseTCP.addGroups groups groups').length) (by omega),
      ← Buckets.sum_range_getD {} c.value_empty groups'
        (n := (AnalyseTCP.addGroups groups groups').length) (by omega), ← List.sum_map_add]
    exact Buckets.sum_map_modEq fun k _ => hentries c k

end Groups

/-! ## The files -/

/-- The file of the packets `ps`: one row for each interval, and columns that add up. -/
structure ThroughputFile (throughputAggrMs : ℕ) (first : Timeval) (rows : List ThroughputRow)
    (ps : List SizedPacket) : Prop where
  intervals : rows.map ThroughputRow.interval = List.range rows.length
  entries : ∀ r ∈ rows, ∀ c : ThroughputColumn, c.read r =
    ((ps.filter (inBucket throughputAggrMs first r.interval)).map c.amount).sum % 2 ^ 64
  total : ∀ c : ThroughputColumn, (rows.map c.read).sum ≡ (ps.map c.amount).sum [MOD 2 ^ 64]

theorem map_mapIdx_throughputRow (c : ThroughputColumn) (groups : List PacketSizeGroup) :
    (groups.mapIdx throughputRow).map c.read = groups.map c.value := by
  apply List.ext_getElem
  · rw [List.length_map, List.length_mapIdx, List.length_map]
  · intro i _ _
    rw [List.getElem_map, List.getElem_mapIdx, List.getElem_map]
    exact c.read_throughputRow _ _

theorem Grouped.file {throughputAggrMs : ℕ} {first : Timeval} {groups : List PacketSizeGroup}
    {ps : List SizedPacket} (h : Grouped throughputAggrMs first groups ps) :
    ThroughputFile throughputAggrMs first (groups.mapIdx throughputRow) ps where
  intervals := by
    apply List.ext_getElem
    · rw [List.length_map, List.length_range]
    · intro i _ _
      rw [List.getElem_map, List.getElem_mapIdx, List.getElem_range]
      rfl
  entries r hr c := by
    obtain ⟨i, hi, rfl⟩ := List.mem_mapIdx.mp hr
    have hentry := h.entries c i
    rw [List.getD_eq_getElem _ _ hi] at hentry
    rw [c.read_throughputRow]
    exact (Nat.mod_eq_of_lt (c.value_lt _)).symm.trans hentry
  total c := by
    rw [map_mapIdx_throughputRow]
    exact h.total c

/-- The writer's pass over the connections. -/
theorem ByteCountGroupedByInterval.foldl_writeStats {α : Type} {throughputAggrMs : ℕ}
    {first : Timeval} (aggregate aggOnly : Bool) (connKey : α → String)
    (groups : α → List PacketSizeGroup) (ps : α → List SizedPacket) (conns : List α)
    (h : ∀ x ∈ conns, Grouped throughputAggrMs first (groups x) (ps x))
    (w : ByteCountGroupedByInterval) {ps₀ : List SizedPacket}
    (hw : Grouped throughputAggrMs first w.aggrPacketSizeGroups ps₀) :
    let w' := conns.foldl (fun w x => w.writeStats aggregate aggOnly (connKey x) (groups x)) w
    w'.written = w.written ++
        (if aggOnly then [] else conns.map fun x => (connKey x, (groups x).mapIdx throughputRow)) ∧
      Grouped throughputAggrMs first w'.aggrPacketSizeGroups
        (ps₀ ++ if aggregate then conns.flatMap ps else []) := by
  induction conns generalizing w ps₀ with
  | nil =>
      have hnone : (if aggregate then ([] : List α).flatMap ps else []) = [] := by
        cases aggregate <;> rfl
      rw [hnone, List.append_nil]
      refine ⟨?_, hw⟩
      cases aggOnly <;> exact (List.append_nil _).symm
  | cons x conns ih =>
      obtain ⟨hx, hconns⟩ := List.forall_mem_cons.mp h
      have hnext : Grouped throughputAggrMs first
          (w.writeStats aggregate aggOnly (connKey x) (groups x)).aggrPacketSizeGroups
          (ps₀ ++ if aggregate then ps x else []) := by
        cases aggregate with
        | false => exact (List.append_nil ps₀).symm ▸ hw
        | true => exact hw.addGroups hx
      obtain ⟨hwritten, haggr⟩ := ih hconns _ hnext
      rw [List.foldl_cons]
      refine ⟨hwritten.trans ?_, ?_⟩
      · cases aggOnly with
        | false => exact List.append_assoc _ [_] _
        | true => rfl
      · rw [List.append_assoc] at haggr
        cases aggregate <;> exact haggr

/-! ## The sums over the connections -/

/-- The columns of the aggregated file agree with the counters of the dump and its connections. -/
structure AddsUp (d : Dump) (rows : List ThroughputRow) : Prop where
  packets : (rows.map ThroughputRow.packetCount).sum + d.sumConns (fun conn => conn.ignoredCount) ≡
    d.sentPacketCount [MOD 2 ^ 64]
  bytes : (rows.map ThroughputRow.payloadBytes).sum ≡ d.sumConns (fun conn => conn.totBytesSent)
    [MOD 2 ^ 64]
  goodput : (rows.map ThroughputRow.payloadGoodputBytes).sum +
    d.sumConns (fun conn => conn.totRetransBytesSent) ≡ d.sumConns (fun conn => conn.totBytesSent)
    [MOD 2 ^ 64]

/-- The counters of all connections, from the packets of all connections. -/
theorem counted_flatMap {conns : List (ConnectionMapKey × TracedConnection)}
    {ps : ConnectionMapKey × TracedConnection → List SizedPacket}
    (h : ∀ en ∈ conns, CountedBy en.2.toConnection (ps en)) :
    (conns.map fun en => en.2.nrPacketsSent).sum =
        (conns.flatMap ps).length + (conns.map fun en => en.2.ignoredCount).sum ∧
      (conns.map fun en => en.2.totBytesSent).sum ≡
        ((conns.flatMap ps).map SizedPacket.payloadSize).sum [MOD 2 ^ 64] ∧
      (conns.map fun en => en.2.totRetransBytesSent).sum ≡
        ((conns.flatMap ps).map SizedPacket.retransSize).sum [MOD 2 ^ 64] := by
  induction conns with
  | nil => exact ⟨rfl, rfl, rfl⟩
  | cons en conns ih =>
      obtain ⟨hen, hconns⟩ := List.forall_mem_cons.mp h
      obtain ⟨hpackets, hbytes, hretrans⟩ := ih hconns
      have hcount := hen.packets
      simp only [List.map_cons, List.sum_cons, List.flatMap_cons, List.map_append, List.sum_append,
        List.length_append]
      exact ⟨by omega, hen.bytes.add hbytes, hen.retrans.add hretrans⟩

theorem sum_amount_packetCount (ps : List SizedPacket) :
    (ps.map ThroughputColumn.packetCount.amount).sum = ps.length := Buckets.sum_map_one ps

/-- What is not goodput was sent before. -/
theorem sum_amount_goodput (ps : List SizedPacket) :
    (ps.map ThroughputColumn.payloadGoodputBytes.amount).sum +
      (ps.map SizedPacket.retransSize).sum = (ps.map SizedPacket.payloadSize).sum := by
  rw [← List.sum_map_add]
  apply congrArg List.sum
  apply List.map_congr_left
  intro p _
  show (if p.retrans then 0 else p.payloadSize) + (if p.retrans then p.payloadSize else 0) =
    p.payloadSize
  by_cases hretrans : p.retrans = true
  · rw [if_pos hretrans, if_pos hretrans, Nat.zero_add]
  · rw [if_neg hretrans, if_neg hretrans, Nat.add_zero]

theorem ThroughputFile.addsUp {throughputAggrMs : ℕ} {first : Timeval} {d : Dump}
    {rows : List ThroughputRow} {ps : ConnectionMapKey × TracedConnection → List SizedPacket}
    (h : ThroughputFile throughputAggrMs first rows (d.conns.entries.flatMap ps))
    (hcounted : ∀ en ∈ d.conns.entries, CountedBy en.2.toConnection (ps en)) (htotals : d.Totals) :
    AddsUp d rows := by
  obtain ⟨hpackets, hbytes, hretrans⟩ := counted_flatMap hcounted
  have hcount := h.total .packetCount
  have hgoodput := h.total .payloadGoodputBytes
  have hpayload := h.total .payloadBytes
  rw [sum_amount_packetCount] at hcount
  refine ⟨?_, hpayload.trans hbytes.symm, ?_⟩
  · rw [htotals.packets]
    refine (hcount.add_right _).trans ?_
    unfold Dump.sumConns
    rw [hpackets]
  · refine (hgoodput.add hretrans).trans ?_
    rw [sum_amount_goodput]
    exact hbytes.symm

namespace ThroughputDump

/-- The throughput files of a capture in time order: those of the connections are files of their own
packets, and the aggregated one is a file of all of them, which adds up to the counters. -/
theorem writeByteCountGroupedByInterval_files {nat : NatConfig} {d : Dump} (throughputAggrMs : ℕ)
    (aggregate aggOnly : Bool) {sent acks : List Frame} (hts : ∀ f ∈ sent, f.ts.Captured)
    (horder : sent.Pairwise fun f g => f.ts.getUsecs ≤ g.ts.getUsecs)
    (h : Dump.analyseSender nat sent acks = .ok d) :
    ∃ (t : ThroughputDump) (ps : ConnectionMapKey × TracedConnection → List SizedPacket)
        (rows : ConnectionMapKey × TracedConnection → List ThroughputRow) (aggr : List ThroughputRow),
      analyseSender throughputAggrMs nat sent acks = .ok t ∧
      t.writeByteCountGroupedByInterval aggregate aggOnly =
        (if aggOnly then [] else d.conns.entries.map fun en => (en.1.text, rows en)) ++
          [("aggr", aggr)] ∧
      (∀ en ∈ d.conns.entries,
        ((ps en).map SizedPacket.view).Sublist ((Dump.sentOf en.1 sent).map Frame.view) ∧
          CountedBy en.2.toConnection (ps en) ∧
          ThroughputFile throughputAggrMs d.firstSentTime (rows en) (ps en)) ∧
      ThroughputFile throughputAggrMs d.firstSentTime aggr
        (if aggregate then d.conns.entries.flatMap ps else []) ∧
      (aggregate = true → AddsUp d aggr) := by
  obtain ⟨t, ht, hfollows⟩ := exists_follows throughputAggrMs hts horder h
  have htables := fun en (hen : en ∈ d.conns.entries) => hfollows.table_of_mem hen
  choose! ps hreg hsub hcounted using htables
  have hgrouped : ∀ en ∈ d.conns.entries, Grouped throughputAggrMs d.firstSentTime
      (t.table en.1).packetSizeGroups (ps en) := fun en hen => .of_registered (hreg en hen)
  obtain ⟨hwritten, haggr⟩ := ByteCountGroupedByInterval.foldl_writeStats aggregate aggOnly
    (fun en => en.1.text) (fun en => (t.table en.1).packetSizeGroups) ps d.conns.entries hgrouped {}
    grouped_nil
  rw [List.nil_append] at hwritten haggr
  have htotals : d.Totals :=
    Run.invariant (I := fun d _ => d.Totals) (d := [])
      (fun _ _ _ _ hinv _ hstep => Dump.step_totals hinv hstep) ⟨rfl, rfl, fun _ => rfl⟩
      (Run.steps_true _ _) h
  refine ⟨t, ps, fun en => (t.table en.1).packetSizeGroups.mapIdx throughputRow, _, ht, ?_,
    fun en hen => ⟨hsub en hen, hcounted en hen, (hgrouped en hen).file⟩, haggr.file, fun hall => ?_⟩
  · unfold writeByteCountGroupedByInterval ByteCountGroupedByInterval.finish
    rw [hfollows.dump, hwritten]
  · rw [hall, if_pos rfl] at haggr
    rw [hall]
    exact haggr.file.addsUp hcounted htotals

theorem writeByteCountGroupedByInterval_files_resent :
    ∃ (d : Dump) (t : ThroughputDump) (ps : ConnectionMapKey × TracedConnection → List SizedPacket)
        (rows : ConnectionMapKey × TracedConnection → List ThroughputRow) (aggr : List ThroughputRow),
      Dump.analyseSender {} resentCapture [] = .ok d ∧
      aggr.map (fun r => (r.packetCount, r.payloadBytes, r.payloadGoodputBytes)) =
        [(1, 10, 10), (1, 20, 20), (1, 10, 0)] ∧
      analyseSender 1000 {} resentCapture [] = .ok t ∧
      t.writeByteCountGroupedByInterval true false =
        (if false then [] else d.conns.entries.map fun en => (en.1.text, rows en)) ++
          [("aggr", aggr)] ∧
      (∀ en ∈ d.conns.entries,
        ((ps en).map SizedPacket.view).Sublist ((Dump.sentOf en.1 resentCapture).map Frame.view) ∧
          CountedBy en.2.toConnection (ps en) ∧
          ThroughputFile 1000 d.firstSentTime (rows en) (ps en)) ∧
      ThroughputFile 1000 d.firstSentTime aggr
        (if true then d.conns.entries.flatMap ps else []) ∧
      (true = true → AddsUp d aggr) := by
  have hrun : (Dump.analyseSender {} resentCapture []).toOption.any (fun _ =>
      (analyseSender 1000 {} resentCapture []).toOption.any fun t =>
        decide ((t.writeByteCountGroupedByInterval true false).getLast?.map (fun file =>
          file.2.map fun r => (r.packetCount, r.payloadBytes, r.payloadGoodputBytes)) =
            some [(1, 10, 10), (1, 20, 20), (1, 10, 0)])) = true := by
    decide +kernel
  obtain ⟨d, hd, hrun⟩ := Run.exists_of_any_toOption hrun
  obtain ⟨t, ht, hrows⟩ := Run.exists_of_any_toOption hrun
  obtain ⟨t', ps, rows, aggr, ht', hwritten, hfiles⟩ := writeByteCountGroupedByInterval_files 1000
    true false resentCapture_timely.1 resentCapture_timely.2 hd
  obtain rfl := Except.ok.inj (ht.symm.trans ht')
  have hlast := of_decide_eq_true hrows
  rw [hwritten, List.getLast?_concat, Option.map_some] at hlast
  exact ⟨d, t, ps, rows, aggr, hd, Option.some.inj hlast, ht, hwritten, hfiles⟩

end ThroughputDump

end AnalyseTCP
