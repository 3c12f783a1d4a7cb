import AnalyseTCP.SequenceNumbers
import AnalyseTCP.FirstSeq

/-!
# The sender side of a connection

What `registerSent` does to the fields it decides by: the reference for unwrapping sequence numbers
(`firstSeq`, `lastLargestEndSeq`, `lastLargestSeqAbsolute`) and the `closed` mark of a port reused
by a new connection.
-/

namespace AnalyseTCP

namespace Connection

/-- The compound condition that guards both the SYN handling and the `closed` mark. -/
def Unexpected (conn : Connection) (d : DataSeg) : Prop :=
  conn.lastLargestEndSeq < d.endSeq ∧ conn.lastLargestEndSeq + 1 ≠ d.seq

instance (conn : Connection) (d : DataSeg) : Decidable (conn.Unexpected d) :=
  inferInstanceAs (Decidable (_ ∧ _))

/-- A SYN that restarts the numbering at itself. -/
def RestartsNumbering (conn : Connection) (d : DataSeg) : Prop :=
  conn.Unexpected d ∧ conn.closed = false ∧ d.syn = true ∧
    ((d.seqAbsolute : ℤ) - conn.rm.firstSeq).natAbs ≤ 10

instance (conn : Connection) (d : DataSeg) : Decidable (conn.RestartsNumbering d) :=
  inferInstanceAs (Decidable (_ ∧ _))

/-- A SYN that marks the connection as closed. -/
def Closes (conn : Connection) (d : DataSeg) : Prop :=
  conn.Unexpected d ∧ conn.closed = false ∧ d.syn = true ∧
    10 < ((d.seqAbsolute : ℤ) - conn.rm.firstSeq).natAbs

instance (conn : Connection) (d : DataSeg) : Decidable (conn.Closes d) :=
  inferInstanceAs (Decidable (_ ∧ _))

/-- What the check of the sequence number leaves to classify. -/
inductive Checked (conn : Connection) (sd : SendData) : Option (Connection × SendData) → Prop
  | ignored (hun : conn.Unexpected sd.data) (hclosed : conn.closed = true) :
      Checked conn sd none
  | closes (h : conn.Closes sd.data) : Checked conn sd (some ({ conn with closed := true }, sd))
  | restarts (h : conn.RestartsNumbering sd.data) :
      Checked conn sd (some ({ conn with rm := { conn.rm with firstSeq := sd.data.seqAbsolute } },
        { sd with data := { sd.data with seq := 0, endSeq := 0 } }))
  | plain (h : conn.Unexpected sd.data → conn.closed = false ∧ sd.data.syn = false) :
      Checked conn sd (some (conn, sd))

theorem checked_spec (conn : Connection) (sd : SendData) :
    Checked conn sd (if conn.lastLargestEndSeq < sd.data.endSeq ∧
        conn.lastLargestEndSeq + 1 ≠ sd.data.seq then conn.registerUnexpected sd
      else some (conn, sd)) := by
  by_cases hun : conn.lastLargestEndSeq < sd.data.endSeq ∧
      conn.lastLargestEndSeq + 1 ≠ sd.data.seq
  · rw [if_pos hun]
    unfold registerUnexpected
    by_cases hclosed : conn.closed = true
    · rw [if_pos hclosed]
      exact .ignored hun hclosed
    rw [if_neg hclosed]
    rw [Bool.not_eq_true] at hclosed
    by_cases hsyn : sd.data.syn = true
    · rw [if_pos hsyn]
      by_cases hfar : 10 < ((sd.data.seqAbsolute : ℤ) - conn.rm.firstSeq).natAbs
      · rw [if_pos hfar]
        exact .closes ⟨hun, hclosed, hsyn, hfar⟩
      · rw [if_neg hfar]
        exact .restarts ⟨hun, hclosed, hsyn, not_lt.mp hfar⟩
    · rw [if_neg hsyn]
      exact .plain fun _ => ⟨hclosed, Bool.not_eq_true _ ▸ hsyn⟩
  · rw [if_neg hun]
    exact .plain fun h => absurd h hun

/-- The counters that every packet increases. -/
def countPacket (conn : Connection) (sd : SendData) : Connection :=
  { conn with
    totPacketSize := conn.totPacketSize + sd.totalSize
    nrPacketsSent := conn.nrPacketsSent + 1 }

/-- A packet that passed the check: without payload nothing more happens, data is classified. -/
def classify (conn : Connection) (sd : SendData) : Connection × SendData :=
  if sd.data.payloadSize = 0 then (conn, sd)
  else
    let (conn, sd) :=
      if conn.lastLargestEndSeq < sd.data.endSeq then conn.registerNewData sd
      else conn.registerRetrans sd
    ({ conn with
        nrDataPacketsSent := conn.nrDataPacketsSent + 1
        lastLargestStartSeq := sd.data.seq
        totBytesSent := add64 conn.totBytesSent sd.data.payloadSize }, sd)

/-- `registerSent` is the check of the sequence number followed by the classification. -/
theorem registerSent_cases (conn : Connection) (sd : SendData) :
    (conn.Unexpected sd.data ∧ conn.closed = true ∧
      conn.registerSent sd =
        ({ conn.countPacket sd with ignoredCount := conn.ignoredCount + 1 }, sd, false)) ∨
    ∃ c d, Checked (conn.countPacket sd) sd (some (c, d)) ∧
      conn.registerSent sd = ((c.classify d).1, (c.classify d).2, true) := by
  have hchecked := checked_spec (conn.countPacket sd) sd
  unfold registerSent
  dsimp only
  cases hcheck : (if (conn.countPacket sd).lastLargestEndSeq < sd.data.endSeq ∧
        (conn.countPacket sd).lastLargestEndSeq + 1 ≠ sd.data.seq then
      (conn.countPacket sd).registerUnexpected sd else some (conn.countPacket sd, sd)) with
  | none =>
      rw [hcheck] at hchecked
      left
      cases hchecked with
      -- only an unexpected packet on a closed connection leaves `registerSent` early
      | ignored hun hclosed =>
          refine ⟨hun, hclosed, ?_⟩
          unfold countPacket at hcheck
          rw [hcheck]
          rfl
  | some out =>
      obtain ⟨c, d⟩ := out
      rw [hcheck] at hchecked
      right
      refine ⟨c, d, hchecked, ?_⟩
      unfold countPacket at hcheck
      rw [hcheck]
      unfold classify
      dsimp only
      split_ifs <;> rfl

/-! ## The reference for unwrapping -/

/-- The two fields that unwrapping starts from belong together. -/
def Referenced (conn : Connection) : Prop :=
  conn.rm.firstSeq < 2 ^ 32 ∧
    conn.lastLargestSeqAbsolute = (conn.rm.firstSeq + conn.lastLargestEndSeq) % 2 ^ 32

theorem referenced_new {seq : ℕ} (hseq : seq < 2 ^ 32) : (new seq).Referenced := by
  refine ⟨hseq, ?_⟩
  show seq = (seq + 0) % 2 ^ 32
  omega

-- With the record taken apart, no comparison ever unfolds the machine arithmetic in its fields.
theorem registerNewData_reference (conn : Connection) (sd : SendData) :
    (conn.registerNewData sd).1.rm = conn.rm ∧
      (conn.registerNewData sd).1.lastLargestEndSeq = sd.data.endSeq ∧
      (conn.registerNewData sd).1.lastLargestSeqAbsolute =
        add32 sd.data.seqAbsolute sd.data.payloadSize := by
  cases conn
  unfold registerNewData
  dsimp only
  split <;> exact ⟨rfl, rfl, rfl⟩

theorem registerRetrans_reference (conn : Connection) (sd : SendData) :
    (conn.registerRetrans sd).1.rm = conn.rm ∧
      (conn.registerRetrans sd).1.lastLargestEndSeq = conn.lastLargestEndSeq ∧
      (conn.registerRetrans sd).1.lastLargestSeqAbsolute = conn.lastLargestSeqAbsolute := by
  cases conn
  exact ⟨rfl, rfl, rfl⟩

/-- Only new data moves the reference. -/
theorem classify_reference (conn : Connection) (sd : SendData) :
    (conn.classify sd).1.rm = conn.rm ∧
    (((conn.classify sd).1.lastLargestEndSeq = conn.lastLargestEndSeq ∧
        (conn.classify sd).1.lastLargestSeqAbsolute = conn.lastLargestSeqAbsolute) ∨
      ((conn.classify sd).1.lastLargestEndSeq = sd.data.endSeq ∧
        (conn.classify sd).1.lastLargestSeqAbsolute =
          add32 sd.data.seqAbsolute sd.data.payloadSize ∧
        conn.lastLargestEndSeq < sd.data.endSeq)) := by
  unfold classify
  by_cases hzero : sd.data.payloadSize = 0
  · rw [if_pos hzero]
    exact ⟨rfl, .inl ⟨rfl, rfl⟩⟩
  rw [if_neg hzero]
  by_cases hnew : conn.lastLargestEndSeq < sd.data.endSeq
  · obtain ⟨hrm, hD, hA⟩ := registerNewData_reference conn sd
    rw [if_pos hnew]
    exact ⟨hrm, .inr ⟨hD, hA, hnew⟩⟩
  · obtain ⟨hrm, hD, hA⟩ := registerRetrans_reference conn sd
    rw [if_neg hnew]
    exact ⟨hrm, .inl ⟨hD, hA⟩⟩

/-- A packet whose relative number fits its absolute one keeps the reference, unless it restarts
the numbering at another number. -/
theorem registerSent_referenced {conn : Connection} {sd : SendData} (hinv : conn.Referenced)
    (habs : sd.data.seqAbsolute < 2 ^ 32)
    (hend : (conn.rm.firstSeq + sd.data.endSeq) % 2 ^ 32 =
      (sd.data.seqAbsolute + sd.data.payloadSize) % 2 ^ 32)
    (hsame : conn.RestartsNumbering sd.data → sd.data.seqAbsolute = conn.rm.firstSeq) :
    (conn.registerSent sd).1.Referenced := by
  obtain ⟨hfirst, href⟩ := hinv
  rcases registerSent_cases conn sd with ⟨-, -, hout⟩ | ⟨c, d, hchecked, hout⟩
  · rw [hout]
    exact ⟨hfirst, href⟩
  rw [hout]
  obtain ⟨hrm, hcase⟩ := classify_reference c d
  unfold Referenced
  dsimp only
  rw [hrm]
  -- closing and plain packets keep `firstSeq`; a restart takes the number of its SYN
  cases hchecked with
  | closes _ =>
      refine ⟨hfirst, ?_⟩
      rcases hcase with ⟨hD, hA⟩ | ⟨hD, hA, -⟩
      · rw [hD, hA]
        exact href
      · rw [hD, hA]
        exact hend.symm
  | restarts h =>
      have hsyn : sd.data.seqAbsolute = conn.rm.firstSeq := hsame h
      refine ⟨habs, ?_⟩
      rcases hcase with ⟨hD, hA⟩ | ⟨-, -, hlt⟩
      · rw [hD, hA]
        show conn.lastLargestSeqAbsolute = (sd.data.seqAbsolute + conn.lastLargestEndSeq) % 2 ^ 32
        rw [hsyn]
        exact href
      · -- the rewritten packet ends at 0, so it is not new data
        exact absurd hlt (Nat.not_lt_zero _)
  | plain _ =>
      refine ⟨hfirst, ?_⟩
      rcases hcase with ⟨hD, hA⟩ | ⟨hD, hA, -⟩
      · rw [hD, hA]
        exact href
      · rw [hD, hA]
        exact hend.symm

/-! ## Port reuse -/

/-- Nothing that the analysis reports about the old connection has changed. -/
structure Untouched (conn conn' : Connection) : Prop where
  ranges : conn'.rm.ranges = conn.rm.ranges
  lastSeq : conn'.rm.lastSeq = conn.rm.lastSeq
  firstSeq : conn'.rm.firstSeq = conn.rm.firstSeq
  totBytesSent : conn'.totBytesSent = conn.totBytesSent
  totNewDataSent : conn'.totNewDataSent = conn.totNewDataSent
  totRDBBytesSent : conn'.totRDBBytesSent = conn.totRDBBytesSent
  totRetransBytesSent : conn'.totRetransBytesSent = conn.totRetransBytesSent
  nrRetrans : conn'.nrRetrans = conn.nrRetrans
  lastLargestEndSeq : conn'.lastLargestEndSeq = conn.lastLargestEndSeq

/-- The packet is ignored as one of the new connection. -/
def Freezes (conn : Connection) (sd : SendData) : Prop :=
  (conn.registerSent sd).2.2 = false ∧
    ∀ conn', conn.processSent sd = .ok conn' → Untouched conn conn'

/-- A closed connection ignores exactly the packets with an unexpected sequence number. -/
theorem freezes_iff_of_closed {conn : Connection} (sd : SendData) (hclosed : conn.closed = true) :
    conn.Freezes sd ↔ conn.Unexpected sd.data := by
  rcases registerSent_cases conn sd with ⟨hun, -, hout⟩ | ⟨c, d, hchecked, hout⟩
  · refine ⟨fun _ => hun, fun _ => ⟨by rw [hout], ?_⟩⟩
    intro conn' h
    unfold processSent at h
    rw [hout] at h
    rw [← Except.ok.inj h]
    exact ⟨rfl, rfl, rfl, rfl, rfl, rfl, rfl, rfl, rfl⟩
  · constructor
    · rintro ⟨hret, -⟩
      rw [hout] at hret
      cases hret
    · intro hun
      cases hchecked with
      | closes h => exact absurd (h.2.1.symm.trans hclosed) Bool.false_ne_true
      | restarts h => exact absurd (h.2.1.symm.trans hclosed) Bool.false_ne_true
      | plain h => exact absurd ((h hun).1.symm.trans hclosed) Bool.false_ne_true

theorem processSent_of_unexpected {conn : Connection} {sd : SendData}
    (hclosed : conn.closed = true) (hun : conn.Unexpected sd.data) :
    conn.processSent sd =
      .ok { conn.countPacket sd with ignoredCount := conn.ignoredCount + 1 } := by
  rcases registerSent_cases conn sd with ⟨-, -, hout⟩ | ⟨c, d, hchecked, -⟩
  · unfold processSent
    rw [hout]
  · cases hchecked with
    | closes h => exact absurd (h.2.1.symm.trans hclosed) Bool.false_ne_true
    | restarts h => exact absurd (h.2.1.symm.trans hclosed) Bool.false_ne_true
    | plain h => exact absurd ((h hun).1.symm.trans hclosed) Bool.false_ne_true

/-- Once closed, a whole run is frozen exactly when all its packets are unexpected. -/
theorem steps_freezes_iff {conn : Connection} (hclosed : conn.closed = true)
    (sds : List SendData) :
    Run.Steps processSent Freezes conn sds ↔ ∀ sd ∈ sds, conn.Unexpected sd.data := by
  induction sds generalizing conn with
  | nil => exact ⟨fun _ _ h => (nomatch h), fun _ => trivial⟩
  | cons sd sds ih =>
      rw [List.forall_mem_cons, Run.Steps, freezes_iff_of_closed sd hclosed]
      refine and_congr_right fun hun => ?_
      have hstep := processSent_of_unexpected hclosed hun
      have hrest := @ih { conn.countPacket sd with
        ignoredCount := conn.ignoredCount + 1 } hclosed
      constructor
      · intro h
        exact hrest.mp (h _ hstep)
      · intro h conn' hconn'
        obtain rfl := Except.ok.inj (hstep.symm.trans hconn')
        exact hrest.mpr h

/-- The SYN on which `closed` is set is itself never ignored, whatever follows it; after it, the
connection is frozen exactly when every packet has an unexpected sequence number. -/
theorem processSent_port_reuse {conn : Connection} {sd : SendData} (sds : List SendData)
    (hopen : conn.closed = false) (hclose : (conn.registerSent sd).1.closed = true) :
    ¬Run.Steps processSent Freezes conn (sd :: sds) ∧ (conn.registerSent sd).2.2 = true ∧
      ∀ conn', conn.processSent sd = .ok conn' →
        (Run.Steps processSent Freezes conn' sds ↔ ∀ sd' ∈ sds, conn'.Unexpected sd'.data) := by
  rcases registerSent_cases conn sd with ⟨-, hclosed, -⟩ | ⟨c, d, -, hout⟩
  · exact absurd (hopen.symm.trans hclosed) Bool.false_ne_true
  have hret : (conn.registerSent sd).2.2 = true := by rw [hout]
  refine ⟨?_, hret, ?_⟩
  · intro hsteps
    have hfalse := hsteps.1.1
    rw [hret] at hfalse
    cases hfalse
  · intro conn' h
    apply steps_freezes_iff
    unfold processSent at h
    rw [hout] at h hclose
    obtain ⟨rm, -, h⟩ := Run.exists_of_bind_ok h
    rw [← Except.ok.inj h]
    exact hclose

def oldStream : List SendData := [{ data := { seq := 0, endSeq := 10, payloadSize := 10 } }]

/-- The SYN of a new connection, 1000 above the old one. -/
def reuseSyn : SendData :=
  { data := { seq := 1000, endSeq := 1000, seqAbsolute := 1000, flags := thSyn } }

theorem processSent_port_reuse_above :
    (Run.run processSent (new 0) oldStream).toOption.isSome = true ∧
      ∀ conn, Run.run processSent (new 0) oldStream = .ok conn →
        ¬Run.Steps processSent Freezes conn [reuseSyn] := by
  refine ⟨by decide, fun conn hrun => ?_⟩
  have hconn : conn.closed = false ∧ (conn.registerSent reuseSyn).1.closed = true :=
    Run.of_all_toOption (p := fun conn => conn.closed = false ∧
      (conn.registerSent reuseSyn).1.closed = true) (by decide) hrun
  exact (processSent_port_reuse [] hconn.1 hconn.2).1

/-- The SYN that closes the connection is reported as sent and inserted into the ranges. -/
theorem processSent_inserts_closing_syn :
    (Run.run processSent (new 0) (oldStream ++ [reuseSyn])).toOption.map
        (fun conn => (conn.closed, conn.rm.ranges.entries.map Prod.fst)) =
      some (true, [0, 1000]) ∧
    ¬∀ conn sd, Run.run processSent (new 0) oldStream = .ok conn → conn.closed = false →
      (conn.registerSent sd).1.closed = true → conn.Freezes sd := by
  refine ⟨by decide, fun h => ?_⟩
  have hrun : (Run.run processSent (new 0) oldStream).toOption.any
      (fun conn => conn.closed == false && (conn.registerSent reuseSyn).1.closed &&
        (conn.registerSent reuseSyn).2.2) = true := by decide
  cases hconn : Run.run processSent (new 0) oldStream with
  | error e =>
      rw [hconn] at hrun
      cases hrun
  | ok conn =>
      rw [hconn] at hrun
      simp only [Except.toOption, Option.any_some, Bool.and_eq_true, beq_iff_eq] at hrun
      have hret := (h conn reuseSyn hconn hrun.1.1 hrun.1.2).1
      rw [hrun.2] at hret
      cases hret

end Connection

namespace Dump

open Connection

/-- No packet restarts the numbering at a number other than the initial one. -/
def KeepsIsn (conn : Connection) (sd : SendData) : Prop :=
  ∀ seq ∈ (getRelativeSequenceNumber sd.data.seqAbsolute conn.rm.firstSeq conn.lastLargestEndSeq
      conn.lastLargestSeqAbsolute).toOption,
    seq ≠ ulongMax → conn.RestartsNumbering (stampSent sd seq).data →
    sd.data.seqAbsolute = conn.rm.firstSeq

instance (conn : Connection) (sd : SendData) : Decidable (KeepsIsn conn sd) :=
  inferInstanceAs (Decidable (∀ seq ∈ Except.toOption _, _))

theorem processSent_referenced {conn conn' : Connection} {sd : SendData} (hinv : conn.Referenced)
    (habs : sd.data.seqAbsolute < 2 ^ 32)
    (hsame : KeepsIsn conn sd) (h : processSent conn sd = .ok conn') : conn'.Referenced := by
  obtain ⟨seq, hseq, h⟩ := Run.exists_of_bind_ok h
  by_cases hmax : seq = ulongMax
  · rw [if_pos hmax] at h
    rw [← Except.ok.inj h]
    exact hinv
  rw [if_neg hmax] at h
  obtain ⟨hle, hcongr⟩ := getRelativeSequenceNumber_congr hseq hmax
  have hend : (conn.rm.firstSeq + (stampSent sd seq).data.endSeq) % 2 ^ 32 =
      (sd.data.seqAbsolute + sd.data.payloadSize) % 2 ^ 32 := by
    show (conn.rm.firstSeq + add64 seq sd.data.payloadSize) % 2 ^ 32 = _
    unfold add64
    omega
  have hseq' : seq ∈ (getRelativeSequenceNumber sd.data.seqAbsolute conn.rm.firstSeq
      conn.lastLargestEndSeq conn.lastLargestSeqAbsolute).toOption := by
    rw [hseq]
    rfl
  have href : (conn.registerSent (stampSent sd seq)).1.Referenced :=
    registerSent_referenced hinv habs hend (hsame seq hseq' hmax)
  unfold Connection.processSent at h
  split at h
  · next c d hreg =>
      rw [hreg] at href
      obtain ⟨rm, hrm, h⟩ := Run.exists_of_bind_ok h
      rw [← Except.ok.inj h]
      -- inserting the packet into the ranges leaves `firstSeq` alone
      have hfirst := RangeManager.insertSentRange_firstSeq hrm
      unfold Referenced
      dsimp only
      rw [hfirst]
      exact href
  · next c d hreg =>
      rw [hreg] at href
      rw [← Except.ok.inj h]
      exact href

/-- In every run without such a restart, the reference is consistent in every state reached. -/
theorem processSent_run_reference {seq : ℕ} {sds : List SendData} {conn : Connection}
    (hseq : seq < 2 ^ 32)
    (hsds : ∀ sd ∈ sds, sd.data.seqAbsolute < 2 ^ 32)
    (hsteps : Run.Steps processSent KeepsIsn (Connection.new seq) sds)
    (hrun : Run.run processSent (Connection.new seq) sds = .ok conn) :
    conn.lastLargestSeqAbsolute = (conn.rm.firstSeq + conn.lastLargestEndSeq) % 2 ^ 32 := by
  have hinv : conn.Referenced :=
    Run.invariant (I := fun conn _ => conn.Referenced) (d := [])
      (fun _ _ _ _ hinv hok hstep => processSent_referenced hinv hok.2 hok.1 hstep)
      (referenced_new hseq) (hsteps.and_forall hsds) hrun
  exact hinv.2

/-- A SYN, the same SYN again, and ten bytes that cross the wrap of the sequence numbers. -/
def wrapPackets : List SendData :=
  [{ data := { seqAbsolute := 4294967290, flags := thSyn } },
    { data := { seqAbsolute := 4294967290, flags := thSyn } },
    { data := { seqAbsolute := 4294967291, payloadSize := 10 } }]

theorem processSent_run_reference_wrap :
    (Run.run processSent (Connection.new 4294967290) wrapPackets).toOption.map
        (fun conn => (conn.lastLargestSeqAbsolute, conn.rm.firstSeq, conn.lastLargestEndSeq)) =
      some (5, 4294967290, 11) ∧
    ∀ conn, Run.run processSent (Connection.new 4294967290) wrapPackets = .ok conn →
      conn.lastLargestSeqAbsolute = (conn.rm.firstSeq + conn.lastLargestEndSeq) % 2 ^ 32 :=
  ⟨by decide, fun _ hrun =>
    processSent_run_reference (by decide) (by decide) (by decide) hrun⟩

/-- Two SYNs whose numbers differ by five. -/
def synRetries : List SendData :=
  [{ data := { seqAbsolute := 1000, flags := thSyn } },
    { data := { seqAbsolute := 1005, flags := thSyn } }]

theorem processSent_reference_lost_by_syn_retry :
    ¬∀ conn, Run.run processSent (Connection.new 1000) synRetries = .ok conn →
      conn.lastLargestSeqAbsolute = (conn.rm.firstSeq + conn.lastLargestEndSeq) % 2 ^ 32 := by
  intro h
  have hrun : (Run.run processSent (Connection.new 1000) synRetries).toOption.any
      (fun conn => conn.lastLargestSeqAbsolute == 1000 && conn.rm.firstSeq == 1005 &&
        conn.lastLargestEndSeq == 0) = true := by decide
  cases hconn : Run.run processSent (Connection.new 1000) synRetries with
  | error e =>
      rw [hconn] at hrun
      cases hrun
  | ok conn =>
      rw [hconn] at hrun
      have href := h conn hconn
      simp [Except.toOption] at hrun
      omega

end Dump

end AnalyseTCP
