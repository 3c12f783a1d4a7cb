import AnalyseTCP.CaptureRefinement

/-!
# The references of a connection

The numbers of sent packets, of ACKs and of received packets are unwrapped against a reference each,
and each pass moves its own.  All three count from `firstSeq`, so a SYN that moves it leaves none of
them valid.
-/

namespace AnalyseTCP

/-- A position and its number on the circle, when the number of position 0 is `firstSeq`. -/
def Refers (firstSeq largest absolute : ℕ) : Prop :=
  largest ≤ 10000065534 ∧ absolute = (firstSeq + largest) % 2 ^ 32

/-- Where a number is put: as far from the reference as it is on the circle. -/
def positionFrom (n largest absolute : ℕ) : ℤ := largest + seqDelta n absolute + unwrapBias n

theorem Refers.position {firstSeq largest absolute n r : ℕ} (h : Refers firstSeq largest absolute)
    (hfirst : firstSeq < 2 ^ 32) (hn : n < 2 ^ 32) (hne : r ≠ ulongMax)
    (hr : getRelativeSequenceNumber n firstSeq largest absolute = .ok r) :
    (r : ℤ) = positionFrom n largest absolute := by
  obtain ⟨hle, habs⟩ := h
  by_cases hrej : rejectedBeforeFirst n firstSeq absolute
  · rw [getRelativeSequenceNumber_of_rejected hrej] at hr
    exact absurd (Except.ok.inj hr).symm hne
  · have hval := getRelativeSequenceNumber_of_reference hn hfirst (by omega) habs hrej
    rw [hr] at hval
    dsimp only at hval
    split at hval
    · next hpos =>
      have hr' := Except.ok.inj hval
      unfold positionFrom
      omega
    · cases hval

/-! ## The sender's own reference -/

namespace Connection

/-- A SYN carries the number that the connection counts from. -/
def SynAgrees (conn : Connection) (d : DataSeg) : Prop :=
  d.syn = true → d.seqAbsolute = conn.rm.firstSeq

theorem registerSent_firstSeq {conn : Connection} (sd : SendData) (hsyn : conn.SynAgrees sd.data) :
    (conn.registerSent sd).1.rm.firstSeq = conn.rm.firstSeq := by
  rcases registerSent_cases conn sd with ⟨-, -, hout⟩ | ⟨c, d, hchecked, hout⟩
  · rw [hout]
    rfl
  · rw [hout]
    dsimp only
    rw [(classify_reference c d).1]
    cases hchecked with
    | closes _ => rfl
    | plain _ => rfl
    | restarts h => exact hsyn h.2.2.1

theorem registerSent_endSeq_le {conn : Connection} {sd : SendData} {n : ℕ}
    (hconn : conn.lastLargestEndSeq ≤ n) (hsd : sd.data.endSeq ≤ n) :
    (conn.registerSent sd).1.lastLargestEndSeq ≤ n := by
  rcases registerSent_cases conn sd with ⟨-, -, hout⟩ | ⟨c, d, hchecked, hout⟩
  · rw [hout]
    exact hconn
  · rw [hout]
    dsimp only
    have hboth : c.lastLargestEndSeq ≤ n ∧ d.data.endSeq ≤ n := by
      cases hchecked with
      | closes _ => exact ⟨hconn, hsd⟩
      | plain _ => exact ⟨hconn, hsd⟩
      | restarts _ => exact ⟨hconn, Nat.zero_le n⟩
    rcases (classify_reference c d).2 with ⟨hsame, -⟩ | ⟨hnew, -, -⟩
    · rw [hsame]
      exact hboth.1
    · rw [hnew]
      exact hboth.2

end Connection

theorem Dump.processSent_refers {conn conn' : Connection} {sd : SendData}
    (hfirst : conn.rm.firstSeq < 2 ^ 32)
    (href : Refers conn.rm.firstSeq conn.lastLargestEndSeq conn.lastLargestSeqAbsolute)
    (habs : sd.data.seqAbsolute < 2 ^ 32) (hsize : sd.data.payloadSize < 2 ^ 16)
    (hsyn : conn.SynAgrees sd.data) (h : Dump.processSent conn sd = .ok conn') :
    conn'.rm.firstSeq = conn.rm.firstSeq ∧
      Refers conn'.rm.firstSeq conn'.lastLargestEndSeq conn'.lastLargestSeqAbsolute := by
  have hkeeps : KeepsIsn conn sd := fun seq _ _ hrestarts => hsyn hrestarts.2.2.1
  have href' := processSent_referenced ⟨hfirst, href.2⟩ habs hkeeps h
  obtain ⟨seq, hseq, h⟩ := Run.exists_of_bind_ok h
  by_cases hmax : seq = ulongMax
  · rw [if_pos hmax] at h
    rw [← Except.ok.inj h]
    exact ⟨rfl, href⟩
  rw [if_neg hmax] at h
  have hend : (stampSent sd seq).data.endSeq ≤ 10000065534 := by
    have hle := (getRelativeSequenceNumber_congr hseq hmax).1
    show add64 seq sd.data.payloadSize ≤ _
    rw [add64_eq_add hle hsize]
    omega
  have hle := Connection.registerSent_endSeq_le href.1 hend
  have hsame := Connection.registerSent_firstSeq (stampSent sd seq) hsyn
  have hconn' : conn'.rm.firstSeq = conn.rm.firstSeq ∧ conn'.lastLargestEndSeq ≤ 10000065534 := by
    unfold Connection.processSent at h
    split at h
    · next c d hreg =>
      rw [hreg] at hle hsame
      obtain ⟨rm, hrm, h⟩ := Run.exists_of_bind_ok h
      rw [← Except.ok.inj h]
      exact ⟨(RangeManager.insertSentRange_firstSeq hrm).trans hsame, hle⟩
    · next c d hreg =>
      rw [hreg] at hle hsame
      rw [← Except.ok.inj h]
      exact ⟨hsame, hle⟩
  exact ⟨hconn'.1, hconn'.2, href'.2⟩

/-! ## One frame -/

namespace TracedConnection

structure References (conn : TracedConnection) : Prop where
  first : conn.rm.firstSeq < 2 ^ 32
  sent : Refers conn.rm.firstSeq conn.lastLargestEndSeq conn.lastLargestSeqAbsolute
  ack : Refers conn.rm.firstSeq conn.lastLargestAckSeq conn.lastLargestAckSeqAbsolute
  recvd : Refers conn.rm.firstSeq conn.lastLargestRecvEndSeq conn.lastLargestRecvSeqAbsolute

variable {conn conn' : TracedConnection} {f : Frame} {counted : Bool}

theorem references_new {seq : ℕ} (hseq : seq < 2 ^ 32) : (new seq).References := by
  have hzero : Refers seq 0 seq := ⟨Nat.zero_le _, by omega⟩
  exact ⟨hseq, hzero, hzero, hzero⟩

theorem processSent_references (hrefs : conn.References)
    (hsyn : f.thFlags &&& thSyn ≠ 0 → f.thSeq = conn.rm.firstSeq)
    (h : conn.processSent f = .ok (conn', counted)) :
    conn'.rm.firstSeq = conn.rm.firstSeq ∧ conn'.References := by
  obtain ⟨hsame, sd, hcarries, hsent⟩ := processSent_refines h
  have hdata : sd.data.seqAbsolute = f.thSeq ∧ sd.data.payloadSize = f.payloadSize ∧
      sd.data.flags = f.thFlags := by
    rw [hcarries.2]
    exact ⟨rfl, rfl, rfl⟩
  obtain ⟨habs, hsize, hflags⟩ := hdata
  have hagrees : conn.toConnection.SynAgrees sd.data := by
    intro hd
    unfold DataSeg.syn at hd
    rw [hflags] at hd
    rw [habs]
    exact hsyn (by simpa using hd)
  obtain ⟨hfirst, href⟩ := Dump.processSent_refers hrefs.first hrefs.sent
    (by rw [habs]; exact f.thSeq_lt) (by rw [hsize]; exact f.payloadSize_lt) hagrees hsent
  refine ⟨hfirst, ?_, href, ?_, ?_⟩
  · rw [hfirst]
    exact hrefs.first
  · rw [hfirst, hsame]
    exact hrefs.ack
  · rw [hfirst, hsame]
    exact hrefs.recvd

/-- Only an ACK that was found moves the reference of the ACKs. -/
theorem processAcks_references (hrefs : conn.References)
    (h : conn.processAcks f = .ok (conn', counted)) :
    conn'.rm.firstSeq = conn.rm.firstSeq ∧ conn'.References := by
  obtain ⟨ack, hack, h⟩ := Run.exists_of_bind_ok h
  split_ifs at h
  · obtain ⟨rfl, -⟩ := Prod.mk.inj (Except.ok.inj h)
    exact ⟨rfl, hrefs⟩
  next hne =>
  obtain ⟨seg, hseg, h⟩ := Run.exists_of_bind_ok h
  obtain ⟨⟨rm, ret⟩, hrm, h⟩ := Run.exists_of_bind_ok h
  have hsegAck : seg.ack = ack := by rw [f.parseTCPOptions_filled hseg]
  have hcongr := getRelativeSequenceNumber_congr (exists_of_liftAbort hack) hne
  rw [Nat.mod_eq_of_lt f.thAck_lt] at hcongr
  have hfirst := (RangeManager.processAck_frame (exists_of_liftAbort hrm)).2
  obtain ⟨hlt, hsent, hackRef, hrecvd⟩ := hrefs
  rw [← hfirst] at hlt hsent hackRef hrecvd hcongr
  have hnew : Refers rm.firstSeq seg.ack f.thAck := by
    rw [hsegAck]
    exact ⟨by omega, hcongr.2.symm⟩
  cases ret with
  | true =>
      obtain ⟨rfl, -⟩ := Prod.mk.inj (Except.ok.inj h)
      exact ⟨hfirst, hlt, hsent, hnew, hrecvd⟩
  | false =>
      obtain ⟨rfl, -⟩ := Prod.mk.inj (Except.ok.inj h)
      exact ⟨hfirst, hlt, hsent, hackRef, hrecvd⟩

/-- Every received packet that is counted becomes the reference. -/
theorem processRecvd_references (hrefs : conn.References)
    (h : conn.processRecvd f = .ok (conn', counted)) :
    conn'.rm.firstSeq = conn.rm.firstSeq ∧ conn'.References := by
  rcases processRecvd_refines h with rfl | ⟨sd, hcarries, hrecvd⟩
  · exact ⟨rfl, hrefs⟩
  have hfirst := Dump.registerRecvd_firstSeq hrecvd
  obtain ⟨rm, -, hset⟩ := Run.exists_of_bind_ok hrecvd
  rw [← Except.ok.inj hset] at hfirst ⊢
  obtain ⟨hlt, hsent, hack, -⟩ := hrefs
  have hseq := hcarries.seq
  rw [← hfirst] at hlt hsent hack hseq
  refine ⟨hfirst, hlt, hsent, hack, ?_⟩
  show Refers rm.firstSeq sd.data.endSeq (add32 sd.data.seqAbsolute sd.data.payloadSize)
  change _ ∧ (rm.firstSeq + _) % 2 ^ 32 = _ at hseq
  have hsize := f.payloadSize_lt
  rw [hcarries.endSeq, hcarries.payloadSize, hcarries.seqAbsolute]
  unfold Refers add32
  generalize f.payloadSize = size at *
  omega

end TracedConnection

namespace Dump

variable {nat : NatConfig}

/-! ## Both captures -/

/-- A connection that counts from `firstSeq`, with its references. -/
def Numbered (firstSeq : ℕ) (conn : TracedConnection) : Prop :=
  conn.rm.firstSeq = firstSeq ∧ conn.References

/-- A sent SYN has the number `firstSeq`. -/
def SynFrom (firstSeq : ℕ) (c : Captured) : Prop :=
  ∀ f, c = .sent f → f.thFlags &&& thSyn ≠ 0 → f.thSeq = firstSeq

theorem connStep_numbered {firstSeq : ℕ} {conn conn' : TracedConnection} {c : Captured}
    (hinv : Numbered firstSeq conn) (hsyn : SynFrom firstSeq c) (h : connStep conn c = .ok conn') :
    Numbered firstSeq conn' := by
  obtain ⟨hfirst, hrefs⟩ := hinv
  obtain ⟨counted, hhandle⟩ := connStep_ok h
  have hstep : conn'.rm.firstSeq = conn.rm.firstSeq ∧ conn'.References := by
    cases c with
    | sent f =>
        refine TracedConnection.processSent_references hrefs ?_ hhandle
        rw [hfirst]
        exact hsyn f rfl
    | ack f => exact TracedConnection.processAcks_references hrefs hhandle
    | recvd f => exact TracedConnection.processRecvd_references hrefs hhandle
  exact ⟨hstep.1.trans hfirst, hstep.2⟩

theorem run_numbered {firstSeq : ℕ} {conn conn' : TracedConnection} {cs : List Captured}
    (hinv : Numbered firstSeq conn) (hsyn : ∀ c ∈ cs, SynFrom firstSeq c)
    (h : Run.run connStep conn cs = .ok conn') : Numbered firstSeq conn' :=
  Run.invariant (I := fun conn _ => Numbered firstSeq conn) (d := [])
    (fun _ _ _ _ hinv hok hstep => connStep_numbered hinv hok.2 hstep) hinv
    ((Run.steps_true _ _).and_forall hsyn) h

end Dump

end AnalyseTCP
