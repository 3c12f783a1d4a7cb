import AnalyseTCP.LatencyVariation
import AnalyseTCP.Refinement
import AnalyseTCP.TracedConnection

/-!
# Application layer marks

`registerRecvd` sets `in_sequence` on a packet that extends the in-order data, and
`increase_received` stores the bit in the ranges that the packet is the first to reach.  Between the
two, `insertReceivedRange` copies the packet into a segment of its own, without the bit.
-/

namespace AnalyseTCP

namespace RangeManager

/-! ## What one segment does to the ranges -/

/-- `r` was part of `o` before a segment that carries the bytes from `s` up to `e`. -/
structure ArrivedFrom (seg : DataSeg) (s e : ℕ) (o r : ByteRange) : Prop where
  start_le : o.startSeq ≤ r.startSeq
  le_end : r.endSeq ≤ o.endSeq
  kept : r.dataReceivedCount.total = o.dataReceivedCount.total ∨ (s ≤ r.startSeq ∧ r.endSeq ≤ e)
  unmarked : seg.inSequence = false → o.appLayerLatencyTstamp = false →
    r.appLayerLatencyTstamp = false

section Arrived

variable {seg : DataSeg} {level s e c : ℕ} {o r r' : ByteRange}

theorem ArrivedFrom.refl (seg : DataSeg) (s e : ℕ) (r : ByteRange) : ArrivedFrom seg s e r r :=
  ⟨le_rfl, le_rfl, .inl rfl, fun _ h => h⟩

/-- Two passes over one segment, of which the first one started at `s₀`. -/
theorem ArrivedFrom.trans {s₀ : ℕ} (h : ArrivedFrom seg s₀ e o r) (h' : ArrivedFrom seg s e r r')
    (hs : s₀ ≤ s) : ArrivedFrom seg s₀ e o r' := by
  have hstart := h'.start_le
  have hend := h'.le_end
  refine ⟨h.start_le.trans hstart, hend.trans h.le_end, ?_,
    fun hseg ho => h'.unmarked hseg (h.unmarked hseg ho)⟩
  -- either pass may be the one that has recorded the segment
  rcases h'.kept with hsame' | ⟨hlo, hhi⟩
  · rcases h.kept with hsame | ⟨hlo, hhi⟩
    · exact .inl (hsame'.trans hsame)
    · exact .inr ⟨by omega, by omega⟩
  · exact .inr ⟨by omega, hhi⟩

theorem arrivedFrom_head (hc : c ≤ r.endSeq) : ArrivedFrom seg s e r (r.head c) :=
  ⟨le_rfl, hc, .inl rfl, fun _ h => h⟩

theorem arrivedFrom_tail (hc : r.startSeq ≤ c) : ArrivedFrom seg s e r (r.tail c) :=
  ⟨hc, le_rfl, .inl rfl, fun _ _ => rfl⟩

theorem arrivedFrom_finSet : ArrivedFrom seg s e r (finSet seg r) := by
  refine ⟨(finSet_startSeq seg r).ge, (finSet_endSeq seg r).le, .inl ?_, fun _ h => ?_⟩
  · exact finSet_blind seg r (f := fun r => r.dataReceivedCount.total) fun _ _ => rfl
  · rw [finSet_blind seg r (f := ByteRange.appLayerLatencyTstamp) fun _ _ => rfl]
    exact h

theorem appLayerLatencyTstamp_recordRecv (hseg : seg.inSequence = false)
    (hr : r.appLayerLatencyTstamp = false) :
    (recordRecv seg level r).appLayerLatencyTstamp = false := by
  have hrecv : (recordRecv seg level r).appLayerLatencyTstamp =
      (r.increaseReceived seg.tstampTcp seg.tstampPcap seg.inSequence).appLayerLatencyTstamp := by
    unfold recordRecv
    dsimp only
    split <;> rfl
  rw [hrecv]
  unfold ByteRange.increaseReceived
  split
  · exact hseg
  · exact hr

/-- The range that the segment is recorded on lies within it. -/
theorem arrivedFrom_recordRecv (hs : s ≤ r.startSeq) (he : r.endSeq ≤ e) :
    ArrivedFrom seg s e r (recordRecv seg level r) := by
  refine ⟨(recordRecv_startSeq seg level r).ge, (recordRecv_endSeq seg level r).le, .inr ?_,
    appLayerLatencyTstamp_recordRecv⟩
  rw [recordRecv_startSeq, recordRecv_endSeq]
  exact ⟨hs, he⟩

/-- Every entry that a pass makes was part of the one it met. -/
theorem Pass.arrivedFrom {lastSeq : ℕ} {pre post old new : List Entry} {next : Option ℕ}
    (hpass : Pass lastSeq .recv seg level s e pre post old new next) (hwf : WfEntries old)
    (hlt : s < e) {en : Entry} (hen : en ∈ new) : ∃ o ∈ old, ArrivedFrom seg s e o.2 en.2 := by
  have hkey : ∀ key r, (key, r) ∈ old → key = r.startSeq := fun key r h => (hwf _ h).1
  -- a piece is cut out, then recorded; the segment covers the piece that it is recorded on
  cases hpass with
  | fresh hitype => cases hitype
  | reuse r c hitype => cases hitype
  | missing => cases hen
  | whole r hend =>
    have hr : s = r.startSeq := hkey s r (List.mem_singleton_self _)
    obtain rfl := List.mem_singleton.mp hen
    exact ⟨_, List.mem_singleton_self _, arrivedFrom_recordRecv hr.le hend.le⟩
  | span r hbytes hend =>
    have hr : s = r.startSeq := hkey s r (List.mem_singleton_self _)
    obtain rfl := List.mem_singleton.mp hen
    exact ⟨_, List.mem_singleton_self _, arrivedFrom_recordRecv hr.le hend.le⟩
  | front r hend =>
    have hr : s = r.startSeq := hkey s r (List.mem_singleton_self _)
    refine ⟨_, List.mem_singleton_self _, ?_⟩
    rcases List.mem_cons.mp hen with rfl | hen
    · exact (arrivedFrom_head hend.le).trans
        (arrivedFrom_recordRecv hr.le le_rfl : ArrivedFrom seg s e (r.head e) _) le_rfl
    · obtain rfl := List.mem_singleton.mp hen
      exact arrivedFrom_tail (show r.startSeq ≤ e by omega)
  | back key r hlow hlo hend =>
    have hr : key = r.startSeq := hkey key r (List.mem_singleton_self _)
    refine ⟨_, List.mem_singleton_self _, ?_⟩
    rcases List.mem_cons.mp hen with rfl | hen
    · exact arrivedFrom_head hlo.le
    · obtain rfl := List.mem_singleton.mp hen
      have htail : ArrivedFrom seg s e r (finSet seg (r.tail s)) :=
        (arrivedFrom_tail (by omega)).trans arrivedFrom_finSet le_rfl
      refine htail.trans (arrivedFrom_recordRecv ?_ ?_) le_rfl
      · rw [finSet_startSeq]
        exact le_rfl
      · rw [finSet_endSeq]
        exact hend.le
  | beyond key r hlow hlo hend =>
    have hr : key = r.startSeq := hkey key r (List.mem_singleton_self _)
    refine ⟨_, List.mem_singleton_self _, ?_⟩
    rcases List.mem_cons.mp hen with rfl | hen
    · exact arrivedFrom_head hlo.le
    · obtain rfl := List.mem_singleton.mp hen
      exact (arrivedFrom_tail (show r.startSeq ≤ s by omega)).trans
        (arrivedFrom_recordRecv le_rfl hend.le : ArrivedFrom seg s e (r.tail s) _) le_rfl
  | middle key r hlow hend =>
    have hr : key = r.startSeq := hkey key r (List.mem_singleton_self _)
    refine ⟨_, List.mem_singleton_self _, ?_⟩
    rcases List.mem_cons.mp hen with rfl | hen
    · exact arrivedFrom_head (hlt.trans hend).le
    · rcases List.mem_cons.mp hen with rfl | hen
      · have htail : ArrivedFrom seg s e r ((r.tail s).head e) :=
          (arrivedFrom_tail (by omega)).trans (arrivedFrom_head hend.le) le_rfl
        refine (htail.trans arrivedFrom_finSet le_rfl).trans (arrivedFrom_recordRecv ?_ ?_) le_rfl
        · rw [finSet_startSeq]
          exact le_rfl
        · rw [finSet_endSeq]
          exact le_rfl
      · obtain rfl := List.mem_singleton.mp hen
        exact (arrivedFrom_tail (show r.startSeq ≤ s by omega)).trans
          (arrivedFrom_tail hlt.le : ArrivedFrom seg s e (r.tail s) _) le_rfl

/-- What the passes over one segment keep: the entries are parts of those before. -/
def Arriving (seg : DataSeg) (s₀ e : ℕ) (l₀ l : List Entry) : Prop :=
  ∀ en ∈ l, ∃ o ∈ l₀, ArrivedFrom seg s₀ e o.2 en.2

theorem recvKeeps_arriving (lastSeq : ℕ) (seg : DataSeg) (s₀ e : ℕ) (l₀ : List Entry) :
    RecvKeeps lastSeq seg e (fun l s => s₀ ≤ s ∧ Arriving seg s₀ e l₀ l)
      (Arriving seg s₀ e l₀) := by
  rintro s level pre old new post next hwf - hlt ⟨hs, hinv⟩ hpass
  have hwfold : WfEntries old := (wfEntries_append.mp (wfEntries_append.mp hwf).1).2
  have hnew : Arriving seg s₀ e l₀ (pre ++ new ++ post) := by
    intro en hen
    by_cases hin : en ∈ new
    · obtain ⟨o, ho, hfrom⟩ := hpass.arrivedFrom hwfold hlt hin
      obtain ⟨o', ho', hfrom'⟩ := hinv o (by simp [ho])
      exact ⟨o', ho', hfrom'.trans hfrom hs⟩
    · refine hinv en ?_
      simp only [List.mem_append] at hen ⊢
      tauto
  exact ⟨fun _ => hnew, fun s' hs' => ⟨hs.trans (hpass.next_bounds hs').1.le, hnew⟩⟩

/-- Only ranges with bytes receive data. -/
def ReceivedBytes (l : List Entry) : Prop :=
  ∀ en ∈ l, 0 < en.2.dataReceivedCount.total → en.2.startSeq < en.2.endSeq

theorem recvKeeps_receivedBytes (lastSeq : ℕ) (seg : DataSeg) (e : ℕ) :
    RecvKeeps lastSeq seg e (fun l _ => ReceivedBytes l) ReceivedBytes := by
  intro s level pre old new post next hwf _ hlt hinv hpass
  have hwfold : WfEntries old := (wfEntries_append.mp (wfEntries_append.mp hwf).1).2
  have hnew : ReceivedBytes (pre ++ new ++ post) := by
    intro en hen hcount
    by_cases hin : en ∈ new
    · exact hpass.new_bytes hwfold hlt en hin
    · refine hinv en ?_ hcount
      simp only [List.mem_append] at hen ⊢
      tauto
  exact ⟨fun _ => hnew, fun _ _ => hnew⟩

end Arrived

end RangeManager

namespace TracedConnection

/-! ## Receiver traces -/

/-- The largest `endSeq` of the packets. -/
def largestEnd (sds : List SendData) : ℕ := (sds.map fun sd => sd.data.endSeq).foldr max 0

/-- The packet extends the in-order data. -/
def ExtendsInOrder (before : List SendData) (sd : SendData) : Prop :=
  sd.data.seq ≤ largestEnd before ∧ largestEnd before < sd.data.endSeq

instance (before : List SendData) (sd : SendData) : Decidable (ExtendsInOrder before sd) :=
  inferInstanceAs (Decidable (_ ∧ _))

/-- `r` is part of the range `o`. -/
def Within (r o : ByteRange) : Prop := o.startSeq ≤ r.startSeq ∧ r.endSeq ≤ o.endSeq

/-- The bytes of `r` are first received through the packet `sd`, which follows `before`: no copy of
them has arrived before it, and one has arrived after it. -/
def FirstThrough (conn₀ : TracedConnection) (before : List SendData) (sd : SendData)
    (r : ByteRange) : Prop :=
  ∃ conn conn', Run.run registerRecvd conn₀ before = .ok conn ∧ conn.registerRecvd sd = .ok conn' ∧
    (∃ o ∈ conn.rm.ranges.entries, Within r o.2 ∧ o.2.dataReceivedCount.total = 0) ∧
    ∃ o ∈ conn'.rm.ranges.entries, Within r o.2 ∧ 0 < o.2.dataReceivedCount.total

/-- The mark of every received range says whether the packet it was first received through extended
the in-order data, and `registerRecvDiffs` calculates what it would with such marks. -/
structure MarkedInOrder (conn₀ : TracedConnection) (sds : List SendData)
    (conn : TracedConnection) : Prop where
  mark : ∀ en ∈ conn.rm.ranges.entries, 0 < en.2.dataReceivedCount.total →
    ∀ before sd after, sds = before ++ sd :: after → FirstThrough conn₀ before sd en.2 →
      (en.2.appLayerLatencyTstamp = true ↔ ExtendsInOrder before sd)
  diffs : ∀ inOrder : Entry → Bool,
    (∀ en ∈ conn.rm.ranges.entries, 0 < en.2.dataReceivedCount.total →
      ∀ before sd after, sds = before ++ sd :: after → FirstThrough conn₀ before sd en.2 →
        (inOrder en = true ↔ ExtendsInOrder before sd)) →
    (RangeManager.registerRecvDiffs false none conn.rm.ranges.entries).map
        (List.map DiffRange.diff) =
      (RangeManager.registerRecvDiffs false none (conn.rm.ranges.entries.map fun en =>
        (en.1, { en.2 with appLayerLatencyTstamp := inOrder en }))).map (List.map DiffRange.diff)

/-- The condition of one step: a packet that extends the in-order data overlaps only ranges that
were received before. -/
def LeavesUnmarked (before : List SendData) (conn : TracedConnection) (sd : SendData) : Prop :=
  ExtendsInOrder before sd → ∀ en ∈ conn.rm.ranges.entries,
    max en.2.startSeq sd.data.seq < min en.2.endSeq sd.data.endSeq →
    0 < en.2.dataReceivedCount.total

instance (before : List SendData) (conn : TracedConnection) (sd : SendData) :
    Decidable (LeavesUnmarked before conn sd) :=
  inferInstanceAs (Decidable (_ → _))

section Received

variable {conn conn' conn₀ : TracedConnection} {sd : SendData}

/-- The segment of its own does not carry the bit. -/
theorem receivedSeg_markInSequence (conn : TracedConnection) (sd : SendData) :
    RangeManager.receivedSeg (conn.markInSequence sd) = RangeManager.receivedSeg sd := by
  unfold markInSequence
  split <;> rfl

/-- One received packet. -/
structure Receives (sd : SendData) (conn conn' : TracedConnection) : Prop where
  apart : conn'.rm.Apart
  arriving : RangeManager.Arriving (RangeManager.receivedSeg sd) sd.data.seq sd.data.endSeq
    conn.rm.ranges.entries conn'.rm.ranges.entries
  bytes : RangeManager.ReceivedBytes conn.rm.ranges.entries →
    RangeManager.ReceivedBytes conn'.rm.ranges.entries

theorem registerRecvd_receives (hapart : conn.rm.Apart) (hlt : sd.data.seq < sd.data.endSeq)
    (h : conn.registerRecvd sd = .ok conn') : Receives sd conn conn' := by
  obtain ⟨rm, hrm, h⟩ := Run.exists_of_bind_ok h
  obtain rfl := Except.ok.inj h
  unfold RangeManager.insertReceivedRange at hrm
  rw [receivedSeg_markInSequence] at hrm
  obtain ⟨⟨rm₁, ret⟩, hins, hrm⟩ := Run.exists_of_bind_ok hrm
  obtain rfl : rm₁ = rm := Except.ok.inj hrm
  have hlt' : (RangeManager.receivedSeg sd).seq < (RangeManager.receivedSeg sd).endSeq := hlt
  have hself : RangeManager.Arriving (RangeManager.receivedSeg sd) sd.data.seq sd.data.endSeq
      conn.rm.ranges.entries conn.rm.ranges.entries := fun en hen => ⟨en, hen, .refl _ _ _ _⟩
  obtain ⟨hapart', harriving⟩ := RangeManager.insertLoop_recv
    (RangeManager.recvKeeps_arriving _ _ _ _ _) hapart hlt' ⟨le_rfl, hself⟩ hins
  exact ⟨hapart', harriving, fun hbytes => (RangeManager.insertLoop_recv
    (RangeManager.recvKeeps_receivedBytes _ _ _) hapart hlt' hbytes hins).2⟩

/-- What holds after every receiver trace. -/
structure Unmarked (conn : TracedConnection) : Prop where
  apart : conn.rm.Apart
  unmarked : ∀ en ∈ conn.rm.ranges.entries, en.2.appLayerLatencyTstamp = false
  bytes : RangeManager.ReceivedBytes conn.rm.ranges.entries

/-- No packet sets a mark. -/
theorem registerRecvd_unmarked (hinv : Unmarked conn) (hlt : sd.data.seq < sd.data.endSeq)
    (h : conn.registerRecvd sd = .ok conn') : Unmarked conn' := by
  have hrecv := registerRecvd_receives hinv.apart hlt h
  refine ⟨hrecv.apart, fun en hen => ?_, hrecv.bytes hinv.bytes⟩
  obtain ⟨o, ho, hfrom⟩ := hrecv.arriving en hen
  exact hfrom.unmarked rfl (hinv.unmarked o ho)

variable {sds : List SendData}

theorem run_unmarked (hinv : Unmarked conn₀) (hdata : ∀ sd ∈ sds, sd.data.seq < sd.data.endSeq)
    (hrun : Run.run registerRecvd conn₀ sds = .ok conn) : Unmarked conn := by
  have hsteps : Run.Steps registerRecvd
      (fun _ sd => True ∧ sd.data.seq < sd.data.endSeq) conn₀ sds :=
    (Run.steps_true _ _).and_forall hdata
  exact Run.invariant (I := fun conn _ => Unmarked conn) (d := [])
    (fun _ _ _ _ hinv hok hstep => registerRecvd_unmarked hinv hok.2 hstep) hinv hsteps hrun

/-- Bytes that have been received were received through some packet first. -/
theorem exists_firstThrough (hinv : Unmarked conn₀)
    (hnone : ∀ en ∈ conn₀.rm.ranges.entries, en.2.dataReceivedCount.total = 0)
    (hdata : ∀ sd ∈ sds, sd.data.seq < sd.data.endSeq)
    (hrun : Run.run registerRecvd conn₀ sds = .ok conn) {en : Entry}
    (hen : en ∈ conn.rm.ranges.entries) (hcount : 0 < en.2.dataReceivedCount.total)
    {r : ByteRange} (hwithin : Within r en.2) :
    ∃ before sd after, sds = before ++ sd :: after ∧ FirstThrough conn₀ before sd r := by
  induction sds using List.reverseRecOn generalizing conn en with
  | nil =>
    obtain rfl := Except.ok.inj hrun
    have := hnone en hen
    omega
  | append_singleton sds sd ih =>
    obtain ⟨conn₁, hrun₁, hstep⟩ := Run.exists_of_run_concat hrun
    have hdata₁ : ∀ sd ∈ sds, sd.data.seq < sd.data.endSeq :=
      fun sd hsd => hdata sd (List.mem_append_left _ hsd)
    have hlt := hdata sd (List.mem_append_right _ (List.mem_singleton_self _))
    have hrecv := registerRecvd_receives (run_unmarked hinv hdata₁ hrun₁).apart hlt hstep
    obtain ⟨o, ho, hfrom⟩ := hrecv.arriving en hen
    have hwithin' : Within r o.2 :=
      ⟨hfrom.start_le.trans hwithin.1, hwithin.2.trans hfrom.le_end⟩
    -- the last packet is the first one to bring the bytes, or an earlier one was
    by_cases hzero : o.2.dataReceivedCount.total = 0
    · exact ⟨sds, sd, [], rfl, conn₁, conn, hrun₁, hstep, ⟨o, ho, hwithin', hzero⟩,
        en, hen, hwithin, hcount⟩
    · obtain ⟨before, sd', after, rfl, hfirst⟩ :=
        ih hdata₁ hrun₁ ho (Nat.pos_of_ne_zero hzero) hwithin'
      exact ⟨before, sd', after ++ [sd], by simp, hfirst⟩

/-- Through a packet that meets the condition, nothing is first received in order. -/
theorem not_extendsInOrder (hinv : Unmarked conn₀)
    (hdata : ∀ sd ∈ sds, sd.data.seq < sd.data.endSeq)
    (hsteps : Run.StepsAfter registerRecvd LeavesUnmarked [] conn₀ sds)
    {before after : List SendData} (hcut : sds = before ++ sd :: after) {r : ByteRange}
    (hbytes : r.startSeq < r.endSeq) (hfirst : FirstThrough conn₀ before sd r) :
    ¬ExtendsInOrder before sd := by
  obtain ⟨conn, conn', hrun, hstep, ⟨o, ho, hwithin, hzero⟩, o', ho', hwithin', hcount⟩ := hfirst
  subst hcut
  intro hextends
  have hmeets : LeavesUnmarked before conn sd := hsteps.meets hrun
  have hinv₁ : Unmarked conn :=
    run_unmarked hinv (fun sd hsd => hdata sd (List.mem_append_left _ hsd)) hrun
  have hlt := hdata sd (List.mem_append_right _ List.mem_cons_self)
  obtain ⟨p, hp, hfrom⟩ := (registerRecvd_receives hinv₁.apart hlt hstep).arriving o' ho'
  have hstart := hwithin.1
  have hstart' := hwithin'.1
  have hend := hwithin.2
  have hend' := hwithin'.2
  have hpstart := hfrom.start_le
  have hpend := hfrom.le_end
  -- both ranges hold the first byte of `r` before the packet
  obtain rfl : o = p := RangeManager.eq_of_holds hinv₁.apart.2 ho hp
    (b := r.startSeq) ⟨by omega, by omega⟩ ⟨by omega, by omega⟩
  rcases hfrom.kept with hsame | ⟨hlo, hhi⟩
  · omega
  · -- the packet has brought `r`, so it overlaps `o`, which was not received
    have := hmeets hextends o ho (by omega)
    omega

end Received

end TracedConnection

namespace RangeManager

theorem map_diff_cons {d d' : DiffRange} {x y : Except Abort (List DiffRange)}
    (hd : d.diff = d'.diff)
    (h : x.map (List.map DiffRange.diff) = y.map (List.map DiffRange.diff)) :
    (x >>= fun rest => Except.ok (d :: rest)).map (List.map DiffRange.diff) =
      (y >>= fun rest => Except.ok (d' :: rest)).map (List.map DiffRange.diff) := by
  cases x with
  | error err =>
    cases y with
    | error err' => exact h
    | ok l' => cases h
  | ok l =>
    cases y with
    | error err' => cases h
    | ok l' =>
      show Except.ok (d.diff :: l.map DiffRange.diff) = Except.ok (d'.diff :: l'.map DiffRange.diff)
      rw [hd, Except.ok.inj h]

/-- Only the marks of received ranges matter to the differences. -/
theorem registerRecvDiffs_remark {transport : Bool} {l : List Entry} {mark : Entry → Bool}
    (h : ∀ en ∈ l, en.2.received = true → mark en = en.2.appLayerLatencyTstamp)
    (last : Option Timeval) :
    (registerRecvDiffs transport last l).map (List.map DiffRange.diff) =
      (registerRecvDiffs transport last (l.map fun en =>
        (en.1, { en.2 with appLayerLatencyTstamp := mark en }))).map (List.map DiffRange.diff) := by
  induction l generalizing last with
  | nil => rfl
  | cons en l ih =>
    obtain ⟨key, r⟩ := en
    obtain ⟨hr, hl⟩ := List.forall_mem_cons.mp h
    have hreceived : ({ r with appLayerLatencyTstamp := mark (key, r) } : ByteRange).received =
        r.received := rfl
    rw [List.map_cons, registerRecvDiffs, registerRecvDiffs]
    dsimp only
    rw [hreceived]
    by_cases hrec : r.received = true
    · -- a received range keeps its mark
      have hsame : ({ r with appLayerLatencyTstamp := mark (key, r) } : ByteRange) = r := by
        rw [hr hrec]
      rw [if_pos hrec, if_pos hrec, hsame]
      cases r.matchReceivedType.1.calculateRecvDiff (lastAppLayer transport last r) with
      | error err => rfl
      | ok diff => exact map_diff_cons rfl (ih hl _)
    · rw [if_neg hrec, if_neg hrec]
      exact map_diff_cons rfl (ih hl last)

end RangeManager

namespace TracedConnection

/-- In every receiver trace whose packets extend the in-order data only with bytes that have arrived
before, the marks follow the arrival. -/
theorem registerRecvd_run_marked {conn₀ conn : TracedConnection} {sds : List SendData}
    (hwf : conn₀.rm.WellFormed)
    (hnone : ∀ en ∈ conn₀.rm.ranges.entries, en.2.dataReceivedCount.total = 0)
    (hunset : ∀ en ∈ conn₀.rm.ranges.entries, en.2.appLayerLatencyTstamp = false)
    (hdata : ∀ sd ∈ sds, sd.data.seq < sd.data.endSeq)
    (hsteps : Run.StepsAfter registerRecvd LeavesUnmarked [] conn₀ sds)
    (hrun : Run.run registerRecvd conn₀ sds = .ok conn) : MarkedInOrder conn₀ sds conn := by
  have hinit : Unmarked conn₀ := ⟨hwf.apart, hunset, fun en hen hcount => by
    have := hnone en hen
    omega⟩
  have hinv : Unmarked conn := run_unmarked hinit hdata hrun
  have hmark : ∀ en ∈ conn.rm.ranges.entries, 0 < en.2.dataReceivedCount.total →
      ∀ before sd after, sds = before ++ sd :: after → FirstThrough conn₀ before sd en.2 →
        (en.2.appLayerLatencyTstamp = true ↔ ExtendsInOrder before sd) := by
    intro en hen hcount before sd after hcut hfirst
    have hnot := not_extendsInOrder hinit hdata hsteps hcut (hinv.bytes en hen hcount) hfirst
    rw [hinv.unmarked en hen]
    exact iff_of_false Bool.false_ne_true hnot
  refine ⟨hmark, fun inOrder hspec => RangeManager.registerRecvDiffs_remark ?_ none⟩
  intro en hen hrec
  have hcount : 0 < en.2.dataReceivedCount.total := by
    by_contra hzero
    -- a range that no segment covered reads a count of zero
    have hval : en.2.dataReceivedCount.val = 0 := by
      unfold Counter.val
      rw [Nat.eq_zero_of_not_pos hzero]
      rfl
    unfold ByteRange.received at hrec
    exact (of_decide_eq_true hrec) hval
  obtain ⟨before, sd, after, hcut, hfirst⟩ :=
    exists_firstThrough hinit hnone hdata hrun hen hcount ⟨le_rfl, le_rfl⟩
  have hiff := (hspec en hen hcount before sd after hcut hfirst).trans
    (hmark en hen hcount before sd after hcut hfirst).symm
  exact Bool.eq_iff_iff.mpr hiff

/-- Twenty bytes, sent as two segments. -/
def twoSent : Except Abort TracedConnection :=
  Run.run step (new 0)
    [.sent { data := { seq := 0, endSeq := 10, payloadSize := 10, tstampPcap := ⟨1, 0⟩ } },
      .sent { data :=
        { seqAbsolute := 10, seq := 10, endSeq := 20, payloadSize := 10, tstampPcap := ⟨2, 0⟩ } }]

/-- Ten bytes that arrive at second `t`. -/
def tenArrive (t : ℤ) (seq : ℕ) : SendData :=
  { data := { seq := seq, endSeq := seq + 10, payloadSize := 10, tstampPcap := ⟨t, 0⟩ } }

/-- Nothing of the stream has arrived yet. -/
def NothingArrived (conn : TracedConnection) : Prop :=
  conn.rm.Apart ∧ ∀ en ∈ conn.rm.ranges.entries,
    en.2.dataReceivedCount.total = 0 ∧ en.2.appLayerLatencyTstamp = false

instance (conn : TracedConnection) : Decidable (NothingArrived conn) :=
  inferInstanceAs (Decidable (_ ∧ _))

theorem NothingArrived.wellFormed {conn : TracedConnection} (h : NothingArrived conn) :
    conn.rm.WellFormed := ⟨h.1.1, h.1.disjoint⟩

/-- The second segment arrives first. -/
theorem registerRecvd_run_marked_reordered :
    ∃ conn₀ conn, twoSent = .ok conn₀ ∧
      Run.run registerRecvd conn₀ [tenArrive 3 10, tenArrive 4 0] = .ok conn ∧
      MarkedInOrder conn₀ [tenArrive 3 10, tenArrive 4 0] conn := by
  obtain ⟨conn₀, hsent, hchecks⟩ := Run.exists_of_any_toOption (x := twoSent)
    (p := fun conn₀ => decide (NothingArrived conn₀) &&
      decide (Run.StepsAfter registerRecvd LeavesUnmarked [] conn₀
        [tenArrive 3 10, tenArrive 4 0]) &&
      (Run.run registerRecvd conn₀ [tenArrive 3 10, tenArrive 4 0]).toOption.any fun _ => true)
    (by decide +kernel)
  obtain ⟨hchecks, hrun⟩ := Bool.and_eq_true_iff.mp hchecks
  obtain ⟨hnone, hsteps⟩ := Bool.and_eq_true_iff.mp hchecks
  have hnone := of_decide_eq_true hnone
  obtain ⟨conn, hrun, -⟩ := Run.exists_of_any_toOption hrun
  exact ⟨conn₀, conn, hsent, hrun,
    registerRecvd_run_marked hnone.wellFormed (fun en hen => (hnone.2 en hen).1)
      (fun en hen => (hnone.2 en hen).2) (by decide) (of_decide_eq_true hsteps) hrun⟩

/-- The first segment arrives first, and is not marked. -/
theorem registerRecvd_forgets_mark :
    ∃ conn₀ conn, twoSent = .ok conn₀ ∧ NothingArrived conn₀ ∧
      Run.run registerRecvd conn₀ [tenArrive 3 0] = .ok conn ∧
      ¬MarkedInOrder conn₀ [tenArrive 3 0] conn := by
  obtain ⟨conn₀, hsent, hchecks⟩ := Run.exists_of_any_toOption (x := twoSent)
    (p := fun conn₀ => decide (NothingArrived conn₀) &&
      (conn₀.rm.ranges.entries.any fun o => decide (o.2.startSeq = 0 ∧ o.2.endSeq = 10)) &&
      (conn₀.registerRecvd (tenArrive 3 0)).toOption.any fun conn =>
        conn.rm.ranges.entries.any fun en => decide (en.2.startSeq = 0 ∧ en.2.endSeq = 10 ∧
          0 < en.2.dataReceivedCount.total ∧ en.2.appLayerLatencyTstamp = false))
    (by decide +kernel)
  obtain ⟨hchecks, hstep⟩ := Bool.and_eq_true_iff.mp hchecks
  obtain ⟨hnone, hold⟩ := Bool.and_eq_true_iff.mp hchecks
  have hnone := of_decide_eq_true hnone
  obtain ⟨o, ho, hold⟩ := List.any_eq_true.mp hold
  obtain ⟨hostart, hoend⟩ := of_decide_eq_true hold
  obtain ⟨conn, hstep, hnew⟩ := Run.exists_of_any_toOption hstep
  obtain ⟨en, hen, hnew⟩ := List.any_eq_true.mp hnew
  obtain ⟨hstart, hend, hcount, hmark⟩ := of_decide_eq_true hnew
  have hrun : Run.run registerRecvd conn₀ [tenArrive 3 0] = .ok conn := by
    rw [Run.run_cons_ok hstep]
    rfl
  refine ⟨conn₀, conn, hsent, hnone, hrun, fun h => ?_⟩
  have hfirst : FirstThrough conn₀ [] (tenArrive 3 0) en.2 :=
    ⟨conn₀, conn, rfl, hstep, ⟨o, ho, ⟨by omega, by omega⟩, (hnone.2 o ho).1⟩,
      en, hen, ⟨le_rfl, le_rfl⟩, hcount⟩
  have hextends := (h.mark en hen hcount [] (tenArrive 3 0) [] rfl hfirst).mpr (by decide)
  rw [hmark] at hextends
  cases hextends

end TracedConnection

end AnalyseTCP
